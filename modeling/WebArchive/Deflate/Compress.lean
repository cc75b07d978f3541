import WebArchive.Deflate.FixedBlock
import WebArchive.Deflate.Repetition
import WebArchive.Deflate.Stored

/-!
Compressing: what repeats itself is said once, and bytes that do not get shorter by it are stored.
Main fact: `inflate_compress`, inflating gives the bytes back.
-/
namespace WebArchive.Deflate

/-- So few bytes never take less room in a stored block. -/
def neverStored : Nat := 32

def compress (data : Bytes) : Bytes :=
  let block := fixedBlock (tokens data.toArray)
  if neverStored < data.length ∧ data.length ≤ block.length / 8 + 1 then store data
  else (pack #[] block).toList

theorem inflate_compress (data : Bytes) :
    inflate (compress data) = { mode := .finished, final := true, output := data.toArray } := by
  unfold compress
  dsimp only
  split
  · exact inflate_store data
  · exact inflate_fixedBlock (expand?_tokens data.toArray)

end WebArchive.Deflate
