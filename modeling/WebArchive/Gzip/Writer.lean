import WebArchive.Deflate.Compressor
import WebArchive.Gzip.Member
import WebArchive.Stream.Sink

/-!
Writing members: header, compressed data, trailer. The data are pulled from their source and
pushed through a compressor piece by piece, and what it hands out is written at once. The position
counts complete members only; what an attempt had written before it failed stays in the sink.
-/
namespace WebArchive.Gzip

open Deflate (Compressor Deflater Squeeze)

structure Deflation (κ : Type) where
  sink : Sink
  compressor : κ
  checksum : Crc32 := {}
  size : Nat := 0
  compressedSize : Nat := 0

namespace Deflation
variable {κ : Type} [Compressor κ]

def take (d : Deflation κ) (bs : Bytes) : Deflation κ :=
  { d with checksum := d.checksum.update bs, size := d.size + bs.length }

/-- Has the compressor take all of a piece, or finish when there is no more, and writes what it
hands out, at most `room` bytes in a call. -/
def press (room : Nat) (some : 0 < room) (last : Bool) (d : Deflation κ) (piece : Bytes) :
    Answer (Deflation κ) Unit :=
  let call : Squeeze κ := Compressor.step d.compressor piece room last
  match d.sink.write call.produced with
  | (.error e, sink) => (.error e, { d with sink })
  | (.ok (), sink) =>
    let pressed : Deflation κ :=
      { d with
        sink
        compressor := call.next
        compressedSize := d.compressedSize + call.produced.length }
    if _done : if last then call.isEnded = true else piece.drop call.consumed = [] then
      (.ok (), pressed)
    else press room some last pressed (piece.drop call.consumed)
termination_by (piece.length, Compressor.weight d.compressor)
decreasing_by
  have bound : call.consumed ≤ piece.length := Compressor.consumed_le
  by_cases none : call.consumed = 0
  · rw [none, List.drop_zero]
    refine Prod.Lex.right _ (Compressor.weight_step some none ?_)
    cases last
    · simpa [none] using _done
    · simpa using _done
  · refine Prod.Lex.left _ _ ?_
    have left : (piece.drop call.consumed).length = piece.length - call.consumed :=
      List.length_drop
    exact left ▸ (by omega : piece.length - call.consumed < piece.length)

variable {σ : Type} [Readable σ]

def pull (room : Nat) (some : 0 < room) (d : Deflation κ) (source : σ) :
    Answer (Deflation κ) Unit :=
  match _call : Readable.readOn source room with
  | (.error e, _) => (.error e, d)
  | (.ok [], _) => d.press room some true []
  | (.ok (b :: bs), source) =>
    ((d.take (b :: bs)).press room some false (b :: bs)).andThen fun _ d =>
      d.pull room some source
termination_by Readable.weight source
decreasing_by exact Readable.weight_readOn_lt _call

def member (d : Deflation κ) (index offset : Nat) (header : Header) : Member :=
  { index
    offset
    header
    headerLength := header.bytes.length
    headerChecksum := header.checksum?.map fun c => ⟨c, c⟩
    ending := some
      { compressedSize := d.compressedSize
        size := d.size
        checksum := ⟨d.checksum.value, d.checksum.value⟩
        shortSize := ⟨UInt32.ofNat d.size, UInt32.ofNat d.size⟩ } }

end Deflation

structure Writer where
  sink : Sink := {}
  /-- how much is read in one call and written in one -/
  bufferSize : Nat := 1024
  bufferSize_pos : 0 < bufferSize := by decide
  count : Nat := 0
  position : Nat := 0

namespace Writer

/-- A writer with a buffer of the given size, which may not be empty. -/
def withBuffer (sink : Sink) (bufferSize : Nat) : Except Error Writer :=
  if some : 0 < bufferSize then .ok { sink, bufferSize, bufferSize_pos := some }
  else .error .emptyBuffer

variable {σ : Type} [Readable σ]

/-- Writes one member with all the data of a source, compressed by a `κ`, and answers with what is
known of it. -/
def writeWith (κ : Type) [Compressor κ] (w : Writer) (header : Header) (source : σ) :
    Outcome Error Writer Member :=
  match header.encode with
  | .error part => (.error (.unencodable part), w)
  | .ok bytes =>
    match w.sink.write bytes with
    | (.error e, sink) => (.error (.stream e), { w with sink })
    | (.ok (), sink) =>
      let begun : Deflation κ := { sink, compressor := Compressor.start }
      match begun.pull w.bufferSize w.bufferSize_pos source with
      | (.error e, d) => (.error (.stream e), { w with sink := d.sink })
      | (.ok (), d) =>
        match d.sink.write (Member.trailer d.checksum d.size) with
        | (.error e, sink) => (.error (.stream e), { w with sink })
        | (.ok (), sink) =>
          (.ok (d.member w.count w.position header),
            { w with
              sink
              count := w.count + 1
              position := w.position + bytes.length + d.compressedSize + Member.trailerLength })

def write (w : Writer) (header : Header) (source : σ) : Outcome Error Writer Member :=
  w.writeWith Deflater header source

end Writer
end WebArchive.Gzip
