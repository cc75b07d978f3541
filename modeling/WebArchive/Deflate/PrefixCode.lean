/-!
Canonical prefix codes, given by the length of each symbol's code: shorter codes come first, and
codes of one length are consecutive numbers in the order of their symbols.
-/
namespace WebArchive.Deflate

/-- How many codes there are of each length from 1 to 15, and the symbols in the order of their
codes. -/
structure PrefixCode where
  counts : List Nat
  symbols : Array Nat

/-- The bits of a code read so far: the counts of the longer codes, the number read, the first
number of its length, and the place of that code's symbol. -/
structure Walk where
  longer : List Nat
  code : Nat := 0
  first : Nat := 0
  index : Nat := 0

inductive Reached where
  | symbol (s : Nat)
  | inside (w : Walk)
  | nothing

namespace PrefixCode

def maxLength : Nat := 15

/-- No code is another one's prefix and none is missing; a code of at most one symbol may be
incomplete. -/
def isUsable (counts : List Nat) : Bool :=
  counts.zipIdx.foldl (fun total (n, i) => total + n <<< (maxLength - 1 - i)) 0 = 1 <<< maxLength ||
    counts.foldl (· + ·) 0 ≤ 1

def ofLengths? (lengths : List Nat) : Option PrefixCode :=
  let ofLength (l : Nat) := (lengths.zipIdx.filter fun (n, _) => n = l).map (·.2)
  let groups := (List.range maxLength).map fun i => ofLength (i + 1)
  let counts := groups.map List.length
  if isUsable counts then some ⟨counts, groups.flatten.toArray⟩ else none

def begin (c : PrefixCode) : Walk := { longer := c.counts }

def advance (c : PrefixCode) (w : Walk) (bit : Bool) : Reached :=
  match w.longer with
  | [] => .nothing
  | n :: longer =>
    let code := w.code + bit.toNat
    if code < w.first + n then .symbol (c.symbols.getD (w.index + (code - w.first)) 0)
    else .inside ⟨longer, 2 * code, 2 * (w.first + n), w.index + n⟩

end PrefixCode
end WebArchive.Deflate
