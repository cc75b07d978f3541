import WebArchive.Text.Basic

/-!
Decimal numbers in header fields: ASCII digits, an optional sign, leading zeros allowed,
and a range that the value has to fit.
-/
namespace WebArchive.Text

def decimal? (t : Text) : Option Nat :=
  if t ≠ [] ∧ t.all Char.isDigit then
    some (t.foldl (fun n c => 10 * n + (c.toNat - '0'.toNat)) 0)
  else none

/-- A number below `bound`; a plus sign may stand in front. -/
def unsigned? (bound : Nat) (t : Text) : Option Nat :=
  (match t with
    | '+' :: digits => decimal? digits
    | digits => decimal? digits).filter (· < bound)

/-- A 64-bit length or offset. -/
def long? (t : Text) : Option Nat := unsigned? (1 <<< 64) t

/-- A number from `-2 ^ 31` to `2 ^ 31 - 1`, with an optional sign. -/
def integer? (t : Text) : Option Int :=
  match t with
  | '-' :: digits => ((decimal? digits).filter (· ≤ 1 <<< 31)).map fun n => -(n : Int)
  | digits => (unsigned? (1 <<< 31) digits).map Int.ofNat

def ofNat (n : Nat) : Text := Nat.toDigits 10 n

def padded (width n : Nat) : Text :=
  let digits := ofNat n
  List.replicate (width - digits.length) '0' ++ digits

end WebArchive.Text
