import WebArchive.Deflate.Inflate

/-!
What a compressed block says, before it is written in bits: single bytes and repetitions of bytes
that came before. Main fact: `copyMatch_extract`, repeating bytes that agree with the ones to come
adds the ones to come.
-/
namespace WebArchive.Deflate

def window : Nat := 32768

inductive Token where
  | literal (b : UInt8)
  /-- `length` bytes once more, beginning `distance` bytes ago -/
  | repeated (length distance : Nat)

namespace Token

/-- Adds what a token stands for, if a block can say it at this place. -/
def addTo? (output : Array UInt8) : Token → Option (Array UInt8)
  | .literal b => some (output.push b)
  | .repeated length distance =>
    if 3 ≤ length ∧ length ≤ State.maxMatch ∧ 0 < distance ∧ distance ≤ window ∧
        distance ≤ output.size then
      some (State.copyMatch length distance output)
    else none

def expand? (tokens : List Token) (output : Array UInt8) : Option (Array UInt8) :=
  tokens.foldlM addTo? output

theorem expand?_append (ts us : List Token) (output : Array UInt8) :
    expand? (ts ++ us) output = (expand? ts output).bind (expand? us) := by
  simp only [expand?, List.foldlM_append]
  rfl

end Token

theorem repeat_push_extract (data : Array UInt8) (i distance : Nat) (before : distance ≤ i)
    (some : 0 < distance) (length : Nat) (inside : i + length ≤ data.size)
    (agrees : ∀ k < length, data.getD (i + k) 0 = data.getD (i + k - distance) 0) :
    Nat.repeat (fun out => out.push (out.getD (out.size - distance) 0)) length
      (data.extract 0 i) = data.extract 0 (i + length) := by
  induction length with
  | zero => rfl
  | succ n ih =>
    have size : (data.extract 0 (i + n)).size = i + n := by simp; omega
    have copied : (data.extract 0 (i + n)).getD (i + n - distance) 0 = data[i + n] := by
      have same := agrees n (by omega)
      have earlier : i + n - distance < data.size := by omega
      have here : i + n < data.size := by omega
      simp only [Array.getD_eq_getD_getElem?, Array.getElem?_eq_getElem here,
        Array.getElem?_eq_getElem earlier, Option.getD_some] at same
      rw [Array.getD_eq_getD_getElem?, Array.getElem?_eq_getElem (by omega), same]
      simp
    rw [Nat.repeat, ih (by omega) fun k small => agrees k (by omega), size, copied,
      Array.push_extract_getElem (by omega)]
    simp [Nat.add_assoc]

theorem copyMatch_extract (data : Array UInt8) (i length distance : Nat) (before : distance ≤ i)
    (some : 0 < distance) (small : length ≤ State.maxMatch) (inside : i + length ≤ data.size)
    (agrees : ∀ k < length, data.getD (i + k) 0 = data.getD (i + k - distance) 0) :
    State.copyMatch length distance (data.extract 0 i) = data.extract 0 (i + length) := by
  rw [State.copyMatch, Nat.min_eq_left small]
  exact repeat_push_extract data i distance before some length inside agrees

end WebArchive.Deflate
