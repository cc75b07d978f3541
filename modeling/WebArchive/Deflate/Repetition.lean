import Std.Data.HashMap
import WebArchive.Deflate.Token

/-!
Finding what repeats itself. A repetition is taken unless the next place begins a longer one. Main
fact: `expand?_tokens`, the tokens of some bytes stand for these bytes.
-/
namespace WebArchive.Deflate

/-- How many bytes agree from `i` and from `j` on, at most `limit`. -/
def agreement (data : Array UInt8) (i j : Nat) : Nat → Nat
  | 0 => 0
  | limit + 1 =>
    if data.getD i 0 = data.getD j 0 then agreement data (i + 1) (j + 1) limit + 1 else 0

theorem agreement_le (data : Array UInt8) (i j limit : Nat) :
    agreement data i j limit ≤ limit := by
  fun_induction agreement <;> omega

theorem getD_of_lt_agreement {data : Array UInt8} {i j limit k : Nat}
    (h : k < agreement data i j limit) : data.getD (i + k) 0 = data.getD (j + k) 0 := by
  induction limit generalizing i j k with
  | zero => simp [agreement] at h
  | succ limit ih =>
    unfold agreement at h
    split at h
    · cases k with
      | zero => assumption
      | succ k =>
        have := ih (i := i + 1) (j := j + 1) (k := k) (by omega)
        simpa only [Nat.add_assoc, Nat.add_comm 1 k] using this
    · omega

structure Repetition (data : Array UInt8) (i : Nat) where
  length : Nat
  distance : Nat
  three_le : 3 ≤ length
  length_le : length ≤ State.maxMatch
  distance_pos : 0 < distance
  distance_le_window : distance ≤ window
  distance_le : distance ≤ i
  inside : i + length ≤ data.size
  agrees : ∀ k < length, data.getD (i + k) 0 = data.getD (i + k - distance) 0

namespace Repetition

/-- From this distance on three bytes are shorter as literals. -/
def farAway : Nat := 8192

/-- All that agrees with the bytes from `j` on, if it is worth a token. -/
def ofPlace? (data : Array UInt8) (i j : Nat) : Option (Repetition data i) :=
  let length := agreement data i j (min State.maxMatch (data.size - i))
  if h : j < i ∧ i - j ≤ window ∧ 3 ≤ length ∧ (length = 3 → i - j < farAway) then
    have most : length ≤ min State.maxMatch (data.size - i) := agreement_le ..
    some
      { length
        distance := i - j
        three_le := h.2.2.1
        length_le := by omega
        distance_pos := by omega
        distance_le_window := h.2.1
        distance_le := by omega
        inside := by omega
        agrees := fun k small => by
          rw [getD_of_lt_agreement small]
          congr 1
          omega }
  else none

/-- For each place the nearest earlier one that begins with the same three bytes, or zero. -/
def nearest (data : Array UInt8) : Array Nat :=
  let step := fun ((found, seen) : Array Nat × Std.HashMap Nat Nat) i =>
    let three := Bytes.ofLittleEndian [data.getD i 0, data.getD (i + 1) 0, data.getD (i + 2) 0]
    (found.push (seen.getD three 0), seen.insert three i)
  ((List.range data.size).foldl step (#[], ∅)).1

def probes : Nat := 128

/-- The earlier places with the same three bytes, the nearest first; never the first place. -/
def earlier (nearest : Array Nat) (i : Nat) : Nat → List Nat
  | 0 => []
  | probes + 1 =>
    match nearest.getD i 0 with
    | 0 => []
    | j => j :: earlier nearest j probes

/-- The longest repetition of more than `least` bytes, of equal ones the nearest. -/
def longest? (data : Array UInt8) (nearest : Array Nat) (i least : Nat) :
    Option (Repetition data i) :=
  let keep (best : Option (Repetition data i)) (m : Repetition data i) :=
    if (best.map (·.length)).getD least < m.length then some m else best
  ((earlier nearest i probes).filterMap (ofPlace? data i)).foldl keep none

/-- A repetition as long as this is taken without a look at the next place. -/
def longEnough : Nat := 128

def better? (data : Array UInt8) (nearest : Array Nat) {i : Nat} (m : Repetition data i) :
    Option (Repetition data (i + 1)) :=
  if m.length < longEnough then longest? data nearest (i + 1) m.length else none

end Repetition

open Repetition in
/-- Goes on behind `taken`, at a place where `found` begins. -/
def tokensFrom (data : Array UInt8) (nearest : Array Nat) (i : Nat)
    (found : Option (Repetition data i)) (taken : Array Token) : Array Token :=
  if inside : i < data.size then
    match found with
    | none =>
      tokensFrom data nearest (i + 1) (longest? data nearest (i + 1) 2)
        (taken.push (.literal data[i]))
    | some m =>
      match better? data nearest m with
      | some next =>
        tokensFrom data nearest (i + 1) (some next) (taken.push (.literal data[i]))
      | none =>
        tokensFrom data nearest (i + m.length) (longest? data nearest (i + m.length) 2)
          (taken.push (.repeated m.length m.distance))
  else taken
termination_by data.size - i
decreasing_by
  · omega
  · omega
  · have := m.three_le; omega

def tokens (data : Array UInt8) : List Token :=
  (tokensFrom data (Repetition.nearest data) 0 none #[]).toList

theorem Token.expand?_push_literal {data : Array UInt8} {i : Nat} {taken : Array Token}
    (inside : i < data.size) (before : expand? taken.toList #[] = some (data.extract 0 i)) :
    expand? (taken.push (.literal data[i])).toList #[] = some (data.extract 0 (i + 1)) := by
  rw [Array.toList_push, expand?_append, before]
  simp [expand?, addTo?, Array.push_extract_getElem inside]

theorem Token.expand?_push_repeated {data : Array UInt8} {i : Nat} {taken : Array Token}
    (m : Repetition data i) (before : expand? taken.toList #[] = some (data.extract 0 i)) :
    expand? (taken.push (.repeated m.length m.distance)).toList #[] =
      some (data.extract 0 (i + m.length)) := by
  have size : (data.extract 0 i).size = i := by have := m.inside; simp; omega
  have copied := copyMatch_extract data i m.length m.distance m.distance_le m.distance_pos
    m.length_le m.inside m.agrees
  rw [Array.toList_push, expand?_append, before]
  simp [expand?, addTo?, copied, m.three_le, m.length_le, m.distance_pos, m.distance_le_window,
    size, m.distance_le]

theorem expand?_tokensFrom {data : Array UInt8} {nearest : Array Nat} {i : Nat}
    {found : Option (Repetition data i)} {taken : Array Token}
    (before : Token.expand? taken.toList #[] = some (data.extract 0 i)) :
    Token.expand? (tokensFrom data nearest i found taken).toList #[] = some data := by
  fun_induction tokensFrom data nearest i found taken with
  | case1 i taken inside ih => exact ih (Token.expand?_push_literal inside before)
  | case2 i taken inside m next _ ih => exact ih (Token.expand?_push_literal inside before)
  | case3 i taken inside m _ ih => exact ih (Token.expand?_push_repeated m before)
  | case4 i found taken outside =>
    rw [before, Array.extract_eq_self_of_le (by omega)]

theorem expand?_tokens (data : Array UInt8) : Token.expand? (tokens data) #[] = some data :=
  expand?_tokensFrom (by simp [Token.expand?])

end WebArchive.Deflate
