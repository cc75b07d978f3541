import WebArchive.Bytes
import WebArchive.Text.Basic

/-!
From bytes to characters. UTF-8 is read strictly (`utf8?`) or with a replacement character for
each maximal invalid run (`utf8Lossy`); Windows-1252 and ISO-8859-1 give every byte a character.
Main fact: `latin1?_latin1`, the ISO-8859-1 text of bytes is written back as the same bytes.
-/
namespace WebArchive.Text

/-! ### UTF-8 -/

/-- The bytes that a UTF-8 sequence still needs: how many, the range of the next one, and the
value of the bits read so far. -/
structure Pending where
  left : Nat
  low : UInt8
  high : UInt8
  value : Nat

inductive Lead where
  | char (c : Char)
  | sequence (p : Pending)
  | invalid

/-- Overlong forms, surrogates and values past the last code point are kept out by the range of
the second byte. -/
def lead (b : UInt8) : Lead :=
  if b < 0x80 then .char (Char.ofNat b.toNat)
  else if b < 0xC2 then .invalid
  else if b < 0xE0 then .sequence ⟨1, 0x80, 0xBF, b.toNat - 0xC0⟩
  else if b < 0xF0 then
    .sequence ⟨2, if b = 0xE0 then 0xA0 else 0x80, if b = 0xED then 0x9F else 0xBF, b.toNat - 0xE0⟩
  else if b < 0xF5 then
    .sequence ⟨3, if b = 0xF0 then 0x90 else 0x80, if b = 0xF4 then 0x8F else 0xBF, b.toNat - 0xF0⟩
  else .invalid

/-- The scalars of a byte string; `none` stands for a maximal run of bytes that begins a sequence
but does not finish it, or for a byte that begins none. -/
def scalarsFrom : Option Pending → Bytes → List (Option Char)
  | none, [] => []
  | some _, [] => [none]
  | state, b :: bs =>
    let restart (bad : List (Option Char)) :=
      match lead b with
      | .char c => bad ++ some c :: scalarsFrom none bs
      | .sequence p => bad ++ scalarsFrom (some p) bs
      | .invalid => bad ++ none :: scalarsFrom none bs
    match state with
    | none => restart []
    | some p =>
      if p.low ≤ b ∧ b ≤ p.high then
        let value := p.value * 64 + (b.toNat - 0x80)
        if p.left ≤ 1 then some (Char.ofNat value) :: scalarsFrom none bs
        else scalarsFrom (some ⟨p.left - 1, 0x80, 0xBF, value⟩) bs
      else restart [none]

def scalars (bs : Bytes) : List (Option Char) := scalarsFrom none bs

def utf8? (bs : Bytes) : Option Text := (scalars bs).mapM id

/-- Each maximal invalid run becomes one replacement character. -/
def utf8Lossy (bs : Bytes) : Text := (scalars bs).map fun c => c.getD '\uFFFD'

/-! ### Single-byte encodings -/

/-- The characters of the bytes 0x80 to 0x9F in Windows-1252; the five unassigned ones keep their
own code point. -/
def windows1252High : List Char :=
  ['\u20AC', '\u0081', '\u201A', '\u0192', '\u201E', '\u2026', '\u2020', '\u2021',
   '\u02C6', '\u2030', '\u0160', '\u2039', '\u0152', '\u008D', '\u017D', '\u008F',
   '\u0090', '\u2018', '\u2019', '\u201C', '\u201D', '\u2022', '\u2013', '\u2014',
   '\u02DC', '\u2122', '\u0161', '\u203A', '\u0153', '\u009D', '\u017E', '\u0178']

def windows1252 (bs : Bytes) : Text :=
  bs.map fun b =>
    if 0x80 ≤ b ∧ b < 0xA0 then windows1252High.getD (b.toNat - 0x80) '\uFFFD'
    else Char.ofNat b.toNat

/-- Header lines are UTF-8; a line that is not is taken for Windows-1252. -/
def ofLineBytes (bs : Bytes) : Text := (utf8? bs).getD (windows1252 bs)

/-- ISO-8859-1: every byte is the code point of the same value. -/
def latin1 (bs : Bytes) : Text := bs.map fun b => Char.ofNat b.toNat

/-- The ISO-8859-1 bytes of a text that has no character past U+00FF. -/
def latin1? (t : Text) : Option Bytes :=
  if t.all (·.toNat < 256) then some (t.map fun c => UInt8.ofNat c.toNat) else none

theorem toNat_ofNat_byte (b : UInt8) : (Char.ofNat b.toNat).toNat = b.toNat := by
  have small : b.toNat < 256 := b.toNat_lt
  have valid : b.toNat.isValidChar := Or.inl (by omega)
  rw [Char.ofNat, dif_pos valid]
  rfl

theorem latin1?_latin1 (bs : Bytes) : latin1? (latin1 bs) = some bs := by
  have bounded : (latin1 bs).all (·.toNat < 256) := by
    simp only [latin1, List.all_map, List.all_eq_true, Function.comp, decide_eq_true_eq]
    intro b _
    rw [toNat_ofNat_byte]
    exact b.toNat_lt
  simp [latin1?, bounded]
  simp [latin1, Function.comp_def, toNat_ofNat_byte]

end WebArchive.Text
