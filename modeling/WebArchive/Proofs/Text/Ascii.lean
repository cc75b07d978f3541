import WebArchive.Text.Encoding

/-!
ASCII characters, which are one byte each. Main fact: `latin1_utf8`, the bytes of an ASCII text are
its characters.
-/
namespace WebArchive.Text

/-- The bytes of a text as it is stored. -/
def utf8 (t : Text) : Bytes := t.flatMap String.utf8EncodeChar

theorem length_utf8_cons (c : Char) (rest : Text) :
    (utf8 (c :: rest)).length = c.utf8Size + (utf8 rest).length := by
  rw [utf8, List.flatMap_cons, List.length_append, String.length_utf8EncodeChar]
  rfl

variable {c : Char} {t : Text}

theorem ascii_of_isAlphanum (h : c.isAlphanum) : c.toNat < 128 := by
  change ((decide (c.val ≥ 'A'.val ∧ c.val ≤ 'Z'.val) ||
    decide (c.val ≥ 'a'.val) && decide (c.val ≤ 'z'.val)) ||
    decide (c.val ≥ '0'.val) && decide (c.val ≤ '9'.val)) = true at h
  simp only [Bool.or_eq_true, Bool.and_eq_true, decide_eq_true_eq, ge_iff_le,
    UInt32.le_iff_toNat_le] at h
  have upper : 'Z'.val.toNat = 90 := rfl
  have lower : 'z'.val.toNat = 122 := rfl
  have digit : '9'.val.toNat = 57 := rfl
  show c.val.toNat < 128
  omega

/-- Letters, digits and some marks. -/
theorem ascii_of_class {marks : Text} (ascii : marks.all (·.toNat < 128))
    (h : c.isAlphanum || marks.contains c) : c.toNat < 128 := by
  simp only [List.contains_eq_mem, Bool.or_eq_true, decide_eq_true_eq] at h
  rcases h with letter | mark
  · exact ascii_of_isAlphanum letter
  · simpa using List.all_eq_true.mp ascii c mark

theorem utf8EncodeChar_ascii (ascii : c.toNat < 128) :
    String.utf8EncodeChar c = [UInt8.ofNat c.toNat] := by
  have small : c.val.toNat ≤ 127 := Nat.le_of_lt_succ ascii
  simp only [String.utf8EncodeChar, if_pos small]
  rfl

/-- Every byte of a longer sequence has its high bit set. -/
theorem ascii_of_utf8EncodeChar (ascii : ∀ b ∈ String.utf8EncodeChar c, b.toNat < 128) :
    c.toNat < 128 := by
  revert ascii
  show _ → c.val.toNat < 128
  simp only [String.utf8EncodeChar]
  split
  · omega
  · split
    · simp; omega
    · split <;> (simp; omega)

theorem ascii_of_utf8 (ascii : ∀ b ∈ utf8 t, b.toNat < 128) : ∀ c ∈ t, c.toNat < 128 :=
  fun c member => ascii_of_utf8EncodeChar fun b inside =>
    ascii b (List.mem_flatMap.mpr ⟨c, member, inside⟩)

theorem latin1_utf8 (ascii : ∀ c ∈ t, c.toNat < 128) : latin1 (utf8 t) = t := by
  induction t with
  | nil => rfl
  | cons c rest ih =>
    obtain ⟨first, ascii⟩ := List.forall_mem_cons.mp ascii
    have byte : Char.ofNat (UInt8.ofNat c.toNat).toNat = c := by
      rw [UInt8.toNat_ofNat_of_lt' (by show c.toNat < 256; omega), Char.ofNat_toNat]
    rw [utf8, List.flatMap_cons, utf8EncodeChar_ascii first]
    show Char.ofNat (UInt8.ofNat c.toNat).toNat :: latin1 (utf8 rest) = _
    rw [byte, ih ascii]

end WebArchive.Text
