import WebArchive.Text.Number

/-!
Numbers written with a fixed number of digits. Main fact: `Digits.padded_value`, a number is shown
in the digits that it was read from.
-/
namespace WebArchive.Text

/-- A number as it is written with `n` digits. -/
structure Digits (n : Nat) where
  text : Text
  length : text.length = n
  digits : text.all Char.isDigit

theorem toNat_of_isDigit {c : Char} (digit : c.isDigit) :
    '0'.toNat ≤ c.toNat ∧ c.toNat < '0'.toNat + 10 := by
  simp only [Char.isDigit, Bool.and_eq_true, decide_eq_true_eq, ge_iff_le,
    UInt32.le_iff_toNat_le] at digit
  have zero : '0'.val.toNat = 48 := rfl
  have nine : '9'.val.toNat = 57 := rfl
  show '0'.val.toNat ≤ c.val.toNat ∧ c.val.toNat < '0'.val.toNat + 10
  omega

theorem ofDigitChars_lt {t : Text} (digits : ∀ c ∈ t, c.isDigit) (first : Nat) :
    Nat.ofDigitChars 10 t first < (first + 1) * Nat.pow 10 t.length := by
  induction t generalizing first with
  | nil => simp [Nat.ofDigitChars]
  | cons c rest ih =>
    obtain ⟨digit, digits⟩ := List.forall_mem_cons.mp digits
    have small := toNat_of_isDigit digit
    rw [Nat.ofDigitChars_cons]
    calc _ < (10 * first + (c.toNat - '0'.toNat) + 1) * Nat.pow 10 rest.length := ih digits _
      _ ≤ ((first + 1) * 10) * Nat.pow 10 rest.length := Nat.mul_le_mul_right _ (by omega)
      _ = (first + 1) * (Nat.pow 10 rest.length * 10) := by
        rw [Nat.mul_assoc, Nat.mul_comm 10]

/-- Digits and the number before them are told by the number they make. -/
theorem ofDigitChars_inj {t t' : Text} (same : t.length = t'.length)
    (digits : ∀ c ∈ t, c.isDigit) (digits' : ∀ c ∈ t', c.isDigit) {first first' : Nat}
    (value : Nat.ofDigitChars 10 t first = Nat.ofDigitChars 10 t' first') :
    first = first' ∧ t = t' := by
  induction t generalizing t' first first' with
  | nil =>
    obtain rfl := List.length_eq_zero_iff.mp same.symm
    exact ⟨value, rfl⟩
  | cons c rest ih =>
    obtain ⟨c', rest', rfl⟩ := List.exists_cons_of_length_eq_add_one same.symm
    obtain ⟨digit, digits⟩ := List.forall_mem_cons.mp digits
    obtain ⟨digit', digits'⟩ := List.forall_mem_cons.mp digits'
    rw [Nat.ofDigitChars_cons, Nat.ofDigitChars_cons] at value
    obtain ⟨here, rfl⟩ := ih (Nat.succ.inj same) digits digits' value
    have small := toNat_of_isDigit digit
    have small' := toNat_of_isDigit digit'
    obtain rfl : c = c' := Char.toNat_inj.mp (by omega)
    exact ⟨by omega, rfl⟩

namespace Digits
variable {n : Nat} (d : Digits n)

theorem isDigit : ∀ c ∈ d.text, c.isDigit := List.all_eq_true.mp d.digits

def value : Nat := Nat.ofDigitChars 10 d.text 0

theorem value_lt : d.value < Nat.pow 10 n := by
  have bound := ofDigitChars_lt d.isDigit 0
  rwa [d.length, Nat.zero_add, Nat.one_mul] at bound

theorem exists_append {m : Nat} (d : Digits (n + m)) :
    ∃ (front : Digits n) (back : Digits m), d.text = front.text ++ back.text := by
  have long : n ≤ d.text.length := by
    rw [d.length]
    exact Nat.le_add_right n m
  have rest : (d.text.drop n).length = m := by
    rw [List.length_drop, d.length, Nat.add_sub_cancel_left]
  have digits := d.digits
  rw [← List.take_append_drop n d.text, List.all_append, Bool.and_eq_true] at digits
  exact ⟨⟨d.text.take n, List.length_take_of_le long, digits.1⟩, ⟨d.text.drop n, rest, digits.2⟩,
    (List.take_append_drop n d.text).symm⟩

theorem decimal?_text (some : 0 < n) : decimal? d.text = .some d.value := by
  have full : d.text ≠ [] := List.ne_nil_of_length_pos (by rw [d.length]; exact some)
  rw [decimal?, if_pos ⟨full, d.digits⟩]
  rfl

end Digits

theorem padded_digits (width n : Nat) : ∀ c ∈ padded width n, c.isDigit := by
  intro c member
  rcases List.mem_append.mp member with zero | digit
  · rw [List.eq_of_mem_replicate zero]
    decide
  · exact Nat.isDigit_of_mem_toDigits (by decide) (by decide) digit

theorem length_padded {width n : Nat} (some : 0 < width) (small : n < Nat.pow 10 width) :
    (padded width n).length = width := by
  have short := (Nat.length_toDigits_le_iff (b := 10) (by decide) some).mpr small
  simp only [padded, ofNat, List.length_append, List.length_replicate]
  omega

theorem ofDigitChars_padded (width n : Nat) : Nat.ofDigitChars 10 (padded width n) 0 = n := by
  have zeros : ∀ k, Nat.ofDigitChars 10 (List.replicate k '0') 0 = 0 := by
    intro k
    induction k with
    | zero => rfl
    | succ k ih => rw [List.replicate_succ, Nat.ofDigitChars_cons]; exact ih
  rw [padded, Nat.ofDigitChars_append, zeros]
  exact Nat.ofDigitChars_toDigits (by decide) (by decide)

theorem Digits.padded_value {n : Nat} (d : Digits n) (some : 0 < n) :
    padded n d.value = d.text := by
  have length := length_padded some d.value_lt
  exact (ofDigitChars_inj (length.trans d.length.symm) (padded_digits n d.value) d.isDigit
    (ofDigitChars_padded n d.value)).2

end WebArchive.Text
