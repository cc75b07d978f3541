import WebArchive.Text.Encoding

/-!
A front of some bytes, and the text it is read as. If both are UTF-8 or neither is, the text of the
front is a front of the text (`ofLineBytes_isPrefix`). Otherwise it is one only if the front is
ASCII, save for a text that is its own Windows-1252 misreading for a while (`alike_of_isPrefix`).
-/
namespace WebArchive.Text

def IsUtf8 (bs : Bytes) : Prop := (utf8? bs).isSome

instance (bs : Bytes) : Decidable (IsUtf8 bs) :=
  inferInstanceAs (Decidable ((utf8? bs).isSome = true))

def IsAscii (bs : Bytes) : Prop := ∀ b ∈ bs, b < 0x80

/-! ### Scalars -/

theorem scalarsFrom_between (b : UInt8) (bs : Bytes) :
    scalarsFrom none (b :: bs) =
      match lead b with
      | .char c => some c :: scalarsFrom none bs
      | .sequence p => scalarsFrom (some p) bs
      | .invalid => none :: scalarsFrom none bs := by
  simp only [scalarsFrom]
  cases lead b <;> rfl

theorem scalarsFrom_within (p : Pending) (b : UInt8) (bs : Bytes) :
    scalarsFrom (some p) (b :: bs) =
      if p.low ≤ b ∧ b ≤ p.high then
        if p.left ≤ 1 then
          some (Char.ofNat (p.value * 64 + (b.toNat - 0x80))) :: scalarsFrom none bs
        else
          scalarsFrom (some ⟨p.left - 1, 0x80, 0xBF, p.value * 64 + (b.toNat - 0x80)⟩) bs
      else none :: scalarsFrom none (b :: bs) := by
  simp only [scalarsFrom]
  cases lead b <;> rfl

/-- Bytes whose scalars are all characters end between two characters. -/
theorem scalarsFrom_append {state : Option Pending} {a : Bytes}
    (whole : none ∉ scalarsFrom state a) (b : Bytes) :
    scalarsFrom state (a ++ b) = scalarsFrom state a ++ scalars b := by
  induction a generalizing state with
  | nil =>
    cases state with
    | none => rfl
    | some p => exact absurd List.mem_cons_self whole
  | cons byte a ih =>
    cases state with
    | none =>
      rw [scalarsFrom_between] at whole ⊢
      rw [List.cons_append, scalarsFrom_between]
      cases found : lead byte with
      | char c =>
        simp only [found, List.mem_cons, not_or] at whole ⊢
        rw [ih whole.2, List.cons_append]
      | sequence p =>
        simp only [found] at whole ⊢
        exact ih whole
      | invalid => simp [found] at whole
    | some p =>
      rw [scalarsFrom_within] at whole ⊢
      rw [List.cons_append, scalarsFrom_within]
      split at whole <;> rename_i inside
      · simp only [if_pos inside]
        split at whole <;> rename_i last
        · simp only [if_pos last, List.cons_append]
          simp only [List.mem_cons, not_or] at whole
          rw [ih whole.2]
        · simp only [if_neg last]
          exact ih whole
      · exact absurd List.mem_cons_self whole

theorem utf8?_eq_some {bs : Bytes} {t : Text} : utf8? bs = some t ↔ scalars bs = t.map some := by
  unfold utf8?
  generalize scalars bs = found
  induction found generalizing t with
  | nil => cases t <;> simp
  | cons c found ih =>
    cases t with
    | nil => cases c <;> simp [List.mapM_cons, Option.bind_eq_some_iff]
    | cons d t =>
      cases c with
      | none => simp [List.mapM_cons]
      | some c =>
        rw [List.map_cons, List.cons_eq_cons, ← ih]
        cases rest : found.mapM id <;> simp [List.mapM_cons, rest]

theorem utf8?_append {a b : Bytes} {t : Text} (front : utf8? a = some t) :
    utf8? (a ++ b) = (utf8? b).map (t ++ ·) := by
  have found : scalarsFrom none a = t.map some := utf8?_eq_some.mp front
  have split : scalars (a ++ b) = t.map some ++ scalars b := by
    rw [← found]
    exact scalarsFrom_append (by simp [found]) b
  cases rest : utf8? b with
  | some u =>
    rw [Option.map_some, utf8?_eq_some, split, utf8?_eq_some.mp rest, List.map_append]
  | none =>
    rw [Option.map_none, Option.eq_none_iff_forall_ne_some]
    intro u whole
    rw [utf8?_eq_some, split] at whole
    obtain ⟨u₁, u₂, _, _, behind⟩ := List.map_eq_append_iff.mp whole.symm
    rw [utf8?_eq_some.mpr behind.symm] at rest
    cases rest

/-! ### Fronts -/

theorem ofLineBytes_of_utf8 {bs : Bytes} {t : Text} (whole : utf8? bs = some t) :
    ofLineBytes bs = t := by
  rw [ofLineBytes, whole, Option.getD_some]

theorem ofLineBytes_of_not {bs : Bytes} (broken : ¬ IsUtf8 bs) :
    ofLineBytes bs = windows1252 bs := by
  rw [ofLineBytes, Option.not_isSome_iff_eq_none.mp broken, Option.getD_none]

theorem IsAscii.lead {b : UInt8} (small : b < 0x80) : lead b = .char (Char.ofNat b.toNat) := by
  rw [Text.lead, if_pos small]

/-- ASCII is read in the same way as UTF-8 and as Windows-1252. -/
theorem IsAscii.scalars_append {a : Bytes} (small : IsAscii a) (b : Bytes) :
    scalars (a ++ b) = (windows1252 a).map some ++ scalars b := by
  induction a with
  | nil => rfl
  | cons byte a ih =>
    have low : byte < 0x80 := small byte List.mem_cons_self
    have high : ¬ (0x80 ≤ byte ∧ byte < 0xA0) := fun h => absurd low (UInt8.not_lt.mpr h.1)
    have rest := ih fun c member => small c (List.mem_cons_of_mem _ member)
    rw [List.cons_append, scalars, scalarsFrom_between, IsAscii.lead low]
    simp only [windows1252, List.map_cons, if_neg high, List.cons_append]
    exact congrArg _ rest

theorem IsAscii.utf8?_eq {a : Bytes} (small : IsAscii a) : utf8? a = some (windows1252 a) := by
  rw [utf8?_eq_some]
  have whole := small.scalars_append []
  rwa [List.append_nil, show scalars [] = [] from rfl, List.append_nil] at whole

theorem windows1252_isPrefix {p q : Bytes} (front : p <+: q) : windows1252 p <+: windows1252 q :=
  front.map _

theorem utf8?_isPrefix {p q : Bytes} {t u : Text} (front : p <+: q) (ht : utf8? p = some t)
    (hu : utf8? q = some u) : t <+: u := by
  obtain ⟨rest, rfl⟩ := front
  rw [utf8?_append ht, Option.map_eq_some_iff] at hu
  obtain ⟨v, _, rfl⟩ := hu
  exact List.prefix_append ..

theorem ofLineBytes_isPrefix {p q : Bytes} (front : p <+: q)
    (alike : (IsUtf8 p ↔ IsUtf8 q) ∨ IsAscii p) : ofLineBytes p <+: ofLineBytes q := by
  by_cases whole : IsUtf8 q
  · obtain ⟨u, hu⟩ := Option.isSome_iff_exists.mp whole
    have part : IsUtf8 p := by
      rcases alike with same | small
      · exact same.mpr whole
      · exact Option.isSome_iff_exists.mpr ⟨_, small.utf8?_eq⟩
    obtain ⟨t, ht⟩ := Option.isSome_iff_exists.mp part
    rw [ofLineBytes_of_utf8 ht, ofLineBytes_of_utf8 hu]
    exact utf8?_isPrefix front ht hu
  · have same : ofLineBytes p = windows1252 p := by
      rcases alike with same | small
      · exact ofLineBytes_of_not fun part => whole (same.mp part)
      · exact ofLineBytes_of_utf8 small.utf8?_eq
    rw [same, ofLineBytes_of_not whole]
    exact windows1252_isPrefix front

/-! ### Another decoding -/

/-- The first character past ASCII is `Ã`. Its first byte is also `Ã` in Windows-1252. -/
def IsDoubled (bs : Bytes) : Prop :=
  ∃ front rest, bs = front ++ 0xC3 :: 0x83 :: rest ∧ IsAscii front

/-- The character of a sequence that goes on is as large as the bits read so far make it. -/
theorem head_scalarsFrom {p : Pending} {bs : Bytes} (whole : none ∉ scalarsFrom (some p) bs) :
    ∃ value rest, p.value * 64 ≤ value ∧
      scalarsFrom (some p) bs = some (Char.ofNat value) :: rest := by
  induction bs generalizing p with
  | nil => exact absurd List.mem_cons_self whole
  | cons b bs ih =>
    rw [scalarsFrom_within] at whole ⊢
    split at whole <;> rename_i inside
    · rw [if_pos inside]
      split at whole <;> rename_i last
      · rw [if_pos last]
        exact ⟨_, _, Nat.le_add_right .., rfl⟩
      · rw [if_neg last]
        obtain ⟨value, rest, least, same⟩ := ih whole
        exact ⟨value, rest, by simp only at least; omega, same⟩
    · exact absurd List.mem_cons_self whole

theorem windows1252_high {b : UInt8} (high : 0xC2 ≤ b) :
    windows1252 [b] = [Char.ofNat b.toNat] := by
  have far : ¬ (0x80 ≤ b ∧ b < 0xA0) := by
    simp only [UInt8.le_iff_toNat_le, UInt8.lt_iff_toNat_lt, UInt8.reduceToNat] at high ⊢
    omega
  rw [windows1252, List.map_singleton, if_neg far]

theorem eq_of_toNat_ofNat {n m : Nat} (same : (Char.ofNat n).toNat = m) (positive : m ≠ 0) :
    n = m := by
  by_cases valid : n.isValidChar
  · rw [Char.ofNat, dif_pos valid] at same
    exact same
  · rw [Char.ofNat, dif_neg valid] at same
    exact absurd same.symm positive

/-- A sequence has two bytes, or its second byte makes its character too large for a single one. -/
theorem lead_sequence {b : UInt8} {p : Pending} (begun : lead b = .sequence p) :
    0xC2 ≤ b ∧ (p = ⟨1, 0x80, 0xBF, b.toNat - 0xC0⟩ ∨
      1 < p.left ∧ ∀ b₁, p.low ≤ b₁ → 16 ≤ p.value * 64 + (b₁.toNat - 0x80)) := by
  unfold lead at begun
  split at begun
  · cases begun
  split at begun
  · cases begun
  rename_i least
  refine ⟨UInt8.not_lt.mp least, ?_⟩
  split at begun
  · cases begun
    exact Or.inl rfl
  rename_i three
  split at begun
  · cases begun
    refine Or.inr ⟨by simp, fun b₁ low => ?_⟩
    simp only at low ⊢
    split at low <;>
      simp only [UInt8.le_iff_toNat_le, UInt8.lt_iff_toNat_lt, UInt8.reduceToNat,
        ← UInt8.toNat_inj] at * <;> omega
  split at begun
  · rename_i four _
    cases begun
    refine Or.inr ⟨by simp, fun b₁ low => ?_⟩
    simp only at low ⊢
    split at low <;>
      simp only [UInt8.le_iff_toNat_le, UInt8.lt_iff_toNat_lt, UInt8.reduceToNat,
        ← UInt8.toNat_inj] at * <;> omega
  · cases begun

/-- A character of three or more bytes is none that Windows-1252 reads the first one as. -/
theorem toNat_ne_of_long {p : Pending} {b b₁ : UInt8} {r : Bytes} {c : Char}
    {rest : List (Option Char)} (long : 1 < p.left)
    (large : p.low ≤ b₁ → 16 ≤ p.value * 64 + (b₁.toNat - 0x80)) (positive : b.toNat ≠ 0)
    (whole : none ∉ scalarsFrom (some p) (b₁ :: r))
    (found : scalarsFrom (some p) (b₁ :: r) = some c :: rest) : c.toNat ≠ b.toNat := by
  rw [scalarsFrom_within] at whole found
  split at whole <;> rename_i inside
  · rw [if_neg (Nat.not_le.mpr long)] at whole
    rw [if_pos inside, if_neg (Nat.not_le.mpr long)] at found
    obtain ⟨value, behind, least, same⟩ := head_scalarsFrom whole
    have big := large inside.1
    have bound := b.toNat_lt
    rw [same, List.cons_eq_cons, Option.some.injEq] at found
    intro size
    have exactly := eq_of_toNat_ofNat (found.1 ▸ size) positive
    simp only at least
    omega
  · exact absurd List.mem_cons_self whole

theorem doubled_of_head {b : UInt8} {r : Bytes} {c : Char} {rest : List (Option Char)}
    (high : 0x80 ≤ b) (whole : none ∉ scalars (b :: r)) (found : scalars (b :: r) = some c :: rest)
    (same : windows1252 [b] = [c]) : b = 0xC3 ∧ ∃ more, r = 0x83 :: more := by
  rw [scalars, scalarsFrom_between] at whole found
  cases begun : lead b with
  | char c =>
    have low : ¬ b < 0x80 := UInt8.not_lt.mpr high
    rw [lead, if_neg low] at begun
    repeat' split at begun
    all_goals cases begun
  | invalid => simp [begun] at whole
  | sequence p =>
    simp only [begun] at whole found
    obtain ⟨least, short⟩ := lead_sequence begun
    rw [windows1252_high least, List.cons_eq_cons] at same
    have size : c.toNat = b.toNat := by rw [← same.1, toNat_ofNat_byte]
    simp only [UInt8.le_iff_toNat_le, UInt8.reduceToNat] at least
    cases r with
    | nil => exact absurd List.mem_cons_self whole
    | cons b₁ r =>
      rcases short with rfl | ⟨long, large⟩
      · rw [scalarsFrom_within] at whole found
        split at whole <;> rename_i inside
        · rw [if_pos inside, if_pos (Nat.le_refl 1), List.cons_eq_cons, Option.some.injEq] at found
          simp only [UInt8.le_iff_toNat_le, UInt8.reduceToNat] at inside
          have bound := b.toNat_lt
          -- the bits of the two bytes make up the first byte again
          have value : (b.toNat - 0xC0) * 64 + (b₁.toNat - 0x80) = b.toNat :=
            eq_of_toNat_ofNat (found.1 ▸ size) (by omega)
          refine ⟨UInt8.toNat_inj.mp ?_, r, ?_⟩
          · simp only [UInt8.reduceToNat]
            omega
          · rw [List.cons_eq_cons, ← UInt8.toNat_inj]
            simp only [UInt8.reduceToNat, and_true]
            omega
        · exact absurd List.mem_cons_self whole
      · exact absurd size (toNat_ne_of_long long (large b₁) (by omega) whole found)

theorem exists_head {b : UInt8} {r : Bytes} (whole : none ∉ scalars (b :: r)) :
    ∃ c rest, scalars (b :: r) = some c :: rest := by
  rw [scalars, scalarsFrom_between] at whole ⊢
  cases begun : lead b with
  | char c => exact ⟨c, _, rfl⟩
  | sequence p =>
    simp only [begun] at whole ⊢
    obtain ⟨value, rest, _, same⟩ := head_scalarsFrom whole
    exact ⟨_, rest, same⟩
  | invalid => simp [begun] at whole

theorem exists_past_ascii {p : Bytes} (h : ¬ IsAscii p) :
    ∃ front b rest, p = front ++ b :: rest ∧ IsAscii front ∧ 0x80 ≤ b := by
  induction p with
  | nil => exact absurd (by simp [IsAscii]) h
  | cons b p ih =>
    by_cases low : b < 0x80
    · have more : ¬ IsAscii p := fun all => h fun c member => by
        rcases List.mem_cons.mp member with rfl | member
        · exact low
        · exact all c member
      obtain ⟨front, c, rest, rfl, small, high⟩ := ih more
      refine ⟨b :: front, c, rest, rfl, fun d member => ?_, high⟩
      rcases List.mem_cons.mp member with rfl | member
      · exact low
      · exact small d member
    · exact ⟨[], b, p, rfl, by simp [IsAscii], UInt8.not_lt.mp low⟩

theorem ofLineBytes_eq_nil {bs : Bytes} : ofLineBytes bs = [] ↔ bs = [] := by
  constructor
  · intro none
    cases bs with
    | nil => rfl
    | cons b bs =>
      by_cases whole : IsUtf8 (b :: bs)
      · obtain ⟨t, ht⟩ := Option.isSome_iff_exists.mp whole
        rw [ofLineBytes_of_utf8 ht] at none
        subst none
        have found := utf8?_eq_some.mp ht
        obtain ⟨c, rest, head⟩ := exists_head (by rw [found]; simp)
        rw [head] at found
        cases found
      · rw [ofLineBytes_of_not whole] at none
        cases none
  · rintro rfl
    rfl

/-- UTF-8 with a character past ASCII that is what Windows-1252 reads its first byte as. -/
theorem doubled_of_utf8 {front rest : Bytes} {b : UInt8} {t : Text} (small : IsAscii front)
    (high : 0x80 ≤ b) (whole : utf8? (front ++ b :: rest) = some t) :
    ∃ c more, t = windows1252 front ++ c :: more ∧
      (windows1252 [b] = [c] → IsDoubled (front ++ b :: rest)) := by
  have found := utf8?_eq_some.mp whole
  rw [small.scalars_append] at found
  obtain ⟨t₁, t₂, rfl, same, behind⟩ := List.map_eq_append_iff.mp found.symm
  obtain rfl : t₁ = windows1252 front := (List.map_inj_right fun _ _ => Option.some.inj).mp same
  have clean : none ∉ scalars (b :: rest) := by simp [← behind]
  obtain ⟨c, others, head⟩ := exists_head clean
  rw [head] at behind
  obtain ⟨c', more, rfl, same, _⟩ := List.map_eq_cons_iff.mp behind
  obtain rfl := Option.some.inj same
  refine ⟨c', more, rfl, fun misread => ?_⟩
  obtain ⟨rfl, more, rfl⟩ := doubled_of_head high clean head misread
  exact ⟨front, more, rfl, small⟩

theorem windows1252_append_cons (a : Bytes) (b : UInt8) (r : Bytes) :
    ∃ w, windows1252 [b] = [w] ∧ windows1252 (a ++ b :: r) = windows1252 a ++ w :: windows1252 r :=
  ⟨_, rfl, by simp [windows1252]⟩

/-- The two readings of bytes that share a front agree past its ASCII only on doubled bytes. -/
theorem doubled_of_common {front rest rest' : Bytes} {b : UInt8} {t : Text} (small : IsAscii front)
    (high : 0x80 ≤ b) (whole : utf8? (front ++ b :: rest) = some t)
    (common : t <+: windows1252 (front ++ b :: rest') ∨ windows1252 (front ++ b :: rest') <+: t) :
    IsDoubled (front ++ b :: rest) := by
  obtain ⟨c, more, rfl, doubled⟩ := doubled_of_utf8 small high whole
  obtain ⟨w, misread, windows⟩ := windows1252_append_cons front b rest'
  rw [windows, List.prefix_append_right_inj, List.prefix_append_right_inj, List.cons_prefix_cons,
    List.cons_prefix_cons] at common
  apply doubled
  rcases common with ⟨rfl, _⟩ | ⟨rfl, _⟩
  · exact misread
  · exact misread

theorem IsDoubled.append {p : Bytes} (h : IsDoubled p) (rest : Bytes) : IsDoubled (p ++ rest) := by
  obtain ⟨front, more, rfl, small⟩ := h
  exact ⟨front, more ++ rest, by simp, small⟩

theorem alike_of_isPrefix {p q : Bytes} (front : p <+: q)
    (part : ofLineBytes p <+: ofLineBytes q) :
    (IsUtf8 p ↔ IsUtf8 q) ∨ IsAscii p ∨ IsDoubled q := by
  by_cases small : IsAscii p
  · exact Or.inr (Or.inl small)
  obtain ⟨rest, rfl⟩ := front
  obtain ⟨a, b, r, rfl, low, high⟩ := exists_past_ascii small
  by_cases wholeFront : IsUtf8 (a ++ b :: r) <;> by_cases whole : IsUtf8 (a ++ b :: r ++ rest)
  · exact Or.inl (iff_of_true wholeFront whole)
  · -- the front is UTF-8, and all of it is read as Windows-1252
    obtain ⟨t, ht⟩ := Option.isSome_iff_exists.mp wholeFront
    rw [ofLineBytes_of_utf8 ht, ofLineBytes_of_not whole, List.append_assoc,
      List.cons_append] at part
    exact Or.inr (Or.inr ((doubled_of_common low high ht (Or.inl part)).append rest))
  · obtain ⟨u, hu⟩ := Option.isSome_iff_exists.mp whole
    rw [ofLineBytes_of_utf8 hu, ofLineBytes_of_not wholeFront] at part
    rw [List.append_assoc, List.cons_append] at hu ⊢
    exact Or.inr (Or.inr (doubled_of_common low high hu (Or.inr part)))
  · exact Or.inl (iff_of_false wholeFront whole)

end WebArchive.Text
