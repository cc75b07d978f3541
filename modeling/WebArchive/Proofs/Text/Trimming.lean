import WebArchive.Text.Blank

/-!
Text without white space around it. Trimming gives such text and leaves it alone, and pieces of it
that are joined are such text again. Main facts: `trim_of_trimmed`, `trimmed_join`.
-/
namespace WebArchive.Text

/-- No white space at either end. -/
structure Trimmed (t : Text) : Prop where
  first : ∀ c, t.head? = some c → isBlank c = false
  last : ∀ c, t.getLast? = some c → isBlank c = false

variable {t : Text}

theorem trimmed_nil : Trimmed [] := ⟨by simp, by simp⟩

theorem head?_dropWhile_isBlank (c : Char) (h : (t.dropWhile isBlank).head? = some c) :
    isBlank c = false := by
  have stopped := List.head?_dropWhile_not isBlank t
  rw [h] at stopped
  simpa using stopped

theorem trimEnd_isPrefix (t : Text) : trimEnd t <+: t := by
  rw [trimEnd, ← List.reverse_suffix, List.reverse_reverse]
  exact List.dropWhile_suffix isBlank

theorem trimmed_trim (t : Text) : Trimmed (trim t) where
  first c h := by
    obtain ⟨rest, same⟩ := trimEnd_isPrefix (trimStart t)
    apply head?_dropWhile_isBlank (t := t) c
    show (trimStart t).head? = some c
    rw [← same, List.head?_append]
    simp only [trim] at h
    simp [h]
  last c h := by
    rw [trim, trimEnd, List.getLast?_reverse] at h
    exact head?_dropWhile_isBlank c h

theorem eq_append_trimStart (t : Text) :
    ∃ front, (∀ c ∈ front, isBlank c) ∧ t = front ++ trimStart t :=
  ⟨t.takeWhile isBlank, List.all_eq_true.mp List.all_takeWhile,
    List.takeWhile_append_dropWhile.symm⟩

theorem eq_trimEnd_append (t : Text) :
    ∃ back, (∀ c ∈ back, isBlank c) ∧ t = trimEnd t ++ back := by
  obtain ⟨front, blank, same⟩ := eq_append_trimStart t.reverse
  refine ⟨front.reverse, fun c member => blank c (List.mem_reverse.mp member), ?_⟩
  have turned := congrArg List.reverse same
  rwa [List.reverse_reverse, List.reverse_append] at turned

theorem trimStart_append {front : Text} (blank : ∀ c ∈ front, isBlank c)
    (begun : ∀ c, t.head? = some c → isBlank c = false) : trimStart (front ++ t) = t := by
  rw [trimStart, List.dropWhile_append_of_pos blank]
  cases t with
  | nil => rfl
  | cons c rest => simp [begun c rfl]

theorem trimStart_of_begun (begun : ∀ c, t.head? = some c → isBlank c = false) :
    trimStart t = t := by
  have none : ∀ c ∈ ([] : Text), isBlank c := by simp
  exact trimStart_append none begun

theorem trimEnd_append {back : Text} (ended : ∀ c, t.getLast? = some c → isBlank c = false)
    (blank : ∀ c ∈ back, isBlank c) : trimEnd (t ++ back) = t := by
  have begun : ∀ c, t.reverse.head? = some c → isBlank c = false := by
    simpa only [List.head?_reverse] using ended
  rw [trimEnd, List.reverse_append]
  have trimmed := trimStart_append (fun c member => blank c (List.mem_reverse.mp member)) begun
  rw [trimStart] at trimmed
  rw [trimmed, List.reverse_reverse]

theorem trim_of_blank (blank : ∀ c ∈ t, isBlank c) : trim t = [] := by
  have none : trimStart (t ++ []) = [] := List.dropWhile_append_of_pos blank
  rw [List.append_nil] at none
  rw [trim, none]
  rfl

theorem eq_append_trim (t : Text) :
    ∃ front back, (∀ c ∈ front, isBlank c) ∧ (∀ c ∈ back, isBlank c) ∧
      t = front ++ trim t ++ back := by
  obtain ⟨front, blank, start⟩ := eq_append_trimStart t
  obtain ⟨back, blank', ended⟩ := eq_trimEnd_append (trimStart t)
  refine ⟨front, back, blank, blank', ?_⟩
  rw [trim, List.append_assoc, ← ended, ← start]

theorem trim_append {front back : Text} (blank : ∀ c ∈ front, isBlank c) (trimmed : Trimmed t)
    (blank' : ∀ c ∈ back, isBlank c) : trim (front ++ t ++ back) = t := by
  cases t with
  | nil =>
    rw [List.append_nil]
    exact trim_of_blank (List.forall_mem_append.mpr ⟨blank, blank'⟩)
  | cons c rest =>
    rw [trim, List.append_assoc, trimStart_append (t := c :: rest ++ back) blank trimmed.first]
    exact trimEnd_append trimmed.last blank'

theorem trim_of_trimmed (h : Trimmed t) : trim t = t := by
  have none : ∀ c ∈ ([] : Text), isBlank c := by simp
  have same := trim_append none h none
  rwa [List.nil_append, List.append_nil] at same

theorem trim_cons_blank {c : Char} (blank : isBlank c) (t : Text) : trim (c :: t) = trim t := by
  simp [trim, trimStart, blank]

/-- A text that may not be there, as good as none if nothing is in it. -/
theorem filter_ne_nil (t : Option Text) :
    t.filter (· ≠ []) = if t.getD [] = [] then none else some (t.getD []) := by
  rcases t with _ | t
  · rfl
  · by_cases blank : t = [] <;> simp [blank]

/-- White space is no letter. -/
theorem toLower_of_isBlank {c : Char} (blank : isBlank c) : c.toLower = c := by
  have other : ¬ (c.val ≥ 'A'.val ∧ c.val ≤ 'Z'.val) := by
    rintro ⟨low, high⟩
    have low : 65 ≤ c.toNat := UInt32.le_iff_toNat_le.mp low
    have high : c.toNat ≤ 90 := UInt32.le_iff_toNat_le.mp high
    simp only [isBlank, blankRanges, List.any_cons, List.any_nil, Bool.or_false, Bool.or_eq_true,
      Bool.and_eq_true, decide_eq_true_eq] at blank
    omega
  exact dif_neg other

theorem not_mem_trim {c : Char} (absent : c ∉ t) : c ∉ trim t := by
  intro member
  have inside := (trimEnd_isPrefix (trimStart t)).subset member
  exact absent ((List.dropWhile_suffix isBlank).subset inside)

theorem cut_append {sep : Char} {before : Text} (absent : sep ∉ before) (after : Text) :
    cut sep (before ++ sep :: after) = some (before, after) := by
  induction before with
  | nil => simp [cut]
  | cons c cs ih =>
    have other : c ≠ sep := fun same => absent (same ▸ List.mem_cons_self)
    have rest := ih fun member => absent (List.mem_cons_of_mem _ member)
    simp [cut, other, rest]

/-! ### Pieces -/

theorem cut_eq_none {sep : Char} : cut sep t = none ↔ sep ∉ t := by
  induction t with
  | nil => simp [cut]
  | cons c cs ih =>
    by_cases same : c = sep
    · simp [cut, same]
    · simp [cut, same, Ne.symm same, ih]

/-- A front without the separator, and a rest that begins with it if there is one. -/
theorem span_append {sep : Char} {front rest : Text} (absent : sep ∉ front)
    (next : ∀ c, rest.head? = some c → c = sep) :
    (front ++ rest).takeWhile (· ≠ sep) = front ∧ (front ++ rest).dropWhile (· ≠ sep) = rest := by
  have clean : ∀ c ∈ front, decide (c ≠ sep) := by
    intro c member
    refine decide_eq_true fun same => absent (same ▸ member)
  rw [List.takeWhile_append_of_pos clean, List.dropWhile_append_of_pos clean]
  cases rest with
  | nil => simp
  | cons c rest => simp [next c rfl]

theorem head?_dropWhile_ne (sep : Char) (t : Text) :
    ∀ c, (t.dropWhile (· ≠ sep)).head? = some c → c = sep := by
  intro c first
  have stopped := List.head?_dropWhile_not (· ≠ sep) t
  rw [first] at stopped
  simpa using stopped

theorem split_of_not_mem {sep : Char} (absent : sep ∉ t) : split sep t = [t] := by
  induction t with
  | nil => rfl
  | cons c cs ih =>
    have other : c ≠ sep := fun same => absent (same ▸ List.mem_cons_self)
    have rest := ih fun member => absent (List.mem_cons_of_mem _ member)
    simp [split, other, rest]

theorem split_append_cons {sep : Char} {before : Text} (absent : sep ∉ before) (after : Text) :
    split sep (before ++ sep :: after) = before :: split sep after := by
  induction before with
  | nil => simp [split]
  | cons c cs ih =>
    have other : c ≠ sep := fun same => absent (same ▸ List.mem_cons_self)
    have rest := ih fun member => absent (List.mem_cons_of_mem _ member)
    simp [split, other, rest]

/-! ### Joined pieces -/

theorem join_cons {sep : Char} {piece : Text} {pieces : List Text} (more : pieces ≠ []) :
    join sep (piece :: pieces) = piece ++ sep :: join sep pieces := by
  cases pieces with
  | nil => exact absurd rfl more
  | cons => rfl

theorem split_join {sep : Char} {pieces : List Text} (some : pieces ≠ [])
    (absent : ∀ piece ∈ pieces, sep ∉ piece) : split sep (join sep pieces) = pieces := by
  induction pieces with
  | nil => exact absurd rfl some
  | cons piece pieces ih =>
    have here := absent piece List.mem_cons_self
    by_cases more : pieces = []
    · subst more
      exact split_of_not_mem here
    · rw [join_cons more, split_append_cons here,
        ih more fun other member => absent other (List.mem_cons_of_mem _ member)]

theorem length_join (sep : Char) (pieces : List Text) :
    (join sep pieces).length = pieces.flatten.length + (pieces.length - 1) := by
  induction pieces with
  | nil => rfl
  | cons piece pieces ih =>
    by_cases more : pieces = []
    · subst more
      simp [join]
    · have some := List.length_pos_iff.mpr more
      rw [join_cons more, List.length_append, List.length_cons, ih, List.flatten_cons,
        List.length_append, List.length_cons]
      omega

theorem join_append_cons (sep : Char) (first second : Text) (pieces : List Text) :
    join sep ((first ++ sep :: second) :: pieces) = join sep (first :: second :: pieces) := by
  rw [join_cons (List.cons_ne_nil second pieces)]
  by_cases more : pieces = []
  · subst more
    rfl
  · rw [join_cons more, join_cons more, List.append_assoc, List.cons_append]

theorem join_ne_nil {sep : Char} {pieces : List Text} (some : pieces ≠ [])
    (full : [] ∉ pieces) : join sep pieces ≠ [] := by
  obtain ⟨piece, pieces, rfl⟩ := List.exists_cons_of_ne_nil some
  have first : piece ≠ [] := by
    rintro rfl
    exact full List.mem_cons_self
  by_cases more : pieces = []
  · subst more
    exact first
  · rw [join_cons more]
    exact List.append_ne_nil_of_left_ne_nil first _

theorem trimmed_join {sep : Char} {pieces : List Text} (trimmed : ∀ piece ∈ pieces, Trimmed piece)
    (full : [] ∉ pieces) : Trimmed (join sep pieces) := by
  induction pieces with
  | nil => exact trimmed_nil
  | cons piece pieces ih =>
    have front := trimmed piece List.mem_cons_self
    by_cases more : pieces = []
    · subst more
      exact front
    · have full' : [] ∉ pieces := fun none => full (List.mem_cons_of_mem _ none)
      have back := ih (fun p member => trimmed p (List.mem_cons_of_mem _ member)) full'
      rw [join_cons more]
      refine ⟨fun c first => front.first c ?_, fun c last => back.last c ?_⟩
      · obtain ⟨d, rest, rfl⟩ := List.exists_cons_of_ne_nil
          fun none : piece = [] => full (none ▸ List.mem_cons_self)
        exact first
      · have some : join sep pieces ≠ [] := join_ne_nil more full'
        have ended := List.getLast?_eq_some_getLast some
        rw [List.getLast?_append, List.getLast?_cons, ended] at last
        rw [ended]
        exact last

end WebArchive.Text
