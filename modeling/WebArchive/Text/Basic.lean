/-!
Header text, kept as the list of its characters. Letters and digits are the ASCII ones, as the
formats define them. Main facts: splitting at a separator loses nothing (`join_split`) and
leaves no separator in a piece (`not_mem_of_mem_split`).
-/
namespace WebArchive

abbrev Text := List Char

namespace Text

/-- ASCII letters become small letters, all else stays. -/
def lower (t : Text) : Text := t.map Char.toLower

def sameLetters (a b : Text) : Bool := lower a == lower b

/-- The pieces between separators: one more than there are separators. -/
def split (sep : Char) : Text → List Text
  | [] => [[]]
  | c :: cs =>
    if c = sep then [] :: split sep cs
    else match split sep cs with
      | [] => [[c]]
      | piece :: pieces => (c :: piece) :: pieces

def join (sep : Char) : List Text → Text
  | [] => []
  | [piece] => piece
  | piece :: pieces => piece ++ sep :: join sep pieces

def cut (sep : Char) : Text → Option (Text × Text)
  | [] => none
  | c :: cs =>
    if c = sep then some ([], cs)
    else (cut sep cs).map fun (before, after) => (c :: before, after)

theorem split_ne_nil (sep : Char) (t : Text) : split sep t ≠ [] := by
  cases t with
  | nil => simp [split]
  | cons c cs =>
    by_cases h : c = sep
    · simp [split, h]
    · cases hs : split sep cs <;> simp [split, h, hs]

theorem join_split (sep : Char) (t : Text) : join sep (split sep t) = t := by
  induction t with
  | nil => rfl
  | cons c cs ih =>
    cases hs : split sep cs with
    | nil => exact absurd hs (split_ne_nil sep cs)
    | cons piece pieces =>
      rw [hs] at ih
      by_cases h : c = sep
      · simp [split, h, hs, join, ih]
      · cases pieces <;> simp_all [split, join]

theorem not_mem_of_mem_split {sep : Char} {t piece : Text} (h : piece ∈ split sep t) :
    sep ∉ piece := by
  induction t generalizing piece with
  | nil => simp_all [split]
  | cons c cs ih =>
    by_cases hc : c = sep
    · simp only [split, hc, if_true, List.mem_cons] at h
      rcases h with rfl | h
      · simp
      · exact ih h
    · cases hs : split sep cs with
      | nil => exact absurd hs (split_ne_nil sep cs)
      | cons first rest =>
        simp only [split, hc, if_false, hs, List.mem_cons] at h
        rw [hs] at ih
        rcases h with rfl | h
        · intro member
          rcases List.mem_cons.mp member with rfl | member
          · exact hc rfl
          · exact ih List.mem_cons_self member
        · exact ih (List.mem_cons_of_mem _ h)

theorem cut_eq_some {sep : Char} {t before after : Text} (h : cut sep t = some (before, after)) :
    t = before ++ sep :: after ∧ sep ∉ before := by
  induction t generalizing before after with
  | nil => simp [cut] at h
  | cons c cs ih =>
    by_cases hc : c = sep
    · simp only [cut, hc, if_true, Option.some.injEq, Prod.mk.injEq] at h
      obtain ⟨rfl, rfl⟩ := h
      simp [hc]
    · simp only [cut, hc, if_false, Option.map_eq_some_iff, Prod.exists, Prod.mk.injEq] at h
      obtain ⟨front, back, found, rfl, rfl⟩ := h
      obtain ⟨rfl, absent⟩ := ih found
      exact ⟨rfl, by simp [absent, Ne.symm hc]⟩

end Text
end WebArchive
