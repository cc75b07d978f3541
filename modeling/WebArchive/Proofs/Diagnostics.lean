import WebArchive.Diagnostics

/-!
Diagnostics by the field they name. Reports on different fields do not touch each other, so what is
said of one field is found in the part of a header that reports on it. Main facts: `about_of_only`
and `about_flatMap`.
-/
namespace WebArchive.Diagnostics

/-- What is said of a field, in its order. -/
def about (ds : Diagnostics) (field : String) : Diagnostics := ds.filter (·.field = field)

/-- No other field is named. -/
def Only (field : String) (ds : Diagnostics) : Prop := ∀ d ∈ ds, d.field = field

variable {field other : String} {value : Text} {ds : Diagnostics}

@[simp] theorem about_append (first second : Diagnostics) (field : String) :
    about (first ++ second) field = about first field ++ about second field :=
  List.filter_append ..

theorem about_eq_nil (silent : ∀ d ∈ ds, d.field ≠ field) : about ds field = [] :=
  List.filter_eq_nil_iff.mpr fun d member => by simpa using silent d member

theorem about_of_only (only : Only field ds) (other : String) :
    about ds other = if field = other then ds else [] := by
  split
  · rename_i same
    subst same
    exact List.filter_eq_self.mpr fun d member => by simpa using only d member
  · rename_i differ
    exact about_eq_nil fun d member equal => differ ((only d member).symm.trans equal)

theorem only_nil : Only field [] := by simp [Only]

theorem only_missing : Only field (missing field) := by simp [Only, missing]

theorem only_invalid : Only field (invalid field value) := by simp [Only, invalid]

theorem only_invalidIf {condition : Bool} : Only field (invalidIf condition field value) := by
  unfold invalidIf
  split
  · exact only_invalid
  · exact only_nil

/-- The report of a check that was not passed. -/
theorem invalidIf_not (passed : Bool) (field : String) (value : Text) :
    invalidIf (!passed) field value = if passed then [] else [⟨.invalid, field, some value⟩] := by
  cases passed <;> rfl

/-- Where every item reports on the field it is named for, an item's own report is all that is said
of its field. -/
theorem about_flatMap {α : Type} [DecidableEq α] {name : α → String}
    (distinct : Function.Injective name) {report : α → Diagnostics}
    (only : ∀ item, Only (name item) (report item)) {items : List α} (nodup : items.Nodup)
    (item : α) :
    about (items.flatMap report) (name item) = if item ∈ items then report item else [] := by
  induction items with
  | nil => rfl
  | cons first rest ih =>
    obtain ⟨fresh, nodup⟩ := List.nodup_cons.mp nodup
    rw [List.flatMap_cons, about_append, about_of_only (only first), ih nodup]
    by_cases same : first = item
    · subst same
      simp [fresh]
    · have differ : name first ≠ name item := fun equal => same (distinct equal)
      simp [differ, Ne.symm same]

theorem count_eq (ds : Diagnostics) (kind : Diagnostic.Kind) (field : String) :
    ds.count kind field = (ds.about field).countP (·.kind = kind) := by
  simp only [count, about, List.countP_filter, Bool.decide_and]

end WebArchive.Diagnostics
