import WebArchive.Proofs.Diagnostics
import WebArchive.Warc.Header

/-!
What a WARC header makes of a field and what it reports of it: both follow from the values of the
lines that have the name of the field, whatever lines are between them. Main facts:
`about_lineProblems`, and `Header.accounts_for_fields` over all the diagnostics of a header.
-/
namespace WebArchive.Warc

theorem Version.ofLine?_eq_none {line : Text} :
    ofLine? line = none ↔ Text.trim line ∉ ["WARC/1.0".toList, "WARC/1.1".toList] := by
  rw [ofLine?, List.find?_eq_none]
  simp [text, eq_comm]

namespace Field

/-- What a value of the field is. -/
def Value : Field → Type
  | .type => Text
  | .recordId | .targetUri | .concurrentTo => Uri
  | .date => Calendar.Instant
  | .contentLength => Nat
  | .contentType => ContentType
  | .address => Address
  | .blockDigest | .payloadDigest => DeclaredDigest

def parse? : (field : Field) → Text → Option field.Value
  | .type => some
  | .recordId | .concurrentTo => bracketedUri?
  | .date => Calendar.rfc3339?
  | .contentLength => Text.long?
  | .contentType => ContentType.parse?
  | .targetUri => targetUri?
  | .address => Address.parse?
  | .blockDigest | .payloadDigest => DeclaredDigest.parse?

theorem accepts_eq (field : Field) (t : Text) : field.accepts t = (field.parse? t).isSome := by
  cases field <;> rfl

/-- What is read of a field whose lines have these values, the first of which counts unless the
field may be repeated. -/
def readingsOf (field : Field) (values : List Text) : List field.Value :=
  if field.isRepeatable then values.filterMap field.parse?
  else ((values.head?.filter (· ≠ [])).bind field.parse?).toList

theorem name_injective : Function.Injective name := by
  intro field other same
  cases field <;> cases other <;> first | rfl | exact absurd same (by decide)

theorem name_ne_lineField (field : Field) : lineField ≠ field.name := by
  cases field <;> decide

theorem name_ne_versionField (field : Field) : versionField ≠ field.name := by
  cases field <;> decide

theorem lower_name_injective {field other : Field}
    (same : Text.lower field.name.toList = Text.lower other.name.toList) : field = other := by
  cases field <;> cases other <;> first | rfl | exact absurd same (by decide)

theorem ofName?_eq_some {name : Text} {field : Field} :
    ofName? name = some field ↔ Text.sameLetters name field.name.toList := by
  constructor
  · exact fun found => by simpa using List.find?_some found
  · intro same
    have listed : field ∈ all := by cases field <;> decide
    have found : (ofName? name).isSome := List.find?_isSome.mpr ⟨field, listed, same⟩
    obtain ⟨other, found⟩ := Option.isSome_iff_exists.mp found
    have named : Text.sameLetters name other.name.toList := by simpa using List.find?_some found
    simp only [Text.sameLetters, beq_iff_eq] at same named
    rw [found, lower_name_injective (named.symm.trans same)]

end Field

namespace HeaderLine

/-- The values of the lines with the name of the field, in any case, in their order. -/
def valuesOf (lines : List HeaderLine) (field : Field) : List Text :=
  lines.filterMap (valueNamed? field.name.toList)

/-- A line that is no field. -/
def other? : HeaderLine → Option Text
  | .other line => some line
  | .field .. => none

variable {line name value : Text} {rest : List HeaderLine}

@[simp] theorem valuesOf_other (field : Field) :
    valuesOf (.other line :: rest) field = valuesOf rest field := rfl

theorem valuesOf_field (field : Field) :
    valuesOf (.field name value :: rest) field =
      if Field.ofName? name = some field then value :: valuesOf rest field
      else valuesOf rest field := by
  simp only [valuesOf, List.filterMap_cons, valueNamed?, Field.ofName?_eq_some]
  split <;> simp_all

end HeaderLine

namespace Header
open HeaderLine (valuesOf)
open Diagnostics (Only about_append about_of_only only_invalid only_invalidIf only_missing only_nil)

variable {field : Field} {value : Text} {seen seen' : List Field}

theorem only_fieldProblems : Only field.name (fieldProblems seen field value) := by
  unfold fieldProblems
  split
  · exact only_invalidIf
  · split
    · exact only_invalid
    · split
      · split
        · exact only_missing
        · exact only_nil
      · exact only_invalidIf

theorem fieldProblems_seen (single : field.isRepeatable = false) (again : field ∈ seen) :
    fieldProblems seen field value = .invalid field.name value := by
  simp [fieldProblems, single, again]

/-- The fields seen before matter to a field only where it is one of them. -/
theorem fieldProblems_congr (same : field.isRepeatable = false → (field ∈ seen ↔ field ∈ seen')) :
    fieldProblems seen field value = fieldProblems seen' field value := by
  unfold fieldProblems
  split
  · rfl
  · rename_i single
    simp only [same (by simpa using single)]

/-- What is reported of a field that may come once: the first of its lines is judged by its value,
and every other one is reported. -/
def reports (field : Field) : List Text → Diagnostics
  | [] => []
  | first :: more => fieldProblems [] field first ++ more.flatMap (Diagnostics.invalid field.name)

theorem about_lineProblems (single : field.isRepeatable = false) (seen : List Field)
    (lines : List HeaderLine) :
    (lineProblems seen lines).about field.name =
      if field ∈ seen then (valuesOf lines field).flatMap (Diagnostics.invalid field.name)
      else reports field (valuesOf lines field) := by
  -- whatever was seen before the lines: one for another field adds to it and does not matter here
  induction lines generalizing seen with
  | nil => simp [lineProblems, valuesOf, reports, Diagnostics.about]
  | cons line rest ih =>
    cases line with
    | other line =>
      rw [lineProblems, about_append, about_of_only only_invalid,
        if_neg field.name_ne_lineField, ih, List.nil_append, HeaderLine.valuesOf_other]
    | field name value =>
      rw [HeaderLine.valuesOf_field]
      cases known : Field.ofName? name with
      | none => simp only [lineProblems, known, ih, reduceCtorEq, if_false]
      | some other =>
        simp only [lineProblems, known, about_append, about_of_only only_fieldProblems, ih,
          Option.some.injEq, List.mem_cons]
        by_cases same : other = field
        · subst same
          by_cases again : other ∈ seen
          · simp [again, fieldProblems_seen single again]
          · have fresh : fieldProblems seen other value = fieldProblems [] other value :=
              fieldProblems_congr fun _ => by simp [again]
            simp [again, fresh, reports]
        · have differ : other.name ≠ field.name := fun equal => same (Field.name_injective equal)
          simp [differ, same, Ne.symm same]

theorem about_absenceProblems (h : Header) (field : Field) :
    h.absenceProblems.about field.name =
      if field.isMandatory ∧ h.first field = none then Diagnostics.missing field.name else [] := by
  have only : ∀ other : Field,
      Only other.name (if (h.first other).isNone then Diagnostics.missing other.name else []) := by
    intro other
    split
    · exact only_missing
    · exact only_nil
  rw [absenceProblems, Diagnostics.about_flatMap Field.name_injective only (by decide)]
  simp only [Field.isMandatory, List.contains_iff_mem, Option.isNone_iff_eq_none]
  split <;> simp_all

theorem first_eq (h : Header) (field : Field) :
    h.first field = (valuesOf h.lines field).head? := by
  rw [valuesOf, List.head?_filterMap]
  rfl

/-- All that a header says of a field that may come once follows from the values of its lines. -/
theorem about_diagnostics (h : Header) (single : field.isRepeatable = false) :
    h.diagnostics.about field.name =
      reports field (valuesOf h.lines field) ++
        (if field.isMandatory ∧ valuesOf h.lines field = [] then Diagnostics.missing field.name
          else []) ++
        h.blockProblems.about field.name := by
  have version : h.versionProblem.about field.name = [] := by
    rw [versionProblem, about_of_only only_invalidIf, if_neg field.name_ne_versionField]
  simp only [diagnostics, about_append, version, about_lineProblems single, List.not_mem_nil,
    if_false, List.nil_append, about_absenceProblems, first_eq, List.head?_eq_none_iff]

/-! ### Counts -/

/-- What the header reads of a field: one value at most, unless the field may be repeated. -/
def readings (h : Header) : (field : Field) → List field.Value
  | .type => h.type.toList
  | .recordId => h.recordId.toList
  | .date => h.date.toList
  | .contentLength => h.contentLength.toList
  | .contentType => h.contentType.toList
  | .targetUri => h.targetUri.toList
  | .address => h.address.toList
  | .blockDigest => h.blockDigest.toList
  | .payloadDigest => h.payloadDigest.toList
  | .concurrentTo => h.concurrentTo

theorem readings_eq (h : Header) (field : Field) :
    h.readings field = field.readingsOf (valuesOf h.lines field) := by
  rw [Field.readingsOf, ← first_eq]
  cases field <;> rfl

/-- What a header reads and reports of a field that may come once, whose lines have these
values. -/
structure Accounts (h : Header) (field : Field) (values : List Text) : Prop where
  first : h.first field = values.head?
  value : h.readings field = ((values.head?.filter (· ≠ [])).bind field.parse?).toList
  invalid : h.diagnostics.count .invalid field.name = (values.length - 1) +
    if values.head?.any fun first => first ≠ [] && (field.parse? first).isNone then 1 else 0
  missing : h.diagnostics.count .missing field.name =
    if field.isMandatory && values.head?.all (· = []) then 1 else 0

/-- The first line of a field is reported at most once, for its value alone. -/
theorem countP_first (single : field.isRepeatable = false) (kind : Diagnostic.Kind) :
    (fieldProblems [] field value).countP (·.kind = kind) =
      if (match kind with
        | .missing => field.isMandatory && value = []
        | .invalid => value ≠ [] && (field.parse? value).isNone) then 1 else 0 := by
  simp only [fieldProblems, single, List.not_mem_nil, if_false, Bool.false_eq_true,
    Field.accepts_eq, Option.not_isSome]
  by_cases empty : value = []
  · by_cases mandatory : field.isMandatory <;> cases kind <;>
      simp [empty, mandatory, Diagnostics.missing]
  · cases field.parse? value <;> cases kind <;>
      simp [empty, Diagnostics.invalidIf, Diagnostics.invalid]

theorem countP_repeats (kind : Diagnostic.Kind) (values : List Text) :
    (values.flatMap (Diagnostics.invalid field.name)).countP (·.kind = kind) =
      if kind = .invalid then values.length else 0 := by
  induction values with
  | nil => simp
  | cons value rest ih =>
    rw [List.flatMap_cons, List.countP_append, ih]
    cases kind <;> simp [Diagnostics.invalid, Nat.add_comm]

theorem count_diagnostics (h : Header) (silent : h.blockProblems = [])
    (single : field.isRepeatable = false) (kind : Diagnostic.Kind) :
    h.diagnostics.count kind field.name =
      match valuesOf h.lines field with
      | [] => if kind = .missing ∧ field.isMandatory then 1 else 0
      | first :: more =>
        (fieldProblems [] field first).countP (·.kind = kind) +
          if kind = .invalid then more.length else 0 := by
  rw [Diagnostics.count_eq, h.about_diagnostics single, silent]
  cases valuesOf h.lines field with
  | nil =>
    by_cases mandatory : field.isMandatory <;> cases kind <;>
      simp [reports, mandatory, Diagnostics.about, Diagnostics.missing]
  | cons first more => simp [reports, countP_repeats, Diagnostics.about]

theorem accounts (h : Header) (silent : h.blockProblems = [])
    (single : field.isRepeatable = false) : h.Accounts field (valuesOf h.lines field) := by
  have count := h.count_diagnostics silent single
  have value := h.readings_eq field
  rw [Field.readingsOf, if_neg (by simp [single])] at value
  refine ⟨h.first_eq field, value, ?_, ?_⟩ <;> rw [count] <;>
    cases valuesOf h.lines field with
    | nil => simp
    | cons first more => simp [countP_first single, Nat.add_comm]

/-! ### The other reports -/

theorem field_of_mem_lineProblems {lines : List HeaderLine} {d : Diagnostic}
    (member : d ∈ lineProblems seen lines) :
    d.field = lineField ∨ ∃ field : Field, d.field = field.name := by
  induction lines generalizing seen with
  | nil => simp [lineProblems] at member
  | cons line rest ih =>
    cases line with
    | other line =>
      rcases List.mem_append.mp member with here | later
      · exact .inl (only_invalid d here)
      · exact ih later
    | field name value =>
      rw [lineProblems] at member
      cases known : Field.ofName? name with
      | none => exact ih (by simpa only [known] using member)
      | some field =>
        simp only [known, List.mem_append] at member
        rcases member with here | later
        · exact .inr ⟨field, only_fieldProblems d here⟩
        · exact ih later

theorem field_of_mem_absenceProblems {h : Header} {d : Diagnostic}
    (member : d ∈ h.absenceProblems) : ∃ field : Field, d.field = field.name := by
  obtain ⟨field, _, member⟩ := List.mem_flatMap.mp member
  split at member
  · exact ⟨field, only_missing d member⟩
  · cases member

/-- What is missing are fields. -/
theorem about_absenceProblems_other (h : Header) {name : String}
    (other : ∀ field : Field, name ≠ field.name) : h.absenceProblems.about name = [] := by
  refine Diagnostics.about_eq_nil fun d member equal => ?_
  obtain ⟨field, named⟩ := field_of_mem_absenceProblems member
  exact other field (equal.symm.trans named)

theorem about_line_lineProblems (seen : List Field) (lines : List HeaderLine) :
    (lineProblems seen lines).about lineField =
      (lines.filterMap HeaderLine.other?).map fun line => ⟨.invalid, lineField, some line⟩ := by
  induction lines generalizing seen with
  | nil => rfl
  | cons line rest ih =>
    cases line with
    | other line =>
      rw [lineProblems, about_append, about_of_only only_invalid, if_pos rfl, ih]
      rfl
    | field name value =>
      have field : (HeaderLine.field name value).other? = none := rfl
      rw [List.filterMap_cons_none field, lineProblems]
      cases known : Field.ofName? name with
      | none => exact ih seen
      | some field =>
        rw [about_append, about_of_only only_fieldProblems,
          if_neg field.name_ne_lineField.symm, List.nil_append]
        exact ih (field :: seen)

theorem about_lineField (h : Header) (silent : h.blockProblems = []) :
    h.diagnostics.about lineField =
      (h.lines.filterMap HeaderLine.other?).map fun line => ⟨.invalid, lineField, some line⟩ := by
  have version : h.versionProblem.about lineField = [] := by
    rw [versionProblem, about_of_only only_invalidIf, if_neg (by decide)]
  rw [diagnostics, silent, List.append_nil, about_append, about_append, version,
    h.about_absenceProblems_other Field.name_ne_lineField, about_line_lineProblems,
    List.nil_append, List.append_nil]

theorem about_versionField (h : Header) (silent : h.blockProblems = []) :
    h.diagnostics.about versionField =
      if Text.trim h.versionLine ∈ ["WARC/1.0".toList, "WARC/1.1".toList] then []
      else [⟨.invalid, versionField, some h.versionLine⟩] := by
  have lines : (lineProblems [] h.lines).about versionField = [] := by
    refine Diagnostics.about_eq_nil fun d member equal => ?_
    rcases field_of_mem_lineProblems member with named | ⟨field, named⟩
    · exact absurd (equal.symm.trans named) (by decide)
    · exact field.name_ne_versionField (equal.symm.trans named)
  rw [diagnostics, silent, about_append, about_append, about_append, lines,
    h.about_absenceProblems_other Field.name_ne_versionField, versionProblem,
    about_of_only only_invalidIf, if_pos rfl]
  split
  · rename_i known
    have some : h.version.isNone = false := by
      rw [version, Option.isNone_eq_false_iff, Option.isSome_iff_ne_none]
      exact fun none => Version.ofLine?_eq_none.mp none known
    rw [some]
    rfl
  · rename_i unknown
    have none : h.version = none := Version.ofLine?_eq_none.mpr unknown
    rw [none]
    rfl

theorem field_of_mem_diagnostics {h : Header} {d : Diagnostic} (silent : h.blockProblems = [])
    (member : d ∈ h.diagnostics) :
    d.field = versionField ∨ d.field = lineField ∨ ∃ field : Field, d.field = field.name := by
  simp only [diagnostics, silent, List.append_nil, List.mem_append] at member
  rcases member with (version | inLines) | absent
  · exact .inl (only_invalidIf d version)
  · exact .inr (field_of_mem_lineProblems inLines)
  · exact .inr (.inr (field_of_mem_absenceProblems absent))

/-- Every field that may come once has its own account. Beside these fields, a header reports each
line that is no field, a version that is not known, and values of the field that may be repeated;
nothing else. -/
theorem accounts_for_fields (versionLine : Text) (lines : List Text) (startOffset : Option Nat) :
    let h := parse versionLine lines startOffset
    (∀ field : Field, field.isRepeatable = false → h.Accounts field (valuesOf h.lines field)) ∧
    h.diagnostics.about lineField =
      (h.lines.filterMap HeaderLine.other?).map (fun line => ⟨.invalid, lineField, some line⟩) ∧
    h.diagnostics.about versionField =
      (if Text.trim versionLine ∈ ["WARC/1.0".toList, "WARC/1.1".toList] then []
        else [⟨.invalid, versionField, some versionLine⟩]) ∧
    ∀ d ∈ h.diagnostics,
      d.field = versionField ∨ d.field = lineField ∨ ∃ field : Field, d.field = field.name := by
  intro h
  have silent : h.blockProblems = [] := rfl
  exact ⟨fun field single => h.accounts silent single, h.about_lineField silent,
    h.about_versionField silent, fun d member => field_of_mem_diagnostics silent member⟩

/-- Only the first of two lengths counts. It cannot be read, and the second one is not read in its
place. -/
theorem accounts_for_fields_repeated :
    let h := parse "WARC/0.9".toList
      ["content-length: x".toList, "garbage".toList, "CONTENT-LENGTH: 7".toList] none
    Field.isRepeatable .contentLength = false ∧
    h.diagnostics.count .invalid "Content-Length" = 2 ∧
    h.diagnostics.count .missing "Content-Length" = 0 ∧ h.contentLength = none ∧
    h.diagnostics.about lineField = [⟨.invalid, lineField, some "garbage".toList⟩] := by
  intro h
  obtain ⟨fields, lines, _⟩ := accounts_for_fields "WARC/0.9".toList
    ["content-length: x".toList, "garbage".toList, "CONTENT-LENGTH: 7".toList] none
  have length := fields .contentLength rfl
  refine ⟨rfl, length.invalid.trans (by decide), length.missing.trans (by decide), ?_,
    lines.trans (by decide)⟩
  exact Option.toList_eq_nil_iff.mp (length.value.trans rfl)

end Header
end WebArchive.Warc
