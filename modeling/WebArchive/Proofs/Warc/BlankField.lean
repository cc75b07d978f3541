import WebArchive.Proofs.Warc.Fields
import WebArchive.Proofs.Warc.Folding

/-!
A line that gives an optional field an empty value, put into a WARC header block. Nothing that is
read of the header changes, and nothing is reported of the line, except if the field may be
repeated. Main fact: `Header.parse_insert`.
-/
namespace WebArchive.Warc

open HeaderLine (isContinuation valuesOf)

namespace HeaderLine
variable {front back : List Text}

/-- Lines that do not begin with a continuation are read on their own. -/
theorem ofLinesAfter_append (apart : ∀ line, back.head? = some line → isContinuation line = false)
    (current : HeaderLine) (front : List Text) :
    ofLinesAfter current (front ++ back) = ofLinesAfter current front ++ ofLines back := by
  induction front generalizing current with
  | nil =>
    cases back with
    | nil => rfl
    | cons line rest =>
      have begun := apart line rfl
      cases current with
      | other => rfl
      | field name value => simp [ofLinesAfter, begun, ofLines]
  | cons line rest ih =>
    cases current with
    | other text => simp only [List.cons_append, ofLinesAfter, ih]
    | field name value =>
      simp only [List.cons_append, ofLinesAfter]
      split <;> simp only [ih, List.cons_append]

theorem ofLines_append (apart : ∀ line, back.head? = some line → isContinuation line = false)
    (front : List Text) : ofLines (front ++ back) = ofLines front ++ ofLines back := by
  cases front with
  | nil => rfl
  | cons line rest => exact ofLinesAfter_append apart (parse line) rest

end HeaderLine

namespace Field
variable {field : Field} {name spaces : Text}

theorem black_of_mem_lower (field : Field) :
    ∀ c ∈ Text.lower field.name.toList, c ≠ ':' ∧ Text.isBlank c = false := by
  have all : (Text.lower field.name.toList).all (fun c => c ≠ ':' && !Text.isBlank c) := by
    cases field <;> decide
  simpa using all

/-- The name of a field in any case is the name of a header line. -/
theorem isField (named : Text.sameLetters name field.name.toList) :
    HeaderLine.IsField name [] := by
  have same : Text.lower name = Text.lower field.name.toList := by
    simpa [Text.sameLetters] using named
  have black : ∀ c ∈ name, c ≠ ':' ∧ Text.isBlank c = false := by
    intro c member
    have low := field.black_of_mem_lower c.toLower (same ▸ List.mem_map_of_mem member)
    refine ⟨?_, ?_⟩
    · rintro rfl
      exact low.1 rfl
    · rw [Bool.eq_false_iff]
      intro blank
      rw [Text.toLower_of_isBlank blank, blank] at low
      exact absurd low.2 (by decide)
  refine ⟨fun colon => (black _ colon).1 rfl, ?_, ⟨?_, ?_⟩, Text.trimmed_nil⟩
  · rintro rfl
    cases field <;> exact absurd same (by decide)
  · exact fun c first => (black c (List.mem_of_mem_head? first)).2
  · exact fun c last => (black c (List.mem_of_getLast? last)).2

theorem parse_blank (named : Text.sameLetters name field.name.toList)
    (blank : ∀ c ∈ spaces, Text.isBlank c) :
    HeaderLine.parse (name ++ ':' :: spaces) = .field name [] := by
  have known := isField named
  rw [HeaderLine.parse, Text.cut_append known.clean]
  simp only [Text.trim_of_trimmed known.name, if_neg known.some, Text.trim_of_blank blank]

/-- A line for the field without a value, put in front of no continuation, leaves all the others as
they are. -/
theorem ofLines_insert (named : Text.sameLetters name field.name.toList)
    (blank : ∀ c ∈ spaces, Text.isBlank c) (front : List Text) {back : List Text}
    (apart : ∀ line, back.head? = some line → isContinuation line = false) :
    HeaderLine.ofLines (front ++ (name ++ ':' :: spaces) :: back) =
      HeaderLine.ofLines front ++ .field name [] :: HeaderLine.ofLines back := by
  have single : HeaderLine.ofLines [name ++ ':' :: spaces] = [.field name []] := by
    rw [HeaderLine.ofLines, parse_blank named blank]
    rfl
  have begun : ∀ line, ((name ++ ':' :: spaces) :: back).head? = some line →
      isContinuation line = false := by
    rintro line ⟨⟩
    exact (isField named).not_continuation _
  have split := HeaderLine.ofLines_append apart [name ++ ':' :: spaces]
  rw [single] at split
  rw [HeaderLine.ofLines_append begun]
  exact congrArg _ split

theorem not_accepts_nil (repeatable : field.isRepeatable) : field.accepts [] = false := by
  cases field <;> first | exact absurd repeatable (by decide) | rfl

/-- An empty value is never read, neither as a further value nor as the only one. -/
theorem readingsOf_insert {before after : List Text}
    (free : field.isRepeatable ∨ before ++ after = []) :
    field.readingsOf (before ++ [] :: after) = field.readingsOf (before ++ after) := by
  unfold readingsOf
  by_cases repeatable : field.isRepeatable
  · have unread : field.parse? [] = none := by
      rw [← Option.not_isSome_iff_eq_none, ← accepts_eq, not_accepts_nil repeatable]
      decide
    rw [if_pos repeatable, if_pos repeatable, List.filterMap_append, List.filterMap_append,
      List.filterMap_cons_none unread]
  · obtain ⟨rfl, rfl⟩ := List.append_eq_nil_iff.mp (free.resolve_left repeatable)
    rw [if_neg repeatable, if_neg repeatable]
    rfl

end Field

namespace HeaderLine
variable {field : Field}

/-- The known fields that the lines are about. -/
def fieldsOf (lines : List HeaderLine) : List Field :=
  lines.filterMap fun
    | .field name _ => Field.ofName? name
    | .other _ => none

theorem valuesOf_append (front back : List HeaderLine) (field : Field) :
    valuesOf (front ++ back) field = valuesOf front field ++ valuesOf back field :=
  List.filterMap_append

theorem valuesOf_insert {name : Text} (known : Field.ofName? name = some field)
    (front back : List HeaderLine) (other : Field) :
    valuesOf (front ++ .field name [] :: back) other =
      valuesOf front other ++ (if other = field then [[]] else []) ++ valuesOf back other := by
  rw [valuesOf_append, valuesOf_field, known]
  by_cases same : other = field
  · subst same
    simp
  · simp [same, Ne.symm same]

theorem mem_fieldsOf {lines : List HeaderLine} :
    field ∈ fieldsOf lines ↔ valuesOf lines field ≠ [] := by
  induction lines with
  | nil => simp [fieldsOf, valuesOf]
  | cons line rest ih =>
    cases line with
    | other line => exact ih
    | field name value =>
      rw [valuesOf_field]
      by_cases same : Field.ofName? name = some field
      · simp [fieldsOf, same]
      · rw [if_neg same, ← ih]
        cases known : Field.ofName? name with
        | none => simp [fieldsOf, known]
        | some other =>
          have differ : field ≠ other := by
            rintro rfl
            exact same known
          simp [fieldsOf, known, differ]

end HeaderLine

namespace Header
open HeaderLine (fieldsOf mem_fieldsOf)

variable {field : Field} {seen seen' : List Field}

theorem lineProblems_congr {lines : List HeaderLine}
    (same : ∀ field ∈ fieldsOf lines, field.isRepeatable = false →
      (field ∈ seen ↔ field ∈ seen')) :
    lineProblems seen lines = lineProblems seen' lines := by
  induction lines generalizing seen seen' with
  | nil => rfl
  | cons line rest ih =>
    cases line with
    | other line => rw [lineProblems, lineProblems, ih same]
    | field name value =>
      cases known : Field.ofName? name with
      | none =>
        simp only [lineProblems, known]
        exact ih (by simpa [fieldsOf, known] using same)
      | some field =>
        simp only [fieldsOf, List.filterMap_cons, known, List.forall_mem_cons] at same
        simp only [lineProblems, known]
        rw [fieldProblems_congr same.1, ih]
        intro other member single
        simp only [List.mem_cons, same.2 other member single]

theorem lineProblems_append (seen : List Field) (front back : List HeaderLine) :
    lineProblems seen (front ++ back) =
      lineProblems seen front ++ lineProblems ((fieldsOf front).reverse ++ seen) back := by
  induction front generalizing seen with
  | nil => rfl
  | cons line rest ih =>
    cases line with
    | other line => simp [lineProblems, fieldsOf, ih]
    | field name value =>
      cases known : Field.ofName? name <;> simp [lineProblems, fieldsOf, known, ih]

theorem fieldProblems_blank (optional : field.isMandatory = false)
    (free : field.isRepeatable ∨ field ∉ seen) :
    fieldProblems seen field [] =
      if field.isRepeatable then Diagnostics.invalid field.name [] else [] := by
  by_cases repeatable : field.isRepeatable
  · simp [fieldProblems, repeatable, Field.not_accepts_nil repeatable, Diagnostics.invalidIf]
  · simp [fieldProblems, repeatable, optional, free.resolve_left repeatable]

variable {front back : List HeaderLine} {name : Text}

theorem lineProblems_insert (known : Field.ofName? name = some field)
    (optional : field.isMandatory = false)
    (free : field.isRepeatable ∨ valuesOf (front ++ back) field = []) :
    lineProblems [] (front ++ .field name [] :: back) =
      lineProblems [] front ++
        (if field.isRepeatable then Diagnostics.invalid field.name [] else []) ++
        lineProblems (fieldsOf front).reverse back := by
  have absent : field.isRepeatable ∨ field ∉ fieldsOf front ∧ field ∉ fieldsOf back := by
    refine free.imp_right fun none => ?_
    rw [HeaderLine.valuesOf_append] at none
    obtain ⟨before, after⟩ := List.append_eq_nil_iff.mp none
    exact ⟨fun member => mem_fieldsOf.mp member before, fun member => mem_fieldsOf.mp member after⟩
  have unseen : field.isRepeatable ∨ field ∉ (fieldsOf front).reverse :=
    absent.imp_right fun none => by simpa using none.1
  have later : lineProblems (field :: (fieldsOf front).reverse) back =
      lineProblems (fieldsOf front).reverse back := by
    refine lineProblems_congr fun other member single => ?_
    have differ : other ≠ field := by
      rintro rfl
      rcases absent with repeatable | none
      · simp [single] at repeatable
      · exact none.2 member
    simp [differ]
  rw [lineProblems_append, List.append_nil, lineProblems]
  simp only [known]
  rw [fieldProblems_blank optional unseen, later, List.append_assoc]

/-! ### Headers -/

variable {plain longer : Header}

theorem readings_insert (known : Field.ofName? name = some field)
    (plainLines : plain.lines = front ++ back)
    (longerLines : longer.lines = front ++ .field name [] :: back)
    (free : field.isRepeatable ∨ valuesOf (front ++ back) field = []) (other : Field) :
    longer.readings other = plain.readings other := by
  rw [HeaderLine.valuesOf_append] at free
  rw [readings_eq, readings_eq, plainLines, longerLines, HeaderLine.valuesOf_insert known,
    HeaderLine.valuesOf_append]
  by_cases same : other = field
  · subst same
    rw [if_pos rfl, List.append_assoc]
    exact Field.readingsOf_insert free
  · rw [if_neg same, List.append_nil]

theorem absenceProblems_insert (known : Field.ofName? name = some field)
    (optional : field.isMandatory = false) (plainLines : plain.lines = front ++ back)
    (longerLines : longer.lines = front ++ .field name [] :: back) :
    longer.absenceProblems = plain.absenceProblems := by
  rw [absenceProblems, absenceProblems, List.flatMap_def, List.flatMap_def]
  refine congrArg _ (List.map_congr_left fun other mandatory => ?_)
  have differ : other ≠ field := by
    rintro rfl
    simp [Field.isMandatory, mandatory] at optional
  rw [first_eq, first_eq, plainLines, longerLines, HeaderLine.valuesOf_insert known,
    if_neg differ, List.append_nil, HeaderLine.valuesOf_append]

/-- A line for an optional field without a value is not noticed where its field may come once and
has no other line; one for a field that may be repeated is reported in its place, and this is all
that it changes. -/
theorem parse_insert (versionLine : Text) (front back : List Text) (startOffset : Option Nat)
    (field : Field) (name spaces : Text) (named : Text.sameLetters name field.name.toList)
    (blank : ∀ c ∈ spaces, Text.isBlank c) (optional : field.isMandatory = false)
    (apart : ∀ line, back.head? = some line → isContinuation line = false)
    (free : field.isRepeatable ∨
      (parse versionLine (front ++ back) startOffset).first field = none) :
    let plain := parse versionLine (front ++ back) startOffset
    let longer := parse versionLine (front ++ (name ++ ':' :: spaces) :: back) startOffset
    (∀ other, longer.readings other = plain.readings other) ∧ longer.version = plain.version ∧
    ∃ before after, plain.diagnostics = before ++ after ∧
      longer.diagnostics =
        before ++ (if field.isRepeatable then Diagnostics.invalid field.name [] else []) ++
          after := by
  intro plain longer
  have known : Field.ofName? name = some field := Field.ofName?_eq_some.mpr named
  have plainLines : plain.lines = HeaderLine.ofLines front ++ HeaderLine.ofLines back :=
    HeaderLine.ofLines_append apart front
  have longerLines : longer.lines =
      HeaderLine.ofLines front ++ .field name [] :: HeaderLine.ofLines back :=
    Field.ofLines_insert named blank front apart
  rw [first_eq, List.head?_eq_none_iff, plainLines] at free
  refine ⟨readings_insert known plainLines longerLines free, rfl,
    plain.versionProblem ++ lineProblems [] (HeaderLine.ofLines front),
    lineProblems (fieldsOf (HeaderLine.ofLines front)).reverse (HeaderLine.ofLines back) ++
      plain.absenceProblems, ?_, ?_⟩
  · have silent : plain.blockProblems = [] := rfl
    simp only [diagnostics, silent, plainLines, lineProblems_append, List.append_assoc,
      List.append_nil]
  · have silent : longer.blockProblems = [] := rfl
    have version : longer.versionProblem = plain.versionProblem := rfl
    simp only [diagnostics, silent, version, longerLines, lineProblems_insert known optional free,
      absenceProblems_insert known optional plainLines longerLines, List.append_assoc,
      List.append_nil]

/-- The name of a digest field in other letters and behind it only white space, in front of a length
that is given twice. -/
theorem parse_insert_digest :
    let front := ["WARC-Type: response".toList]
    let back := ["Content-Length: 7".toList, "Content-Length: 8".toList]
    let line := "warc-BLOCK-digest: \t".toList
    Field.isMandatory .blockDigest = false ∧
    (parse "WARC/1.0".toList (front ++ back) none).first .blockDigest = none ∧
    (∀ next, back.head? = some next → isContinuation next = false) ∧
    (parse "WARC/1.0".toList (front ++ line :: back) none).diagnostics =
      (parse "WARC/1.0".toList (front ++ back) none).diagnostics ∧
    (parse "WARC/1.0".toList (front ++ line :: back) none).contentLength = some 7 := by
  intro front back line
  have apart : ∀ next, back.head? = some next → isContinuation next = false := by
    rintro next ⟨⟩
    rfl
  have absent : (parse "WARC/1.0".toList (front ++ back) none).first .blockDigest = none := by
    decide
  obtain ⟨read, _, before, after, plain, longer⟩ :=
    parse_insert "WARC/1.0".toList front back none .blockDigest "warc-BLOCK-digest".toList
      " \t".toList (by decide) (List.all_eq_true.mp rfl) rfl apart (.inr absent)
  rw [if_neg (by decide), List.append_nil] at longer
  exact ⟨rfl, absent, apart, longer.trans plain.symm, by decide⟩

/-- A valid header is not valid any more with an empty line for the records that its own one is
concurrent to. -/
theorem parse_insert_concurrent :
    let lines := ["WARC-Type: response".toList, "WARC-Record-ID: <urn:a>".toList,
      "WARC-Date: 2018-04-30T20:48:25Z".toList, "Content-Length: 0".toList]
    Field.isRepeatable .concurrentTo ∧ Field.isMandatory .concurrentTo = false ∧
    (parse "WARC/1.0".toList lines none).diagnostics = [] ∧
    (parse "WARC/1.0".toList (lines ++ ["WARC-Concurrent-To:".toList]) none).diagnostics =
      [⟨.invalid, "WARC-Concurrent-To", some []⟩] := by
  decide

end Header
end WebArchive.Warc
