import WebArchive.Arc.Header
import WebArchive.Proofs.Diagnostics
import WebArchive.Proofs.Text.Trimming

/-!
What an ARC header line makes of a field and what it reports of it: both follow from the token in
the place of the field, whatever the others are. Main facts: `Header.about_diagnostics`, and
`Header.accounts_for_tokens` over all the diagnostics of a line.
-/
namespace WebArchive.Arc

namespace Field

/-- What a value of the field is. -/
def Value : Field → Type
  | .url => Uri
  | .address => Address
  | .date => Calendar.Instant
  | .contentType => ContentType
  | .resultCode => Int
  | .checksum | .location | .fileName => Text
  | .offset | .length => Nat

def parse? : (field : Field) → Text → Option field.Value
  | .url => Uri.parse?
  | .address => Address.parse?
  | .date => Calendar.compact?
  | .contentType => ContentType.parse?
  | .resultCode => Text.integer?
  | .checksum | .location | .fileName => some
  | .offset | .length => Text.long?

theorem accepts_eq (field : Field) (t : Text) : field.accepts t = (field.parse? t).isSome := by
  cases field <;> rfl

theorem name_injective : Function.Injective name := by
  intro field other same
  cases field <;> cases other <;> first | rfl | exact absurd same (by decide)

theorem name_ne_recordField (field : Field) : field.name ≠ recordField := by
  cases field <;> decide

end Field

namespace Version

theorem nodup_layout (v : Version) : v.layout.Nodup := by
  cases v <;> decide

theorem idxOf?_layout (v : Version) :
    ∀ i : Fin v.layout.length, v.layout.idxOf? v.layout[i] = some i.val := by
  cases v <;> decide

theorem length_mem_layout (v : Version) : .length ∈ v.layout := by
  cases v <;> decide

end Version

namespace Header
open Diagnostics (Only about_append about_of_only only_invalid only_invalidIf only_missing only_nil)

variable {h : Header} {field : Field}

/-! ### Tokens -/

theorem token_getElem (h : Header) {i : Nat} (inside : i < h.version.layout.length) :
    h.token h.version.layout[i] =
      if h.version.layout[i] = .length then h.tokens.getLast? else h.tokens[i]? := by
  have place : h.version.layout.idxOf? h.version.layout[i] = some i :=
    h.version.idxOf?_layout ⟨i, inside⟩
  rw [token, place, Option.bind_some]

theorem held_undeclared (undeclared : field ∉ h.version.layout) : h.held field = none := by
  have other : field ≠ .length := by
    rintro rfl
    exact undeclared h.version.length_mem_layout
  rw [held, token, if_neg other, List.idxOf?_eq_none_iff.mpr undeclared]
  rfl

/-- A token that is not there is as good as a blank one. -/
def textOf (token : Option Text) : Text := Text.trim (token.getD [])

theorem held_eq (h : Header) (field : Field) :
    h.held field = if textOf (h.token field) = [] then none else some (textOf (h.token field)) := by
  have text : ((h.token field).map Text.trim).getD [] = textOf (h.token field) := by
    cases h.token field <;> rfl
  rw [held, Text.filter_ne_nil, text]

/-- What the header reads of a field. -/
def reading (h : Header) : (field : Field) → Option field.Value
  | .url => h.url
  | .address => h.address
  | .date => h.date
  | .contentType => h.contentType
  | .resultCode => h.resultCode
  | .checksum => h.checksum
  | .location => h.location
  | .offset => h.offset
  | .fileName => h.fileName
  | .length => h.length

theorem reading_eq (h : Header) (field : Field) :
    h.reading field = (h.held field).bind field.parse? := by
  cases field <;> rfl

/-! ### Reports -/

theorem only_problems : Only field.name (h.problems field) := by
  unfold problems
  split
  · split
    · exact only_nil
    · exact only_missing
  · exact only_invalidIf

theorem only_offsetProblem : Only Field.offset.name h.offsetProblem := by
  unfold offsetProblem
  split
  · exact only_invalidIf
  · exact only_nil

/-- What is said of a field is said of what it holds, and of the place of the line if it is the
offset. -/
theorem about_diagnostics (h : Header) (field : Field) :
    h.diagnostics.about field.name =
      (if field ∈ h.version.layout then h.problems field else []) ++
        if field = .offset then h.offsetProblem else [] := by
  have offset : Field.offset.name = field.name ↔ field = .offset :=
    ⟨fun same => (Field.name_injective same).symm, fun same => same ▸ rfl⟩
  simp only [diagnostics, countProblem, about_append, about_of_only only_invalidIf,
    about_of_only only_offsetProblem, if_neg field.name_ne_recordField.symm, offset,
    Diagnostics.about_flatMap Field.name_injective (fun _ => only_problems) h.version.nodup_layout,
    List.nil_append, List.append_nil]

/-- What a header reads and reports of a field that its version declares, whose token is `text`
without white space around it. -/
structure Judges (h : Header) (field : Field) (text : Text) : Prop where
  blank : text = [] → h.reading field = none ∧
    h.diagnostics.about field.name =
      if field = .location then [] else [⟨.missing, field.name, none⟩]
  unread : text ≠ [] → field.parse? text = none → h.reading field = none ∧
    h.diagnostics.about field.name = [⟨.invalid, field.name, some text⟩]
  read : ∀ value, text ≠ [] → field.parse? text = some value → h.reading field = some value ∧
    (field ≠ .offset → h.diagnostics.about field.name = [])
  placed : field = .offset → ∀ declared, h.offset = some declared →
    h.diagnostics.about field.name =
      if h.startOffset.all (· = declared) then []
      else [⟨.invalid, field.name, some (Text.ofNat declared)⟩]

theorem problems_eq (h : Header) (field : Field) :
    h.problems field =
      if textOf (h.token field) = [] then
        if field = .location then [] else [⟨.missing, field.name, none⟩]
      else if (field.parse? (textOf (h.token field))).isSome then []
      else [⟨.invalid, field.name, some (textOf (h.token field))⟩] := by
  rw [problems, held_eq]
  by_cases blank : textOf (h.token field) = []
  · simp [blank, Field.isOptional, Diagnostics.missing]
  · simp only [if_neg blank, Field.accepts_eq, Diagnostics.invalidIf_not]

theorem countProblem_eq (h : Header) :
    h.countProblem =
      if h.tokens.length = h.version.layout.length then []
      else [⟨.invalid, recordField,
        some ("expected ".toList ++ Text.ofNat h.version.layout.length ++
          " fields, found ".toList ++ Text.ofNat h.tokens.length)⟩] := by
  simp only [countProblem, Diagnostics.invalidIf_not, isCompliant, decide_eq_true_eq]

/-- Without a value there is no offset to compare with that of the line. -/
theorem offsetProblem_unread (unread : h.reading field = none) :
    (if field = .offset then h.offsetProblem else []) = [] := by
  split
  · rename_i same
    subst same
    have unread : h.offset = none := unread
    rw [offsetProblem, unread]
  · rfl

theorem offsetProblem_read {declared : Nat} (read : h.offset = some declared) :
    h.offsetProblem = if h.startOffset.all (· = declared) then []
      else [⟨.invalid, Field.offset.name, some (Text.ofNat declared)⟩] := by
  rw [offsetProblem, read]
  cases h.startOffset with
  | none => rfl
  | some actual =>
    simp only [ne_eq, decide_not, Diagnostics.invalidIf_not, Option.all_some, eq_comm]

theorem judges (declared : field ∈ h.version.layout) : h.Judges field (textOf (h.token field)) := by
  have about := h.about_diagnostics field
  rw [if_pos declared, problems_eq] at about
  have reading := h.reading_eq field
  rw [held_eq] at reading
  refine ⟨fun blank => ?_, fun black unread => ?_, fun value black read => ?_, ?_⟩
  · rw [if_pos blank] at reading about
    refine ⟨reading, ?_⟩
    rw [about, offsetProblem_unread reading, List.append_nil]
  · rw [if_neg black, Option.bind_some, unread] at reading
    refine ⟨reading, ?_⟩
    rw [about, if_neg black, unread, offsetProblem_unread reading, List.append_nil]
    rfl
  · rw [if_neg black, Option.bind_some, read] at reading
    refine ⟨reading, fun other => ?_⟩
    rw [about, if_neg black, read, if_neg other]
    rfl
  · rintro rfl offset known
    have black : textOf (h.token .offset) ≠ [] := by
      intro blank
      rw [if_pos blank] at reading
      exact absurd (known.symm.trans reading) (by simp)
    rw [if_neg black] at reading
    have read : Text.long? (textOf (h.token .offset)) = some offset := reading.symm.trans known
    rw [about, if_neg black, if_pos rfl, Field.parse?, read, offsetProblem_read known]
    rfl

theorem silent_of_undeclared (undeclared : field ∉ h.version.layout) :
    h.reading field = none ∧ h.diagnostics.about field.name = [] := by
  have unread : h.reading field = none := by
    rw [reading_eq, held_undeclared undeclared, Option.bind_none]
  refine ⟨unread, ?_⟩
  rw [about_diagnostics, if_neg undeclared, offsetProblem_unread unread, List.append_nil]

theorem about_recordField (h : Header) (whole : h.isCut = false) :
    h.diagnostics.about recordField = h.countProblem := by
  have fields : Diagnostics.about (h.version.layout.flatMap h.problems) recordField = [] := by
    refine Diagnostics.about_eq_nil fun d member equal => ?_
    obtain ⟨field, _, member⟩ := List.mem_flatMap.mp member
    exact field.name_ne_recordField ((only_problems d member).symm.trans equal)
  have offset : h.offsetProblem.about recordField = [] := by
    rw [about_of_only only_offsetProblem, if_neg (Field.name_ne_recordField .offset)]
  rw [diagnostics, whole, about_append, about_append, about_append, fields, offset,
    List.append_nil, List.append_nil, countProblem, about_of_only only_invalidIf, if_pos rfl]
  exact List.append_nil _

theorem field_of_mem_diagnostics {d : Diagnostic} (member : d ∈ h.diagnostics) :
    d.field = recordField ∨ ∃ field ∈ h.version.layout, d.field = field.name := by
  simp only [diagnostics, List.mem_append] at member
  rcases member with ((count | fields) | offset) | cut
  · exact .inl (only_invalidIf d count)
  · obtain ⟨field, declared, member⟩ := List.mem_flatMap.mp fields
    exact .inr ⟨field, declared, only_problems d member⟩
  · refine .inr ⟨.offset, ?_, only_offsetProblem d offset⟩
    -- an offset that is compared was read, and so it has a place
    have read : h.held .offset ≠ none := by
      intro unread
      have none : h.offset = none := by rw [Header.offset, value, unread, Option.bind_none]
      rw [offsetProblem, none] at offset
      cases offset
    exact Decidable.not_not.mp (mt held_undeclared read)
  · exact .inl (only_invalidIf d cut)

/-- A header that reports nothing has a value for every field of its version, but perhaps for the
location. -/
theorem reading_of_silent (declared : field ∈ h.version.layout) (required : field ≠ .location)
    (silent : h.diagnostics = []) : (h.reading field).isSome := by
  have about := h.about_diagnostics field
  rw [silent, if_pos declared, problems_eq] at about
  have nothing := (List.append_eq_nil_iff.mp about.symm).1
  rw [reading_eq, held_eq]
  by_cases blank : textOf (h.token field) = []
  · simp [blank, required] at nothing
  · rw [if_neg blank] at nothing ⊢
    rw [Option.bind_some]
    split at nothing
    · assumption
    · cases nothing

theorem reading_congr {other : Header} (same : h.token field = other.token field) :
    h.reading field = other.reading field := by
  rw [reading_eq, reading_eq, held_eq, held_eq, same]

/-- Lines of one version at one place say the same of a field if they have the same token for it. -/
theorem about_congr {other : Header} (version : h.version = other.version)
    (place : h.startOffset = other.startOffset) (same : h.token field = other.token field) :
    h.diagnostics.about field.name = other.diagnostics.about field.name := by
  rw [about_diagnostics, about_diagnostics, problems_eq, problems_eq, same, version]
  congr 1
  split
  · rename_i offset
    subst offset
    have read : h.offset = other.offset := reading_congr same
    rw [offsetProblem, offsetProblem, read, place]
  · rfl

/-- The tokens are the line, their number is judged, and every field that the version declares is
judged by the token in its place, the length by the last one; the other fields are not there. So a
field does not depend on the tokens of the others. -/
theorem accounts_for_tokens (line : Text) (version : Version) (startOffset : Option Nat) :
    let h := parse line version startOffset
    Text.join ' ' h.tokens = line ∧ (∀ token ∈ h.tokens, ' ' ∉ token) ∧
    (h.isCompliant ↔ h.tokens.length = version.layout.length) ∧
    h.diagnostics.about recordField =
      (if h.tokens.length = version.layout.length then []
        else [⟨.invalid, recordField,
          some ("expected ".toList ++ Text.ofNat version.layout.length ++
            " fields, found ".toList ++ Text.ofNat h.tokens.length)⟩]) ∧
    (∀ i (inside : i < version.layout.length),
      h.Judges version.layout[i]
        (textOf (if version.layout[i] = .length then h.tokens.getLast? else h.tokens[i]?))) ∧
    (∀ field ∉ version.layout,
      h.reading field = none ∧ h.diagnostics.about field.name = []) ∧
    (∀ d ∈ h.diagnostics,
      d.field = recordField ∨ ∃ field ∈ version.layout, d.field = field.name) ∧
    ∀ line' field, (parse line' version startOffset).token field = h.token field →
      (parse line' version startOffset).reading field = h.reading field ∧
      (parse line' version startOffset).diagnostics.about field.name =
        h.diagnostics.about field.name := by
  intro h
  refine ⟨join_tokens line version startOffset, fun token => Text.not_mem_of_mem_split,
    by simp [isCompliant, h, parse], (h.about_recordField rfl).trans h.countProblem_eq,
    fun i inside => ?_, fun field undeclared => silent_of_undeclared undeclared,
    fun d => field_of_mem_diagnostics, fun line' field same =>
      ⟨reading_congr same, about_congr rfl rfl same⟩⟩
  have place : h.token version.layout[i] =
      if version.layout[i] = .length then h.tokens.getLast? else h.tokens[i]? :=
    h.token_getElem inside
  rw [← place]
  exact judges (List.getElem_mem inside)

/-- Five tokens in the place of ten: the last one is the result code and the length as well. -/
theorem accounts_for_tokens_short :
    let h := parse "http://x/ 1.2.3.4 20080430204825 text/html 77".toList .v2 (some 5)
    h.resultCode = some 77 ∧ h.length = some 77 ∧
    h.diagnostics.about "Checksum" = [⟨.missing, "Checksum", none⟩] ∧
    h.diagnostics.about "Location" = [] := by
  intro h
  obtain ⟨_, _, _, _, judged, _⟩ :=
    accounts_for_tokens "http://x/ 1.2.3.4 20080430204825 text/html 77".toList .v2 (some 5)
  exact ⟨((judged 4 (by decide)).read (77 : Int) (by decide) rfl).1,
    ((judged 9 (by decide)).read (77 : Nat) (by decide) rfl).1,
    ((judged 5 (by decide)).blank (by decide)).2, ((judged 6 (by decide)).blank (by decide)).2⟩

end Header
end WebArchive.Arc
