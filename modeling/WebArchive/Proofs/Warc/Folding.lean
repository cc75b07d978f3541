import WebArchive.Proofs.Text.Trimming
import WebArchive.Warc.Header

/-!
Folded header lines against the single lines that stand for them. A field keeps a space for each of
its continuations, also where the piece before or behind it is blank, so its value is that of the
single line exactly if no piece is blank. Main fact: `Header.parse_unfolded`.
-/
namespace WebArchive.Warc

open HeaderLine (isContinuation)

/-- A line for no field, or a field with the pieces of its value: the text behind the colon and that
of each continuation, without the white space around it. -/
inductive Entry where
  | other (line : Text)
  | field (name : Text) (pieces : List Text)

namespace Entry

/-- The entries of a block: a field goes on in the lines behind it that begin with a space or a
tab. -/
def ofLines : List Text → List Entry
  | [] => []
  | line :: rest =>
    match HeaderLine.parse line with
    | .other _ => .other line :: ofLines rest
    | .field name value =>
      .field name (value :: (rest.takeWhile isContinuation).map Text.trim) ::
        ofLines (rest.dropWhile isContinuation)
termination_by lines => lines.length
decreasing_by
  · exact Nat.lt_succ_self _
  · exact Nat.lt_succ_of_le (List.dropWhile_suffix _).length_le

/-- The value that is meant: pieces that are not blank, with single spaces between them. -/
def meant (pieces : List Text) : Text := Text.join ' ' (pieces.filter (!·.isEmpty))

/-- The single line that stands for the entry. -/
def line : Entry → Text
  | .other line => line
  | .field name pieces => name ++ ':' :: ' ' :: meant pieces

/-- No piece is blank, unless it is the only one. -/
def IsFull : Entry → Prop
  | .other _ => True
  | .field _ pieces => pieces.length = 1 ∨ [] ∉ pieces

/-- The header line that comes of the entry: blank pieces leave their spaces behind. -/
def kept : Entry → HeaderLine
  | .other line => .other line
  | .field name pieces => .field name (Text.join ' ' pieces)

/-- The header line that the single line gives. -/
def plain : Entry → HeaderLine
  | .other line => .other line
  | .field name pieces => .field name (meant pieces)

end Entry

/-- The block with each field on a single line. -/
def unfolded (lines : List Text) : List Text := (Entry.ofLines lines).map Entry.line

namespace HeaderLine
variable {line name value : Text} {lines : List Text}

theorem ofLinesAfter_other (line : Text) (lines : List Text) :
    ofLinesAfter (.other line) lines = .other line :: ofLines lines := by
  cases lines <;> rfl

theorem ofLinesAfter_field (name value : Text) (lines : List Text) :
    ofLinesAfter (.field name value) lines =
      .field name (Text.join ' ' (value :: (lines.takeWhile isContinuation).map Text.trim)) ::
        ofLines (lines.dropWhile isContinuation) := by
  induction lines generalizing value with
  | nil => rfl
  | cons line rest ih =>
    by_cases more : isContinuation line
    · simp only [ofLinesAfter, if_pos more, ih, List.takeWhile_cons, List.dropWhile_cons,
        List.map_cons, Text.join_append_cons]
    · simp only [ofLinesAfter, more, List.takeWhile_cons, List.dropWhile_cons, List.map_nil,
        Text.join, ofLines, Bool.false_eq_true, if_false]

theorem parse_other {text : Text} (parsed : parse line = .other text) : text = line := by
  unfold parse at parsed
  split at parsed
  · split at parsed
    · exact (HeaderLine.other.inj parsed).symm
    · cases parsed
  · exact (HeaderLine.other.inj parsed).symm

/-- What every field has whose line was parsed. -/
structure IsField (name value : Text) : Prop where
  clean : ':' ∉ name
  some : name ≠ []
  name : Text.Trimmed name
  value : Text.Trimmed value

theorem parse_field (parsed : parse line = .field name value) : IsField name value := by
  unfold parse at parsed
  split at parsed
  · rename_i before after found
    split at parsed
    · cases parsed
    · rename_i some
      obtain ⟨rfl, rfl⟩ := HeaderLine.field.inj parsed
      exact ⟨Text.not_mem_trim (Text.cut_eq_some found).2, some, Text.trimmed_trim _,
        Text.trimmed_trim _⟩
  · cases parsed

theorem parse_single (h : IsField name value) :
    parse (name ++ ':' :: ' ' :: value) = .field name value := by
  unfold parse
  rw [Text.cut_append h.clean]
  have blank : Text.isBlank ' ' := by decide
  simp only [Text.trim_of_trimmed h.name, if_neg h.some, Text.trim_cons_blank blank,
    Text.trim_of_trimmed h.value]

theorem IsField.not_continuation (h : IsField name value) (rest : Text) :
    isContinuation (name ++ rest) = false := by
  obtain ⟨c, cs, rfl⟩ := List.exists_cons_of_ne_nil h.some
  have black := h.name.first c rfl
  have space : c ≠ ' ' := by
    rintro rfl
    exact absurd black (by decide)
  have tab : c ≠ '\t' := by
    rintro rfl
    exact absurd black (by decide)
  simp [isContinuation, space, tab]

theorem ofLines_eq (lines : List Text) : ofLines lines = (Entry.ofLines lines).map Entry.kept := by
  fun_induction Entry.ofLines lines with
  | case1 => rfl
  | case2 line rest text parsed ih =>
    obtain rfl := parse_other parsed
    rw [ofLines, parsed, ofLinesAfter_other, ih]
    rfl
  | case3 line rest name value parsed ih =>
    rw [ofLines, parsed, ofLinesAfter_field, ih]
    rfl

end HeaderLine

namespace Entry
variable {lines : List Text}

theorem isField_meant {line name value : Text} (parsed : HeaderLine.parse line = .field name value)
    (more : List Text) :
    HeaderLine.IsField name (meant (value :: more.map Text.trim)) := by
  have field := HeaderLine.parse_field parsed
  refine ⟨field.clean, field.some, field.name, Text.trimmed_join ?_ (by simp)⟩
  intro piece member
  rcases List.mem_cons.mp (List.mem_filter.mp member).1 with rfl | trimmed
  · exact field.value
  · obtain ⟨line, _, rfl⟩ := List.mem_map.mp trimmed
    exact Text.trimmed_trim line

/-- The entry of a single line. -/
def alone : Entry → Entry
  | .other line => .other line
  | .field name pieces => .field name [meant pieces]

theorem unfolded_cons_other {line : Text} (rest : List Text)
    (parsed : HeaderLine.parse line = .other line) :
    unfolded (line :: rest) = line :: unfolded rest := by
  rw [unfolded, ofLines, parsed]
  rfl

theorem unfolded_cons_field {line name value : Text} (rest : List Text)
    (parsed : HeaderLine.parse line = .field name value) :
    unfolded (line :: rest) =
      (name ++ ':' :: ' ' :: meant (value :: (rest.takeWhile isContinuation).map Text.trim)) ::
        unfolded (rest.dropWhile isContinuation) := by
  rw [unfolded, ofLines, parsed]
  rfl

/-- A block that does not begin with a continuation does not unfold to one that does. -/
theorem takeWhile_unfolded
    (begun : ∀ line, lines.head? = some line → isContinuation line = false) :
    (unfolded lines).takeWhile isContinuation = [] ∧
      (unfolded lines).dropWhile isContinuation = unfolded lines := by
  cases lines with
  | nil => simp [unfolded, ofLines]
  | cons line rest =>
    rcases parsed : HeaderLine.parse line with ⟨name, value⟩ | text
    · rw [unfolded_cons_field rest parsed]
      have first := (HeaderLine.parse_field parsed).not_continuation
        (':' :: ' ' :: meant (value :: (rest.takeWhile isContinuation).map Text.trim))
      simp [first]
    · obtain rfl := HeaderLine.parse_other parsed
      rw [unfolded_cons_other rest parsed]
      simp [begun text rfl]

theorem ofLines_unfolded (lines : List Text) :
    ofLines (unfolded lines) = (ofLines lines).map alone := by
  fun_induction ofLines lines with
  | case1 => simp [unfolded, ofLines]
  | case2 line rest text parsed ih =>
    obtain rfl := HeaderLine.parse_other parsed
    rw [unfolded_cons_other rest parsed, ofLines, parsed]
    simp only [List.map_cons, ih, alone]
  | case3 line rest name value parsed ih =>
    have single := HeaderLine.parse_single
      (isField_meant parsed (rest.takeWhile isContinuation))
    -- the line behind the continuations begins an entry, and so does the one it unfolds to
    have begun : ∀ line, (rest.dropWhile isContinuation).head? = some line →
        isContinuation line = false := by
      intro line first
      have stopped := List.head?_dropWhile_not isContinuation rest
      rwa [first] at stopped
    obtain ⟨none, all⟩ := takeWhile_unfolded begun
    rw [unfolded_cons_field rest parsed, ofLines, single]
    simp only [none, all, List.map_nil, List.map_cons, ih, alone]

theorem kept_alone (entry : Entry) : entry.alone.kept = entry.plain := by
  cases entry <;> rfl

/-! ### Blank pieces -/

theorem join_eq_meant {pieces : List Text} :
    Text.join ' ' pieces = meant pieces ↔ pieces.length = 1 ∨ [] ∉ pieces := by
  constructor
  · intro same
    by_cases blank : [] ∈ pieces
    · have sizes := congrArg List.length same
      have fewer : (pieces.filter (!·.isEmpty)).length < pieces.length :=
        List.length_filter_lt_length_iff_exists.mpr ⟨[], blank, by simp⟩
      rw [meant, Text.length_join, Text.length_join, List.flatten_filter_not_isEmpty] at sizes
      exact Or.inl (by omega)
    · exact Or.inr blank
  · rintro (one | full)
    · obtain ⟨piece, rfl⟩ := List.length_eq_one_iff.mp one
      cases piece <;> rfl
    · have all : pieces.filter (!·.isEmpty) = pieces := by
        rw [List.filter_eq_self]
        intro piece member
        have some : piece ≠ [] := fun none => full (none ▸ member)
        simpa using some
      rw [meant, all]

theorem kept_eq_plain (entry : Entry) : entry.kept = entry.plain ↔ entry.IsFull := by
  cases entry with
  | other line => exact iff_of_true rfl trivial
  | field name pieces =>
    rw [kept, plain, HeaderLine.field.injEq, IsFull, ← join_eq_meant]
    exact and_iff_right rfl

end Entry

/-- A block is read as its unfolded lines are, in all that is made of it, exactly if no fold has a
blank piece. Otherwise its lines differ: each blank piece leaves a space in the value of its
field. -/
theorem Header.parse_unfolded (versionLine : Text) (lines : List Text)
    (startOffset : Option Nat) :
    (parse versionLine lines startOffset).lines = (Entry.ofLines lines).map Entry.kept ∧
    (parse versionLine (unfolded lines) startOffset).lines =
      (Entry.ofLines lines).map Entry.plain ∧
    (parse versionLine lines startOffset = parse versionLine (unfolded lines) startOffset ↔
      ∀ entry ∈ Entry.ofLines lines, entry.IsFull) := by
  have folded := HeaderLine.ofLines_eq lines
  have plain : HeaderLine.ofLines (unfolded lines) = (Entry.ofLines lines).map Entry.plain := by
    rw [HeaderLine.ofLines_eq, Entry.ofLines_unfolded, List.map_map]
    exact List.map_congr_left fun entry _ => entry.kept_alone
  refine ⟨folded, plain, ?_⟩
  simp only [parse, folded, plain, Header.mk.injEq, true_and, and_true, List.map_inj_left,
    Entry.kept_eq_plain]

/-- A value that stands on a continuation alone keeps the space in front of it, so that this length
is no number. -/
theorem Header.parse_unfolded_blank :
    let lines := ["Content-Length:".toList, " 42".toList]
    (parse "WARC/1.0".toList lines none).contentLength = none ∧
    unfolded lines = ["Content-Length: 42".toList] ∧
    (parse "WARC/1.0".toList (unfolded lines) none).contentLength = some 42 := by
  intro lines
  have parsed : HeaderLine.parse "Content-Length:".toList = .field "Content-Length".toList [] := by
    decide
  have single : unfolded lines = ["Content-Length: 42".toList] := by
    rw [Entry.unfolded_cons_field _ parsed, List.cons_eq_cons]
    exact ⟨by decide, by simp [isContinuation, unfolded, Entry.ofLines]⟩
  rw [single]
  exact ⟨by decide, rfl, by decide⟩

end WebArchive.Warc
