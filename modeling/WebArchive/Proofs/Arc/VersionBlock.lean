import WebArchive.Arc.VersionBlock
import WebArchive.Proofs.Arc.Fields
import WebArchive.Proofs.Payload.Accounting

/-!
The verdict on the version block of an ARC file. Its content is read to the end, and four checks
report on it on their own, one behind the other: they only share the version that the first line
declares. Main facts: `read_start`, `ofContent_diagnostics`, `read_verdict`.
-/
namespace WebArchive.Arc

namespace Version

/-- The numbers by which a file declares the version. -/
def numbers : Version → List (List Text)
  | .v1 => [[['1'], ['0']], [['1'], ['1']]]
  | .v2 => [[['2'], ['0']]]

theorem ofNumbers?_eq_some {major minor : Text} {v : Version} :
    ofNumbers? major minor = some v ↔ [major, minor] ∈ v.numbers := by
  unfold ofNumbers?
  split
  · rename_i first
    obtain ⟨rfl, rfl | rfl⟩ := first <;> cases v <;> decide
  · split
    · rename_i second
      obtain ⟨rfl, rfl⟩ := second
      cases v <;> decide
    · rename_i first second
      cases v <;> simp_all [numbers]

/-- A line names the fields in their order if its pieces are the names. -/
theorem eq_description {v : Version} {line : Text} :
    line = v.description ↔ Text.split ' ' line = v.layout.map (·.name.toList) := by
  constructor
  · rintro rfl
    refine Text.split_join ?_ ?_ <;> cases v <;> decide
  · intro same
    rw [← Text.join_split ' ' line, same]
    rfl

end Version

namespace VersionBlock

/-! ### Lines -/

/-- A line of a content by its number, without white space around it; one that is not there is
empty. -/
def lineAt (content : Bytes) (n : Nat) : Text :=
  Text.trim ((Text.split '\n' (Text.utf8Lossy content))[n]?.getD [])

/-- A line feed at the very end begins no line, which is as good as an empty one. -/
theorem lines_getD (content : Bytes) (n : Nat) :
    (lines (Text.utf8Lossy content))[n]?.getD [] = lineAt content n := by
  have trimmed (pieces : List Text) :
      (pieces.map Text.trim)[n]?.getD [] = Text.trim (pieces[n]?.getD []) := by
    rw [List.getElem?_map]
    cases pieces[n]? <;> rfl
  have shortened (front : List Text) : front[n]?.getD [] = (front ++ [[]])[n]?.getD [] := by
    rw [List.getElem?_append]
    split
    · rfl
    · rename_i behind
      rw [List.getElem?_eq_none (Nat.le_of_not_lt behind)]
      cases n - front.length <;> rfl
  rw [lines, trimmed, lineAt]
  split
  · rename_i last
    obtain ⟨front, same⟩ := List.getLast?_eq_some_iff.mp last
    rw [same, List.dropLast_concat, shortened]
  · rfl

/-! ### Numbers -/

/-- The first two pieces of a line. -/
def numbersOf (line : Text) : List Text := (Text.split ' ' line).take 2

theorem numbersOf_eq (line : Text) :
    numbersOf line =
      if ' ' ∈ line then [(versionLine line).1, (versionLine line).2.1] else [line] := by
  rw [numbersOf, versionLine]
  rcases found : Text.cut ' ' line with _ | ⟨major, rest⟩
  · have absent := Text.cut_eq_none.mp found
    rw [if_neg absent, Text.split_of_not_mem absent]
    rfl
  · obtain ⟨rfl, absent⟩ := Text.cut_eq_some found
    rw [if_pos (by simp), Text.split_append_cons absent]
    rcases again : Text.cut ' ' rest with _ | ⟨minor, origin⟩
    · rw [Text.split_of_not_mem (Text.cut_eq_none.mp again)]
      simp only [again, List.take]
    · obtain ⟨rfl, absent⟩ := Text.cut_eq_some again
      rw [Text.split_append_cons absent]
      simp only [again, List.take]

/-- A line without a second piece declares no version. -/
theorem declared?_line {line : Text} {v : Version} :
    declared? (some line) = some v ↔ numbersOf line ∈ v.numbers := by
  have declares : declared? (some line) =
      Version.ofNumbers? (versionLine line).1 (versionLine line).2.1 := rfl
  rw [declares, Version.ofNumbers?_eq_some, numbersOf_eq]
  split
  · rfl
  · -- the minor number is empty then, and no version has such a one
    rename_i absent
    have alone : versionLine line = (line, [], none) := by
      rw [versionLine, Text.cut_eq_none.mpr absent]
    rw [alone]
    cases v <;> simp [Version.numbers]

/-- A blank line is as good as none. -/
theorem declared?_filter {first : Option Text} {v : Version} :
    declared? (first.filter (· ≠ [])) = some v ↔ numbersOf (first.getD []) ∈ v.numbers := by
  rw [Text.filter_ne_nil]
  split
  · rename_i blank
    rw [blank]
    cases v <;> decide
  · exact declared?_line

/-- What a file can declare. -/
def declarable : List (List Text) := Version.v1.numbers ++ Version.v2.numbers

theorem mem_declarable {pieces : List Text} :
    pieces ∈ declarable ↔ ∃ v : Version, pieces ∈ v.numbers := by
  rw [declarable, List.mem_append]
  constructor
  · rintro (first | second)
    · exact ⟨.v1, first⟩
    · exact ⟨.v2, second⟩
  · rintro ⟨_ | _, member⟩
    · exact .inl member
    · exact .inr member

/-- What is reported of a line that fails its check. -/
def complaint (field : String) (line : Text) : Diagnostic :=
  if line = [] then ⟨.missing, field, none⟩ else ⟨.invalid, field, some line⟩

theorem versionProblem_filter (first : Option Text) :
    versionProblem (first.filter (· ≠ [])) =
      if numbersOf (first.getD []) ∈ declarable then []
      else [complaint versionField (first.getD [])] := by
  have known : (declared? (first.filter (· ≠ []))).isSome ↔
      numbersOf (first.getD []) ∈ declarable := by
    simp only [Option.isSome_iff_exists, declared?_filter, mem_declarable]
  simp only [← known, Text.filter_ne_nil]
  by_cases blank : first.getD [] = []
  · rw [if_pos blank, complaint, if_pos blank]
    rfl
  · rw [if_neg blank, complaint, if_neg blank, versionProblem, Diagnostics.invalidIf]
    cases declared? (some (first.getD [])) <;> rfl

theorem descriptionProblem_eq (version : Version) (second : Option Text) :
    descriptionProblem version second =
      if Text.split ' ' (second.getD []) = version.layout.map (·.name.toList) then []
      else [complaint descriptionField (second.getD [])] := by
  simp only [← Version.eq_description]
  rcases second with _ | _ | ⟨c, cs⟩
  · cases version <;> rfl
  · cases version <;> rfl
  · by_cases same : c :: cs = version.description <;>
      simp [descriptionProblem, Diagnostics.invalidIf, Diagnostics.invalid, complaint, same]

/-! ### Verdict -/

/-- The problems of a block with this header, of which `length` bytes were declared when the stream
had `data`: those of the header, and one more for each check that fails. -/
def problems (header : Header) (length : Nat) (data : Bytes) (version : Version) : Diagnostics :=
  let first := lineAt (data.take length) 0
  let second := lineAt (data.take length) 1
  header.diagnostics ++
    (match header.url with
      | some url => if url.hasScheme scheme then [] else [⟨.invalid, Field.url.name, some url.text⟩]
      | none => []) ++
    (if length ≤ data.length then []
      else [⟨.invalid, recordField, some "Payload length mismatch".toList⟩]) ++
    (if numbersOf first ∈ declarable then [] else [complaint versionField first]) ++
    if Text.split ' ' second = version.layout.map (·.name.toList) then []
    else [complaint descriptionField second]

/-- What a block makes of its header and its content. -/
structure Verdict (header : Header) (length : Nat) (data : Bytes) (b : VersionBlock) : Prop where
  version : b.version =
    if numbersOf (lineAt (data.take length) 0) = [['2'], ['0']] then .v2 else .v1
  diagnostics : b.diagnostics = problems header length data b.version
  valid : b.isCompliant ∧ b.diagnostics = [] ↔
    header.tokens.length = 5 ∧ header.diagnostics = [] ∧ header.url.any (·.hasScheme scheme) ∧
      length ≤ data.length ∧ numbersOf (lineAt (data.take length) 0) ∈ declarable ∧
      Text.split ' ' (lineAt (data.take length) 1) = b.version.layout.map (·.name.toList)

theorem truncation_eq (length : Nat) (block entity : Option Digest.Algorithm) (data : Bytes) :
    (Payload.Summary.of length block entity (data.take length)).diagnostics recordField =
      if length ≤ data.length then []
      else [⟨.invalid, recordField, some "Payload length mismatch".toList⟩] := by
  have short : (Payload.Summary.of length block entity (data.take length)).isTruncated =
      !decide (length ≤ data.length) := by
    simp only [Payload.Summary.isTruncated, Payload.Summary.of, List.length_take, ← decide_not,
      decide_eq_decide]
    omega
  simp only [Payload.Summary.diagnostics, short, Diagnostics.invalidIf_not, decide_eq_true_eq]

theorem urlProblem_eq (header : Header) :
    urlProblem header =
      match header.url with
      | some url => if url.hasScheme scheme then [] else [⟨.invalid, Field.url.name, some url.text⟩]
      | none => [] := by
  rw [urlProblem]
  cases header.url with
  | none => rfl
  | some url => exact Diagnostics.invalidIf_not ..

theorem ofContent_version (header : Header) (content : Bytes) (summary : Payload.Summary) :
    (ofContent header content summary).version =
      if numbersOf (lineAt content 0) = [['2'], ['0']] then .v2 else .v1 := by
  have two : declared? ((lines (Text.utf8Lossy content))[0]?.filter (· ≠ [])) = some .v2 ↔
      numbersOf (lineAt content 0) = [['2'], ['0']] := by
    rw [declared?_filter, lines_getD]
    exact List.mem_singleton
  simp only [ofContent, ← two]
  rcases declared? _ with _ | _ | _ <;> rfl

theorem ofContent_diagnostics (header : Header) (length : Nat)
    (block entity : Option Digest.Algorithm) (data : Bytes) :
    let b := ofContent header (data.take length) (.of length block entity (data.take length))
    b.diagnostics = problems header length data b.version := by
  simp only [problems, ← lines_getD, ← truncation_eq length block entity, ← urlProblem_eq,
    ← versionProblem_filter, ← descriptionProblem_eq]
  rfl

theorem problems_eq_nil (header : Header) (length : Nat) (data : Bytes) (version : Version) :
    problems header length data version = [] ↔
      header.diagnostics = [] ∧ header.url.any (·.hasScheme scheme) ∧ length ≤ data.length ∧
        numbersOf (lineAt (data.take length) 0) ∈ declarable ∧
        Text.split ' ' (lineAt (data.take length) 1) = version.layout.map (·.name.toList) := by
  have passed (check : Prop) [Decidable check] (d : Diagnostic) :
      (if check then [] else [d]) = [] ↔ check := by
    by_cases holds : check <;> simp [holds]
  simp only [problems, List.append_eq_nil_iff, passed, and_assoc]
  refine and_congr_right fun silent => and_congr_left' ?_
  -- a header that reports nothing has a URL, so that its scheme was checked
  have declared : Field.url ∈ header.version.layout := by cases header.version <;> decide
  obtain ⟨url, read⟩ : ∃ url, header.url = some url :=
    Option.isSome_iff_exists.mp (Header.reading_of_silent declared (by decide) silent)
  simp only [read, passed, Option.any_some]

theorem ofContent_verdict {header : Header} (first : header.version = .v1) (length : Nat)
    (block entity : Option Digest.Algorithm) (data : Bytes) :
    Verdict header length data
      (ofContent header (data.take length) (.of length block entity (data.take length))) := by
  have diagnostics := ofContent_diagnostics header length block entity data
  refine ⟨ofContent_version .., diagnostics, ?_⟩
  rw [diagnostics, problems_eq_nil]
  refine and_congr_left' ?_
  simp [isCompliant, ofContent, Header.isCompliant, first, Version.layout]

/-! ### Reading -/

variable {σ : Type} [Readable σ] {I : σ → Bytes → Prop} {E : StreamError → Prop}

/-- The content is read to its end, and no further. -/
theorem read_start (t : Readable.Tracks I E) (quiet : Quiet E) (header : Header) {s : σ}
    {data : Bytes} (h : I s data) (length : Nat) (block entity : Option Digest.Algorithm) :
    ∃ p, read header (.start s length block entity) =
        (.ok (.ofContent header (data.take length) (.of length block entity (data.take length))),
          p) ∧
      p.isClosed ∧ I p.source (data.drop length) := by
  have begun : (Payload.start s length block entity).Accounted I data length block entity []
      (data.take length) := Payload.accounted_start h
  obtain ⟨p, all, taken, accounts⟩ :=
    (Payload.tracks t data length block entity).readAll_eq quiet ⟨[], begun⟩
      Readable.Demand.isOpen_start
  obtain ⟨p', closed, _⟩ := accounts.close_eq t quiet
  obtain ⟨_, summed, after, _⟩ := accounts.close_ok t closed
  refine ⟨p', ?_, Option.isSome_iff_exists.mpr ⟨_, summed⟩, after.window.1⟩
  simp only [read, all, Outcome.andThen, closed, Outcome.map, Except.map]

/-- However the stream gives its bytes, reading a version block succeeds, takes the declared part
of them and no more, and says of it what its own header and lines deserve. -/
theorem read_verdict (t : Readable.Tracks I E) (quiet : Quiet E) {header : Header}
    (first : header.version = .v1) {s : σ} {data : Bytes} (h : I s data) (length : Nat)
    (block entity : Option Digest.Algorithm) :
    ∃ b p, read header (.start s length block entity) = (.ok b, p) ∧
      p.isClosed ∧ I p.source (data.drop length) ∧ Verdict header length data b := by
  obtain ⟨p, answer, closed, held⟩ := read_start t quiet header h length block entity
  exact ⟨_, p, answer, closed, held, ofContent_verdict first length block entity data⟩

/-- Version 2 is declared and nothing else is right: the scheme, the length, the fields. -/
theorem read_verdict_two :
    let header := Header.parse "http://x/ 0.0.0.0 20080430204825 text/plain 9".toList .v1 (some 0)
    header.version = .v1 ∧
    ∃ b p, read header (.start (Source.ofBytes [0x32, 0x20, 0x30, 0x0A]) 9 none none) =
        (.ok b, p) ∧
      b.version = .v2 ∧
      b.diagnostics = [⟨.invalid, "URL", some "http://x/".toList⟩,
        ⟨.invalid, "ARC record", some "Payload length mismatch".toList⟩,
        ⟨.missing, "Field-description", none⟩] := by
  intro header
  have first : header.version = .v1 := rfl
  obtain ⟨b, p, answer, _, _, verdict⟩ := read_verdict (Source.tracks noError).toTracks
    quiet_noError first (Source.holds_noError (s := Source.ofBytes [0x32, 0x20, 0x30, 0x0A]) rfl)
    9 none none
  have version : b.version = .v2 := verdict.version.trans (by decide)
  refine ⟨first, b, p, answer, version, ?_⟩
  rw [verdict.diagnostics, version]
  decide +kernel

end VersionBlock
end WebArchive.Arc
