import WebArchive.Archive.Dialect
import WebArchive.Proofs.Stream.Lines

/-!
Headings as parts of the bytes that a stream holds: which lines make up the next heading, and what
they are read as. `readHeading_eq` says that a stream gives just that, and stops right behind them;
`readHeading_cases` says where reading breaks off if the stream fails.
-/
namespace WebArchive

def Line.isEmpty (line : Line) : Bool := line.text = [] ∧ line.truncated = false

namespace Warc.HeaderBlock

/-- The lines behind a version line, each with its line feed: through the first empty one, or to
the end of the data. -/
def blockLines (most : Nat) (d : Bytes) : List Bytes :=
  if _some : d = [] then []
  else if (Line.ofBytes most (Line.first d)).isEmpty then [Line.first d]
  else Line.first d :: blockLines most (d.drop (Line.first d).length)
termination_by d.length
decreasing_by
  have := Line.length_first_pos _some
  have := (Line.first_isPrefix d).length_le
  rw [List.length_drop]
  omega

def upToEmpty (lines : List Line) : List Line × Bool :=
  (lines.takeWhile fun line => !line.isEmpty, lines.any Line.isEmpty)

/-- The block that a version line and the lines behind it make up. -/
def ofLines (most : Nat) (version : Bytes) (rest : List Bytes) : HeaderBlock :=
  let read := upToEmpty (rest.map (Line.ofBytes most))
  { versionLine := Line.ofBytes most version, lines := read.1, isTerminated := read.2 }

theorem flatten_blockLines_isPrefix (most : Nat) (d : Bytes) :
    (blockLines most d).flatten <+: d := by
  fun_induction blockLines most d with
  | case1 => exact List.nil_prefix
  | case2 d some empty => simpa using Line.first_isPrefix d
  | case3 d some full ih =>
    obtain ⟨rest, same⟩ := ih
    refine ⟨rest, ?_⟩
    rw [List.flatten_cons, List.append_assoc, same]
    exact List.prefix_iff_eq_append.mp (Line.first_isPrefix d)

variable {σ : Type} [Peekable σ] {I : σ → Bytes → Prop} {E : StreamError → Prop}

/-- The last of these lines is an empty one, with its line feed. -/
def Ended (most : Nat) (lines : List Bytes) : Prop :=
  ∃ last ∈ lines.getLast?, Line.lineFeed ∈ last ∧ (Line.ofBytes most last).isEmpty

instance (most : Nat) (lines : List Bytes) : Decidable (Ended most lines) :=
  inferInstanceAs (Decidable (∃ last ∈ lines.getLast?,
    Line.lineFeed ∈ last ∧ (Line.ofBytes most last).isEmpty))

theorem Ended.of_cons {most : Nat} {line : Bytes} {lines : List Bytes}
    (h : Ended most (line :: lines)) (full : (Line.ofBytes most line).isEmpty = false) :
    Ended most lines := by
  obtain ⟨last, final, fed, empty⟩ := h
  cases lines with
  | nil =>
    simp only [List.getLast?_singleton, Option.mem_def, Option.some.injEq] at final
    rw [final, empty] at full
    cases full
  | cons next rest => exact ⟨last, by simpa using final, fed, empty⟩

theorem blockLines_cons (most : Nat) {d : Bytes} (some : d ≠ []) :
    ∃ rest, blockLines most d = Line.first d :: rest ∧
      (rest = [] ∨ rest = blockLines most (d.drop (Line.first d).length)) := by
  rw [blockLines, dif_neg some]
  split
  · exact ⟨[], rfl, Or.inl rfl⟩
  · exact ⟨_, rfl, Or.inr rfl⟩

/-- Lines that are ended have their line feeds, the first one too. -/
theorem Ended.fed {most : Nat} {d : Bytes} (h : Ended most (blockLines most d)) :
    Line.lineFeed ∈ Line.first d := by
  by_cases some : d = []
  · subst some
    obtain ⟨last, final, _⟩ := h
    simp [blockLines] at final
  · obtain ⟨rest, lines, behind⟩ := blockLines_cons most some
    rw [lines] at h
    cases rest with
    | nil =>
      obtain ⟨last, final, fed, _⟩ := h
      simp only [List.getLast?_singleton, Option.mem_def, Option.some.injEq] at final
      rwa [final]
    | cons line rest =>
      apply Line.fed_of_more
      intro none
      rw [none] at behind
      simp [blockLines] at behind

/-- Reading the lines of a block succeeds, or it breaks off: in front of the line feed of an empty
last line if there is one. -/
theorem readLines_cases (t : Peekable.Tracks I E) (most : Nat) (taken : List Line) {s : σ}
    {d : Bytes} (h : I s d) :
    (∃ s', readLines most taken s =
        (.ok (taken.reverse ++ (upToEmpty ((blockLines most d).map (Line.ofBytes most))).1,
          (upToEmpty ((blockLines most d).map (Line.ofBytes most))).2), s') ∧
      I s' (d.drop (blockLines most d).flatten.length)) ∨
    ∃ e s' front, readLines most taken s = (.error e, s') ∧ Peekable.Breaks I d front e s' ∧
      (Ended most (blockLines most d) → front.length < (blockLines most d).flatten.length) := by
  fun_induction readLines most taken s generalizing d with
  | case1 taken s e next call =>
    rcases Line.read_cases t most h with ⟨_, gave, _⟩ | ⟨_, _, front, gave, inside, breaks⟩
    · exact absurd call (Outcome.ne_error gave)
    · cases call.symm.trans gave
      refine Or.inr ⟨e, next, front, rfl, breaks, ?_⟩
      intro ended
      have short := Line.length_lt_first inside ended.fed
      obtain ⟨rest, lines, _⟩ := blockLines_cons most (Line.ne_nil_of_fed ended.fed)
      rw [lines, List.flatten_cons, List.length_append]
      omega
  | case2 taken s next call =>
    obtain ⟨rfl, left⟩ := Line.read_none t h call
    exact Or.inl ⟨next, by simp [blockLines, upToEmpty], by simpa using left⟩
  | case3 taken s line next call empty =>
    obtain ⟨some, rfl, left⟩ := Line.read_some t h call
    have last : (Line.ofBytes most (Line.first d)).isEmpty = true := by
      simpa [Line.isEmpty] using empty
    have lines : blockLines most d = [Line.first d] := by rw [blockLines, dif_neg some, if_pos last]
    exact Or.inl ⟨next, by simp [lines, upToEmpty, last], by simpa [lines] using left⟩
  | case4 taken s line next call full ih =>
    obtain ⟨some, rfl, left⟩ := Line.read_some t h call
    have going : ¬ (Line.ofBytes most (Line.first d)).isEmpty = true := by
      simpa [Line.isEmpty] using full
    have lines : blockLines most d =
        Line.first d :: blockLines most (d.drop (Line.first d).length) := by
      rw [blockLines, dif_neg some, if_neg going]
    rcases ih left with ⟨s', gave, held⟩ | ⟨e, s', front, gave, breaks, before⟩
    · refine Or.inl ⟨s', ?_, ?_⟩
      · rw [gave, lines]
        simp [upToEmpty, going]
      · rw [List.drop_drop] at held
        rw [lines, List.flatten_cons, List.length_append]
        exact held
    · refine Or.inr ⟨e, s', Line.first d ++ front, gave, Line.breaks_behind_first breaks, ?_⟩
      intro ended
      rw [lines] at ended ⊢
      have short := before (ended.of_cons (by simpa using going))
      rw [List.length_append, List.flatten_cons, List.length_append]
      omega

end Warc.HeaderBlock

namespace Dialect

/-- The lines that make up the next heading, none at the end of the data. -/
def headerLines (dialect : Dialect) (options : ReaderOptions) (d : Bytes) : List Bytes :=
  if d = [] then []
  else Line.first d ::
    match dialect with
    | .arc _ => []
    | .warc => Warc.HeaderBlock.blockLines options.maxHeaderLine (d.drop (Line.first d).length)

def heading (dialect : Dialect) (options : ReaderOptions) (startOffset : Option Nat) :
    List Bytes → Option Heading
  | [] => none
  | line :: rest =>
    match dialect with
    | .arc version =>
      some (.arc (.ofLine (.ofBytes options.maxHeaderLine line) (version.getD .v1) startOffset))
    | .warc =>
      some (.warc ((Warc.HeaderBlock.ofLines options.maxHeaderLine line rest).header
        options.maxHeaderLines startOffset))

theorem flatten_headerLines_isPrefix (dialect : Dialect) (options : ReaderOptions) (d : Bytes) :
    (dialect.headerLines options d).flatten <+: d := by
  unfold headerLines
  split
  · exact List.nil_prefix
  · have whole := List.prefix_iff_eq_append.mp (Line.first_isPrefix d)
    cases dialect with
    | arc version => simpa using Line.first_isPrefix d
    | warc =>
      obtain ⟨rest, same⟩ := Warc.HeaderBlock.flatten_blockLines_isPrefix options.maxHeaderLine
        (d.drop (Line.first d).length)
      exact ⟨rest, by rw [List.flatten_cons, List.append_assoc, same, whole]⟩

theorem headerLines_nil (dialect : Dialect) (options : ReaderOptions) :
    dialect.headerLines options [] = [] := rfl

theorem length_headerLines_pos (dialect : Dialect) (options : ReaderOptions) {d : Bytes}
    (some : d ≠ []) : 0 < (dialect.headerLines options d).flatten.length := by
  have := Line.length_first_pos some
  simp only [headerLines, if_neg some, List.flatten_cons, List.length_append]
  omega

/-- The lines of a heading are all there: an ARC header ends with a line feed, a WARC header
with an empty line. -/
def Ended (dialect : Dialect) (options : ReaderOptions) (lines : List Bytes) : Prop :=
  match dialect with
  | .arc _ => ∃ last ∈ lines.getLast?, Line.lineFeed ∈ last
  | .warc => Warc.HeaderBlock.Ended options.maxHeaderLine lines.tail

theorem Ended.fed {dialect : Dialect} {options : ReaderOptions} {d : Bytes}
    (h : dialect.Ended options (dialect.headerLines options d)) :
    Line.lineFeed ∈ Line.first d := by
  by_cases some : d = []
  · subst some
    cases dialect with
    | arc version =>
      obtain ⟨last, final, _⟩ := h
      simp [headerLines] at final
    | warc =>
      obtain ⟨last, final, _⟩ := h
      simp [headerLines] at final
  · cases dialect with
    | arc version =>
      obtain ⟨last, final, fed⟩ := h
      simp only [headerLines, if_neg some, List.getLast?_singleton, Option.mem_def,
        Option.some.injEq] at final
      rwa [final]
    | warc =>
      apply Line.fed_of_more
      intro none
      obtain ⟨last, final, _⟩ := h
      simp [headerLines, some, none, Warc.HeaderBlock.blockLines] at final

variable {σ : Type} [Peekable σ] {I : σ → Bytes → Prop} {E : StreamError → Prop}

/-- Reading a heading takes its lines, or breaks off in front of their end. -/
theorem readHeading_cases (t : Peekable.Tracks I E) (dialect : Dialect) (options : ReaderOptions)
    (startOffset : Option Nat) {s : σ} {d : Bytes} (h : I s d) :
    (∃ s', dialect.readHeading options startOffset s =
        (.ok (dialect.heading options startOffset (dialect.headerLines options d)), s') ∧
      I s' (d.drop (dialect.headerLines options d).flatten.length)) ∨
    ∃ e s' front, dialect.readHeading options startOffset s = (.error e, s') ∧
      Peekable.Breaks I d front e s' ∧
      (dialect.Ended options (dialect.headerLines options d) →
        front.length < (dialect.headerLines options d).flatten.length) := by
  have early {front : Bytes} (inside : front <+: d.takeWhile (· ≠ Line.lineFeed))
      (ended : dialect.Ended options (dialect.headerLines options d)) :
      front.length < (dialect.headerLines options d).flatten.length := by
    have short := Line.length_lt_first inside ended.fed
    have some := Line.ne_nil_of_fed ended.fed
    simp only [headerLines, if_neg some, List.flatten_cons, List.length_append]
    omega
  rcases Line.read_cases t options.maxHeaderLine h with ⟨s₁, gave, left⟩ |
    ⟨e, s', front, gave, inside, breaks⟩
  · by_cases none : d = []
    · subst none
      refine Or.inl ⟨s₁, ?_, left⟩
      rw [if_pos rfl] at gave
      cases dialect with
      | arc version => simp [readHeading, gave, Outcome.map, Except.map, headerLines, heading]
      | warc =>
        simp [readHeading, Warc.HeaderBlock.read, gave, Outcome.andThen, Outcome.map, Except.map,
          headerLines, heading]
    · rw [if_neg none] at gave
      cases dialect with
      | arc version =>
        refine Or.inl ⟨s₁, ?_, ?_⟩
        · simp [readHeading, gave, Outcome.map, Except.map, headerLines, none, heading]
        · simpa [headerLines, none] using left
      | warc =>
        rcases Warc.HeaderBlock.readLines_cases t options.maxHeaderLine [] left with
          ⟨s₂, lines, left⟩ | ⟨e, s', front, lines, breaks, before⟩
        · refine Or.inl ⟨s₂, ?_, ?_⟩
          · simp [readHeading, Warc.HeaderBlock.read, gave, lines, Outcome.andThen, Outcome.map,
              Except.map, headerLines, none, heading, Warc.HeaderBlock.ofLines]
          · rw [List.drop_drop] at left
            simpa only [headerLines, if_neg none, List.flatten_cons, List.length_append] using left
        · refine Or.inr ⟨e, s', Line.first d ++ front, ?_, Line.breaks_behind_first breaks, ?_⟩
          · simp [readHeading, Warc.HeaderBlock.read, gave, lines, Outcome.andThen, Outcome.map,
              Except.map]
          · intro ended
            simp only [Ended, headerLines, if_neg none, List.tail_cons] at ended ⊢
            have short := before ended
            rw [List.length_append, List.flatten_cons, List.length_append]
            omega
  · refine Or.inr ⟨e, s', front, ?_, breaks, early inside⟩
    cases dialect with
    | arc version => simp [readHeading, gave, Outcome.map, Except.map]
    | warc =>
      simp [readHeading, Warc.HeaderBlock.read, gave, Outcome.andThen, Outcome.map, Except.map]

theorem readHeading_eq (t : Peekable.Tracks I E) (quiet : Quiet E) (dialect : Dialect)
    (options : ReaderOptions) (startOffset : Option Nat) {s : σ} {d : Bytes} (h : I s d) :
    ∃ s', dialect.readHeading options startOffset s =
        (.ok (dialect.heading options startOffset (dialect.headerLines options d)), s') ∧
      I s' (d.drop (dialect.headerLines options d).flatten.length) := by
  rcases readHeading_cases t dialect options startOffset h with answer | ⟨_, _, _, _, breaks, _⟩
  · exact answer
  · exact absurd breaks (t.not_breaks quiet)

end Dialect
end WebArchive
