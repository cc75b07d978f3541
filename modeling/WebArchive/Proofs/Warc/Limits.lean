import WebArchive.Proofs.Archive.Headings
import WebArchive.Proofs.Stream.Cutting

/-!
What the limits on lines do to a header block. They decide what is kept of it, and have no part in
where it ends: a line closes a block if its bytes do (`isEmpty_ofBytes`), whatever is kept of them.
`read_extent` says which bytes a block takes and what any two readers agree on.
-/
namespace WebArchive

namespace Line

/-- At most a carriage return stands in front of the line feed. -/
def closes (bytes : Bytes) : Bool := body bytes = [] || body bytes = [carriageReturn]

/-- A line with more in it is not taken for an empty one, even if nothing of it is kept but a
carriage return: then it is reported as cut. -/
theorem isEmpty_cut {most : Nat} (positive : 0 < most) (body : Bytes) :
    (cut most body).isEmpty = (body = [] || body = [carriageReturn]) := by
  rw [Bool.eq_iff_iff]
  simp only [isEmpty, cut, decide_eq_true_iff, Bool.or_eq_true, Text.ofLineBytes_eq_nil,
    decide_eq_false_iff_not, kept]
  constructor
  · rintro ⟨none, whole⟩
    rw [List.take_of_length_le (Nat.not_lt.mp whole)] at none
    exact dropReturn_eq_nil.mp none
  · intro short
    have fits : body.length ≤ most := by
      rcases short with rfl | rfl
      · exact Nat.zero_le most
      · exact positive
    rw [List.take_of_length_le fits]
    exact ⟨dropReturn_eq_nil.mpr short, Nat.not_lt.mpr fits⟩

theorem isEmpty_ofBytes {most : Nat} (positive : 0 < most) (bytes : Bytes) :
    (ofBytes most bytes).isEmpty = closes bytes := by
  rw [ofBytes_eq]
  exact isEmpty_cut positive (body bytes)

theorem first_cons_of_ne {b : UInt8} (going : b ≠ lineFeed) (bs : Bytes) :
    first (b :: bs) = b :: first bs := by
  simp [first, going]

end Line

namespace Bytes
open Line (lineFeed first)

/-- The lines with one more byte at the start of the first one. -/
def consFirst (b : UInt8) : List Bytes → List Bytes
  | [] => [[b]]
  | line :: rest => (b :: line) :: rest

/-- The lines of some bytes, each through its line feed. -/
def lines : Bytes → List Bytes
  | [] => []
  | b :: bs => if b = lineFeed then [b] :: lines bs else consFirst b (lines bs)

theorem flatten_consFirst (b : UInt8) (ls : List Bytes) :
    (consFirst b ls).flatten = b :: ls.flatten := by
  cases ls with
  | nil => rfl
  | cons line rest => rfl

theorem flatten_lines (d : Bytes) : (lines d).flatten = d := by
  induction d with
  | nil => rfl
  | cons b bs ih =>
    by_cases stop : b = lineFeed
    · rw [lines, if_pos stop, List.flatten_cons, ih, List.singleton_append]
    · rw [lines, if_neg stop, flatten_consFirst, ih]

theorem lines_eq {d : Bytes} (some : d ≠ []) :
    lines d = first d :: lines (d.drop (first d).length) := by
  induction d with
  | nil => exact absurd rfl some
  | cons b bs ih =>
    by_cases stop : b = lineFeed
    · simp [lines, first, stop]
    · rw [lines, if_neg stop, Line.first_cons_of_ne stop, List.length_cons, List.drop_succ_cons]
      by_cases more : bs = []
      · simp [more, lines, first, consFirst]
      · rw [ih more, consFirst]

end Bytes

namespace Warc.HeaderBlock
open Line (closes first ofBytes cut)
open Readable (weight)

/-- The lines through the first one that closes the block. -/
def through (behind : List Bytes) : List Bytes :=
  behind.takeWhile (!closes ·) ++ (behind.find? closes).toList

/-- The lines behind the version line of a block. -/
def behindVersion (d : Bytes) : List Bytes := Bytes.lines (d.drop (first d).length)

/-- The lines of a block behind its version line, without the one that closes it. -/
def headerLines (d : Bytes) : List Bytes := (behindVersion d).takeWhile (!closes ·)

def isClosed (d : Bytes) : Bool := (behindVersion d).any closes

/-- The bytes that a block takes: its version line, its header lines and the line that closes it. -/
def extent (d : Bytes) : Bytes := first d ++ (through (behindVersion d)).flatten

theorem through_cons_of_closes {line : Bytes} (h : closes line = true) (rest : List Bytes) :
    through (line :: rest) = [line] := by
  simp [through, h]

theorem through_cons_of_not {line : Bytes} (h : closes line = false) (rest : List Bytes) :
    through (line :: rest) = line :: through rest := by
  simp [through, h]

theorem through_isPrefix (behind : List Bytes) : through behind <+: behind := by
  induction behind with
  | nil => exact List.prefix_refl _
  | cons line rest ih =>
    cases h : closes line with
    | true => simp [through_cons_of_closes h]
    | false => simpa [through_cons_of_not h] using ih

theorem through_of_open {behind : List Bytes} (unclosed : behind.any closes = false) :
    through behind = behind := by
  induction behind with
  | nil => rfl
  | cons line rest ih =>
    rw [List.any_cons, Bool.or_eq_false_iff] at unclosed
    rw [through_cons_of_not unclosed.1, ih unclosed.2]

theorem blockLines_eq {most : Nat} (positive : 0 < most) (d : Bytes) :
    blockLines most d = through (Bytes.lines d) := by
  fun_induction blockLines most d with
  | case1 => rfl
  | case2 d some empty =>
    rw [Line.isEmpty_ofBytes positive] at empty
    rw [Bytes.lines_eq some, through_cons_of_closes empty]
  | case3 d some full ih =>
    rw [Line.isEmpty_ofBytes positive, Bool.not_eq_true] at full
    rw [Bytes.lines_eq some, through_cons_of_not full, ih]

theorem upToEmpty_through {most : Nat} (positive : 0 < most) (behind : List Bytes) :
    upToEmpty ((through behind).map (ofBytes most)) =
      ((behind.takeWhile (!closes ·)).map (ofBytes most), behind.any closes) := by
  induction behind with
  | nil => rfl
  | cons line rest ih =>
    have same := Line.isEmpty_ofBytes positive line
    cases h : closes line with
    | true => simp [through_cons_of_closes h, upToEmpty, same, h]
    | false =>
      rw [upToEmpty, Prod.mk.injEq] at ih ⊢
      simp [through_cons_of_not h, same, h, ih]

variable {σ : Type} [Peekable σ] {I : σ → Bytes → Prop} {E : StreamError → Prop}

theorem readLines_of_error {most : Nat} {s s' : σ} {e : StreamError}
    (call : Line.read most s = (.error e, s')) (taken : List Line) :
    readLines most taken s = (.error e, s') := by
  rw [readLines]
  split <;> rename_i answer <;> cases call.symm.trans answer
  rfl

theorem readLines_of_none {most : Nat} {s s' : σ} (call : Line.read most s = (.ok none, s'))
    (taken : List Line) : readLines most taken s = (.ok (taken.reverse, false), s') := by
  rw [readLines]
  split <;> rename_i answer <;> cases call.symm.trans answer
  rfl

theorem readLines_of_some {most : Nat} {s s' : σ} {line : Line}
    (call : Line.read most s = (.ok (some line), s')) (taken : List Line) :
    readLines most taken s = if line.isEmpty then (.ok (taken.reverse, true), s')
      else readLines most (line :: taken) s' := by
  rw [readLines]
  split <;> rename_i answer <;> cases call.symm.trans answer
  simp only [Line.isEmpty, decide_eq_true_iff]

/-- All limits have the same outcome on the lines of a block, save for the cuts that they make. -/
theorem readLines_alike (s : σ) :
    (∃ e s', ∀ most, 0 < most → ∀ taken, readLines most taken s = (.error e, s')) ∨
    ∃ (bodies : List Bytes) (isTerminated : Bool) (s' : σ), ∀ most, 0 < most → ∀ taken,
      readLines most taken s =
        (.ok (taken.reverse ++ bodies.map (cut most), isTerminated), s') := by
  -- by recursion on the stream, whose lines are the same under every limit
  rcases Line.read_alike s with ⟨e, s', failed⟩ | ⟨s', ended⟩ | ⟨body, s', found⟩
  · exact Or.inl ⟨e, s', fun most _ taken => readLines_of_error (failed most) taken⟩
  · refine Or.inr ⟨[], false, s', fun most _ taken => ?_⟩
    rw [readLines_of_none (ended most), List.map_nil, List.append_nil]
  · by_cases empty : body = [] ∨ body = [Line.carriageReturn]
    · refine Or.inr ⟨[], true, s', fun most positive taken => ?_⟩
      rw [readLines_of_some (found most), if_pos (by simpa [Line.isEmpty_cut positive] using empty),
        List.map_nil, List.append_nil]
    · have going {most : Nat} (positive : 0 < most) (taken : List Line) :
          readLines most taken s = readLines most (cut most body :: taken) s' := by
        rw [readLines_of_some (found most)]
        exact if_neg (by simpa [Line.isEmpty_cut positive] using empty)
      rcases readLines_alike s' with ⟨e, s'', failed⟩ | ⟨bodies, isTerminated, s'', read⟩
      · refine Or.inl ⟨e, s'', fun most positive taken => ?_⟩
        rw [going positive, failed most positive]
      · refine Or.inr ⟨body :: bodies, isTerminated, s'', fun most positive taken => ?_⟩
        rw [going positive, read most positive, List.reverse_cons, List.append_assoc,
          List.map_cons, List.singleton_append]
termination_by weight s
decreasing_by exact Line.weight_read_lt (found 1)

theorem read_alike (s : σ) :
    (∃ e s', ∀ most, 0 < most → read most s = (.error e, s')) ∨
    (∃ s', ∀ most, 0 < most → read most s = (.ok none, s')) ∨
    ∃ (version : Bytes) (bodies : List Bytes) (isTerminated : Bool) (s' : σ), ∀ most, 0 < most →
      read most s = (.ok (some ⟨cut most version, bodies.map (cut most), isTerminated⟩), s') := by
  rcases Line.read_alike s with ⟨e, s', failed⟩ | ⟨s', ended⟩ | ⟨version, s₁, found⟩
  · exact Or.inl ⟨e, s', fun most _ => by rw [read, failed most]; rfl⟩
  · exact Or.inr (Or.inl ⟨s', fun most _ => by rw [read, ended most]; rfl⟩)
  · rcases readLines_alike s₁ with ⟨e, s', failed⟩ | ⟨bodies, isTerminated, s', lines⟩
    · refine Or.inl ⟨e, s', fun most positive => ?_⟩
      rw [read, found most]
      exact congrArg (Outcome.map _) (failed most positive [])
    · refine Or.inr (Or.inr ⟨version, bodies, isTerminated, s', fun most positive => ?_⟩)
      rw [read, found most]
      exact congrArg (Outcome.map _) (lines most positive [])

theorem read_cases (t : Peekable.Tracks I E) {most : Nat} (positive : 0 < most) {s : σ} {d : Bytes}
    (held : I s d) :
    (∃ s', read most s = (.ok (if d = [] then none else some ⟨ofBytes most (first d),
        (headerLines d).map (ofBytes most), isClosed d⟩), s') ∧ I s' (d.drop (extent d).length)) ∨
    ∃ e s', read most s = (.error e, s') ∧ E e ∧ ¬ e.isInterrupted := by
  rcases Line.read_cases t most held with ⟨s₁, found, left⟩ | ⟨e, s', _, failed, _, breaks⟩
  · by_cases none : d = []
    · subst none
      exact Or.inl ⟨s₁, by rw [read, found]; rfl, left⟩
    · rw [if_neg none] at found ⊢
      rcases readLines_cases t most [] left with ⟨s', lines, held'⟩ | ⟨e, s', _, failed, breaks, _⟩
      · rw [blockLines_eq positive, upToEmpty_through positive] at lines
        refine Or.inl ⟨s', ?_, ?_⟩
        · rw [read, found]
          exact congrArg (Outcome.map _) lines
        · rw [blockLines_eq positive, List.drop_drop] at held'
          rwa [extent, List.length_append]
      · obtain ⟨able, final, _⟩ := t.breaks_error breaks
        refine Or.inr ⟨e, s', ?_, able, final⟩
        rw [read, found]
        exact congrArg (Outcome.map _) failed
  · obtain ⟨able, final, _⟩ := t.breaks_error breaks
    exact Or.inr ⟨e, s', by rw [read, failed]; rfl, able, final⟩

theorem read_none (t : Peekable.Tracks I E) {most : Nat} (positive : 0 < most) {s s' : σ}
    {d : Bytes} (held : I s d) (call : read most s = (.ok none, s')) : d = [] := by
  rcases read_cases t positive held with ⟨_, found, _⟩ | ⟨_, _, failed, _⟩
  · obtain ⟨same, _⟩ := Outcome.ok_inj call found
    by_cases none : d = []
    · exact none
    · simp [none] at same
  · exact absurd failed (Outcome.ne_error call)

theorem read_error (t : Peekable.Tracks I E) {most : Nat} (positive : 0 < most) {s s' : σ}
    {d : Bytes} {e : StreamError} (held : I s d) (call : read most s = (.error e, s')) :
    E e ∧ ¬ e.isInterrupted := by
  rcases read_cases t positive held with ⟨_, found, _⟩ | ⟨_, _, failed, possible⟩
  · exact absurd call (Outcome.ne_error found)
  · cases call.symm.trans failed
    exact possible

theorem read_some (t : Peekable.Tracks I E) {most : Nat} (positive : 0 < most) {s s' : σ}
    {d : Bytes} {block : HeaderBlock} (held : I s d) (call : read most s = (.ok (some block), s')) :
    block = ⟨ofBytes most (first d), (headerLines d).map (ofBytes most), isClosed d⟩ ∧
      I s' (d.drop (extent d).length) := by
  rcases read_cases t positive held with ⟨_, found, left⟩ | ⟨_, _, failed, _⟩
  · obtain ⟨same, rfl⟩ := Outcome.ok_inj call found
    by_cases none : d = []
    · simp [none] at same
    · rw [if_neg none] at same
      exact ⟨Option.some.inj same, left⟩
  · exact absurd failed (Outcome.ne_error call)

/-- The block that is read of some bytes. The limits decide only how many of its lines are kept and
what is kept of a line. -/
structure Shows (o : ReaderOptions) (d : Bytes) (block : HeaderBlock) : Prop where
  versionLine : block.versionLine = ofBytes o.maxHeaderLine (first d)
  isTerminated : block.isTerminated = isClosed d
  count : block.lines.length = (headerLines d).length
  kept : block.kept o.maxHeaderLines =
    ((headerLines d).take o.maxHeaderLines).map (ofBytes o.maxHeaderLine)

theorem extent_isPrefix (d : Bytes) : extent d <+: d := by
  obtain ⟨others, same⟩ := through_isPrefix (behindVersion d)
  refine ⟨others.flatten, ?_⟩
  rw [extent, List.append_assoc, ← List.flatten_append, same, behindVersion, Bytes.flatten_lines]
  exact List.prefix_iff_eq_append.mp (Line.first_isPrefix d)

theorem extent_of_open {d : Bytes} (unclosed : isClosed d = false) : extent d = d := by
  rw [extent, through_of_open unclosed, behindVersion, Bytes.flatten_lines]
  exact List.prefix_iff_eq_append.mp (Line.first_isPrefix d)

/-- Any two limits on lines and on their number stop a stream at the same place. They agree on
whether there is a block and whether it is closed, on the number of its lines and on an error, and
of the lines each keeps the first ones. The block takes its lines through the first one with at
most a carriage return in it, or all there is. -/
theorem read_extent (t : Peekable.Tracks I E) {s : σ} {d : Bytes} (held : I s d)
    {o o' : ReaderOptions} (positive : 0 < o.maxHeaderLine) (positive' : 0 < o'.maxHeaderLine) :
    (d = [] ∧ ∃ s', read o.maxHeaderLine s = (.ok none, s') ∧
      read o'.maxHeaderLine s = (.ok none, s')) ∨
    (∃ block block' s' rest, read o.maxHeaderLine s = (.ok (some block), s') ∧
      read o'.maxHeaderLine s = (.ok (some block'), s') ∧
      d = extent d ++ rest ∧ I s' rest ∧ (isClosed d = false → rest = []) ∧
      block.Shows o d ∧ block'.Shows o' d) ∨
    ∃ e s', read o.maxHeaderLine s = (.error e, s') ∧ read o'.maxHeaderLine s = (.error e, s') ∧
      E e ∧ ¬ e.isInterrupted := by
  have shown (o : ReaderOptions) : Shows o d ⟨ofBytes o.maxHeaderLine (first d),
      (headerLines d).map (ofBytes o.maxHeaderLine), isClosed d⟩ :=
    ⟨rfl, rfl, List.length_map .., List.map_take.symm⟩
  rcases read_alike s with ⟨e, s', failed⟩ | ⟨s', ended⟩ | ⟨_, _, _, s', found⟩
  · obtain ⟨able, final⟩ := read_error t positive held (failed _ positive)
    exact Or.inr (Or.inr ⟨e, s', failed _ positive, failed _ positive', able, final⟩)
  · exact Or.inl ⟨read_none t positive held (ended _ positive), s', ended _ positive,
      ended _ positive'⟩
  · obtain ⟨block, left⟩ := read_some t positive held (found _ positive)
    obtain ⟨block', _⟩ := read_some t positive' held (found _ positive')
    refine Or.inr (Or.inl ⟨_, _, s', _, found _ positive, found _ positive',
      (List.prefix_iff_eq_append.mp (extent_isPrefix d)).symm, left, ?_, ?_, ?_⟩)
    · intro unclosed
      rw [extent_of_open unclosed, List.drop_length]
    · rw [block]
      exact shown o
    · rw [block']
      exact shown o'

/-- A header line that is interrupted in front of its line feed. The one reader keeps a byte of a
line and no lines, the other one keeps all of it. -/
theorem read_extent_least :
    let s : Source := ⟨[.chunk [0x57, 0x0A, 0x61, 0x62, 0x0D], .failure (.device .interrupted ""),
      .chunk [0x0A, 0x0D, 0x0A, 0x78]]⟩
    let o : ReaderOptions := { maxHeaderLine := 1, maxHeaderLines := 0 }
    let o' : ReaderOptions := {}
    s.Holds (·.isInterrupted) [0x57, 0x0A, 0x61, 0x62, 0x0D, 0x0A, 0x0D, 0x0A, 0x78] ∧
      0 < o.maxHeaderLine ∧ 0 < o'.maxHeaderLine ∧
      ∃ block block' s', read o.maxHeaderLine s = (.ok (some block), s') ∧
        read o'.maxHeaderLine s = (.ok (some block'), s') ∧
        s'.Holds (·.isInterrupted) [0x78] ∧
        block.isTerminated = true ∧ block'.isTerminated = true ∧
        block.lines.length = 1 ∧ block'.lines.length = 1 ∧
        block.kept o.maxHeaderLines = [] ∧
        block'.kept o'.maxHeaderLines = [⟨['a', 'b'], false⟩] := by
  intro s o o'
  have held : s.Holds (·.isInterrupted)
      [0x57, 0x0A, 0x61, 0x62, 0x0D, 0x0A, 0x0D, 0x0A, 0x78] :=
    ⟨rfl, by simp [s, Source.failures, StreamError.isInterrupted, StreamError.kind]⟩
  refine ⟨held, by decide, by decide, ?_⟩
  rcases read_extent (Source.tracks (·.isInterrupted)) held
      (show 0 < o.maxHeaderLine by decide) (show 0 < o'.maxHeaderLine by decide) with
    ⟨none, _⟩ | ⟨block, block', s', rest, gave, gave', split, left, _, shown, shown'⟩ |
      ⟨_, _, _, _, able, final⟩
  · cases none
  · obtain rfl : rest = [0x78] := List.append_cancel_left split.symm
    exact ⟨block, block', s', gave, gave', left, shown.isTerminated, shown'.isTerminated,
      shown.count, shown'.count, shown.kept, shown'.kept.trans (by decide)⟩
  · exact absurd able final

end Warc.HeaderBlock
end WebArchive
