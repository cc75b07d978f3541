import WebArchive.Proofs.Stream.Tracking
import WebArchive.Stream.Line

/-!
Lines and blank runs as parts of the bytes that a stream holds. However the bytes come, `read`
gives the line that the first line's bytes make up, and `skipBlank` takes exactly the carriage
returns and line feeds in front.
-/
namespace WebArchive.Line

def isBlank (b : UInt8) : Bool := b = carriageReturn || b = lineFeed

/-- The bytes of the first line, through its line feed if it has one. -/
def first (d : Bytes) : Bytes := d.take ((d.takeWhile (· ≠ lineFeed)).length + 1)

def ofBytes (most : Nat) (bytes : Bytes) : Line :=
  (Kept.push most {} (bytes.takeWhile (· ≠ lineFeed))).toLine

theorem first_isPrefix (d : Bytes) : first d <+: d := List.take_prefix ..

theorem length_first_pos {d : Bytes} (some : d ≠ []) : 0 < (first d).length := by
  have := List.length_pos_iff.mpr some
  rw [first, List.length_take]
  omega

theorem drop_length_first (d : Bytes) :
    d.drop (first d).length = d.drop ((d.takeWhile (· ≠ lineFeed)).length + 1) :=
  drop_length_take _ d

theorem takeWhile_first (d : Bytes) :
    (first d).takeWhile (· ≠ lineFeed) = d.takeWhile (· ≠ lineFeed) := by
  unfold first
  induction d with
  | nil => rfl
  | cons b bs ih =>
    by_cases stop : b = lineFeed
    · simp [stop]
    · simpa [stop, List.takeWhile_cons] using ih

/-- A first line without its line feed is all there is. -/
theorem first_eq (d : Bytes) :
    first d = d.takeWhile (· ≠ lineFeed) ++ [lineFeed] ∨
      first d = d ∧ d.takeWhile (· ≠ lineFeed) = d := by
  by_cases found : (d.takeWhile (· ≠ lineFeed)).length < d.length
  · have through := take_through [] found
    rw [List.append_nil] at through
    exact Or.inl through
  · obtain ⟨whole, _⟩ := takeWhile_of_absent [] found
    refine Or.inr ⟨?_, whole⟩
    rw [first, whole, List.take_of_length_le (Nat.le_succ _)]

theorem first_fed {text : Bytes} (unbroken : lineFeed ∉ text) (rest : Bytes) :
    first (text ++ [lineFeed] ++ rest) = text ++ [lineFeed] := by
  obtain ⟨whole, found⟩ := takeWhile_stopped unbroken
  rw [first, takeWhile_of_found found, take_through rest found, whole]

theorem length_lt_first {d front : Bytes} (inside : front <+: d.takeWhile (· ≠ lineFeed))
    (fed : lineFeed ∈ first d) : front.length < (first d).length := by
  have le := inside.length_le
  rcases first_eq d with same | ⟨same, whole⟩
  · rw [same, List.length_append, List.length_singleton]
    exact Nat.lt_succ_of_le le
  · rw [same, ← whole] at fed
    exact absurd fed (not_mem_takeWhile lineFeed d)

theorem ne_nil_of_fed {d : Bytes} (fed : lineFeed ∈ first d) : d ≠ [] := by
  rintro rfl
  simp [first] at fed

theorem fed_of_more {d : Bytes} (more : d.drop (first d).length ≠ []) : lineFeed ∈ first d := by
  rcases first_eq d with same | ⟨same, _⟩
  · simp [same]
  · rw [same, List.drop_length] at more
    exact absurd rfl more

theorem takeWhile_append_blank {blank : Bytes} (all : blank.all isBlank) (d : Bytes) :
    (blank ++ d).takeWhile isBlank = blank ++ d.takeWhile isBlank :=
  List.takeWhile_append_of_pos (List.all_eq_true.mp all)

theorem dropWhile_append_blank {blank : Bytes} (all : blank.all isBlank) (d : Bytes) :
    (blank ++ d).dropWhile isBlank = d.dropWhile isBlank :=
  List.dropWhile_append_of_pos (List.all_eq_true.mp all)

theorem dropWhile_of_all {d : Bytes} (blank : d.all isBlank) : d.dropWhile isBlank = [] := by
  have all := dropWhile_append_blank blank []
  rwa [List.append_nil] at all

variable {σ : Type} [Peekable σ] {I : σ → Bytes → Prop} {E : StreamError → Prop}

/-- What breaks off behind the first line breaks off in the data. -/
theorem breaks_behind_first {d front : Bytes} {e : StreamError} {s' : σ}
    (h : Peekable.Breaks I (d.drop (first d).length) front e s') :
    Peekable.Breaks I d (first d ++ front) e s' := by
  have breaks := h.behind (first d)
  rwa [List.prefix_iff_eq_append.mp (first_isPrefix d)] at breaks

/-- The rest of a line is what comes before the next line feed, unless the stream fails there. -/
theorem readRest_cases (t : Peekable.Tracks I E) (most : Nat) (kept : Option Kept) {s : σ}
    {d : Bytes} (h : I s d) :
    (∃ s', readRest most kept s =
        (.ok (if d = [] then kept
          else some ((kept.getD {}).push most (d.takeWhile (· ≠ lineFeed)))), s') ∧
      I s' (d.drop ((d.takeWhile (· ≠ lineFeed)).length + 1))) ∨
    ∃ e s' front, readRest most kept s = (.error e, s') ∧ front <+: d.takeWhile (· ≠ lineFeed) ∧
      Peekable.Breaks I d front e s' := by
  fun_induction readRest most kept s generalizing d with
  | case1 kept s e next call =>
    exact Or.inr ⟨e, next, [], rfl, List.nil_prefix, Peekable.breaks_here h call⟩
  | case2 kept s next call =>
    obtain ⟨_, none, left, _⟩ := t.fillOn_ok h call
    obtain rfl := none rfl
    exact Or.inl ⟨next, rfl, left⟩
  | case3 kept s b bs next call content more =>
    rename_i found
    obtain ⟨⟨rest, rfl⟩, _, _, after⟩ := t.fillOn_ok h call
    rw [takeWhile_of_found found]
    exact Or.inl ⟨_, rfl, after _ found⟩
  | case4 kept s b bs next call content more absent =>
    rename_i ih
    obtain ⟨⟨rest, rfl⟩, _, _, after⟩ := t.fillOn_ok h call
    have left : I (Peekable.consume next (bs.length + 1)) rest := by
      simpa using after (bs.length + 1) (by simp)
    obtain ⟨same, whole⟩ := takeWhile_of_absent rest absent
    rcases ih left with ⟨s', gave, held⟩ | ⟨e, s', front, gave, inside, breaks⟩
    · refine Or.inl ⟨s', ?_, ?_⟩
      · have joined : (if rest = [] then some more
            else some (more.push most (rest.takeWhile (· ≠ lineFeed)))) =
            some (more.push most (rest.takeWhile (· ≠ lineFeed))) := by
          split
          · rename_i last
            rw [last, List.takeWhile_nil, Kept.push_append, List.append_nil]
          · rfl
        rw [gave, Option.getD_some, joined, whole, if_neg (by simp), ← Kept.push_append]
        exact congrArg (fun front => ((.ok (some (((kept.getD {}).push most front).push most _)),
          s') : Answer σ (Option Kept))) same
      · rw [whole, List.length_append, Nat.add_assoc, List.drop_length_add_append]
        exact held
    · refine Or.inr ⟨e, s', b :: bs ++ front, gave, ?_, breaks.behind (b :: bs)⟩
      rw [whole]
      exact List.prefix_append_right_inj _ |>.mpr inside

theorem read_cases (t : Peekable.Tracks I E) (most : Nat) {s : σ} {d : Bytes} (h : I s d) :
    (∃ s', read most s = (.ok (if d = [] then none else some (ofBytes most (first d))), s') ∧
      I s' (d.drop (first d).length)) ∨
    ∃ e s' front, read most s = (.error e, s') ∧ front <+: d.takeWhile (· ≠ lineFeed) ∧
      Peekable.Breaks I d front e s' := by
  rcases readRest_cases t most none h with ⟨s', gave, left⟩ | ⟨e, s', front, gave, inside, breaks⟩
  · refine Or.inl ⟨s', ?_, by rwa [drop_length_first]⟩
    rw [read, gave, ofBytes, takeWhile_first]
    by_cases none : d = [] <;> simp [none, Outcome.map, Except.map]
  · exact Or.inr ⟨e, s', front, by rw [read, gave]; rfl, inside, breaks⟩

/-- A line that is read is the first one; none only at the end. -/
theorem read_ok (t : Peekable.Tracks I E) {most : Nat} {s s' : σ} {d : Bytes}
    {line : Option Line} (h : I s d) (call : read most s = (.ok line, s')) :
    line = (if d = [] then none else some (ofBytes most (first d))) ∧
      I s' (d.drop (first d).length) := by
  rcases read_cases t most h with ⟨_, gave, left⟩ | ⟨_, _, _, gave, _⟩
  · obtain ⟨rfl, rfl⟩ := Outcome.ok_inj call gave
    exact ⟨rfl, left⟩
  · exact absurd gave (Outcome.ne_error call)

theorem read_none (t : Peekable.Tracks I E) {s s' : σ} {d : Bytes} {most : Nat} (h : I s d)
    (call : read most s = (.ok none, s')) : d = [] ∧ I s' [] := by
  obtain ⟨same, left⟩ := read_ok t h call
  by_cases none : d = []
  · subst none
    exact ⟨rfl, left⟩
  · simp [none] at same

theorem read_some (t : Peekable.Tracks I E) {s s' : σ} {d : Bytes} {most : Nat} {line : Line}
    (h : I s d) (call : read most s = (.ok (some line), s')) :
    d ≠ [] ∧ line = ofBytes most (first d) ∧ I s' (d.drop (first d).length) := by
  obtain ⟨same, left⟩ := read_ok t h call
  by_cases none : d = []
  · simp [none] at same
  · rw [if_neg none] at same
    exact ⟨none, Option.some.inj same, left⟩

/-- Blank bytes are taken up to the first other one, unless the stream fails among them. -/
theorem skipBlank_cases (t : Peekable.Tracks I E) {s : σ} {d : Bytes} (h : I s d) :
    (∃ s', skipBlank s = (.ok (d.takeWhile isBlank).length, s') ∧ I s' (d.dropWhile isBlank)) ∨
    ∃ e s' front, skipBlank s = (.error e, s') ∧ front <+: d.takeWhile isBlank ∧
      Peekable.Breaks I d front e s' := by
  fun_induction skipBlank s generalizing d with
  | case1 s e next call =>
    exact Or.inr ⟨e, next, [], rfl, List.nil_prefix, Peekable.breaks_here h call⟩
  | case2 s next call =>
    obtain ⟨_, none, left, _⟩ := t.fillOn_ok h call
    obtain rfl := none rfl
    exact Or.inl ⟨next, rfl, left⟩
  | case3 s b bs next call blank =>
    rename_i found
    obtain ⟨⟨rest, rfl⟩, _, _, after⟩ := t.fillOn_ok h call
    refine Or.inl ⟨Peekable.consume next blank.length, ?_, ?_⟩
    · rw [takeWhile_of_found (p := isBlank) found]
      rfl
    · rw [← drop_length_takeWhile, takeWhile_of_found (p := isBlank) found]
      exact after _ (Nat.le_of_lt found)
  | case4 s b bs next call blank absent more last answer =>
    rename_i ih
    obtain ⟨⟨rest, rfl⟩, _, _, after⟩ := t.fillOn_ok h call
    have left : I (Peekable.consume next (bs.length + 1)) rest := by
      simpa using after (bs.length + 1) (by simp)
    obtain ⟨same, whole⟩ := takeWhile_of_absent (p := isBlank) rest absent
    rcases ih left with ⟨s', gave, held⟩ | ⟨_, _, _, gave, _⟩
    · obtain ⟨rfl, rfl⟩ := Outcome.ok_inj answer gave
      refine Or.inl ⟨last, ?_, ?_⟩
      · have count : blank.length = (b :: bs).length := congrArg List.length same
        rw [whole, List.length_append, count]
      · rw [← drop_length_takeWhile, whole, List.length_append, List.drop_length_add_append,
          drop_length_takeWhile]
        exact held
    · exact absurd gave (Outcome.ne_error answer)
  | case5 s b bs next call blank absent e last answer =>
    rename_i ih
    obtain ⟨⟨rest, rfl⟩, _, _, after⟩ := t.fillOn_ok h call
    have left : I (Peekable.consume next (bs.length + 1)) rest := by
      simpa using after (bs.length + 1) (by simp)
    obtain ⟨_, whole⟩ := takeWhile_of_absent (p := isBlank) rest absent
    rcases ih left with ⟨_, gave, _⟩ | ⟨e', s', front, gave, inside, breaks⟩
    · exact absurd answer (Outcome.ne_error gave)
    · cases answer.symm.trans gave
      refine Or.inr ⟨e, last, b :: bs ++ front, rfl, ?_, breaks.behind (b :: bs)⟩
      rw [whole]
      exact List.prefix_append_right_inj _ |>.mpr inside

theorem skipBlank_eq (t : Peekable.Tracks I E) (quiet : Quiet E) {s : σ} {d : Bytes} (h : I s d) :
    ∃ s', skipBlank s = (.ok (d.takeWhile isBlank).length, s') ∧ I s' (d.dropWhile isBlank) := by
  rcases skipBlank_cases t h with answer | ⟨_, _, _, _, _, breaks⟩
  · exact answer
  · exact absurd breaks (t.not_breaks quiet)

end WebArchive.Line
