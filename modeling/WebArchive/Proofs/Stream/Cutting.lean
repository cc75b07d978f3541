import WebArchive.Proofs.Stream.Delivery
import WebArchive.Proofs.Stream.Lines
import WebArchive.Proofs.Text.Decoding

/-!
What a limit does to a line. The limit is no part of finding the line: `read_eq_gather` says that
every limit cuts the same bytes, and `read_limited` which lines are reported as cut and what is read
of them. `read_shorter` compares the texts that two limits leave.
-/
namespace WebArchive.Line

/-- The bytes of a line in front of its line feed. -/
def body (bytes : Bytes) : Bytes := bytes.takeWhile (· ≠ lineFeed)

/-- The bytes without one carriage return at their end. -/
def dropReturn (bytes : Bytes) : Bytes :=
  if bytes.getLast? = some carriageReturn then bytes.dropLast else bytes

/-- The bytes of a line without its line feed and the carriage return of that. -/
def content (bytes : Bytes) : Bytes :=
  if lineFeed ∈ bytes then dropReturn (body bytes) else body bytes

/-- The bytes of a body that are read as text. -/
def kept (most : Nat) (body : Bytes) : Bytes := dropReturn (body.take most)

/-- The line that is read of a body. -/
def cut (most : Nat) (body : Bytes) : Line :=
  ⟨Text.ofLineBytes (kept most body), most < body.length⟩

theorem toLine_push (most : Nat) (body : Bytes) :
    (Kept.push most {} body).toLine = cut most body := by
  simp [Kept.push, Kept.toLine, cut, kept, dropReturn]

theorem ofBytes_eq (most : Nat) (bytes : Bytes) : ofBytes most bytes = cut most (body bytes) :=
  toLine_push most _

/-! ### Reading without a limit -/

variable {σ : Type} [Peekable σ]

/-- The body of the current line behind the part of it that is known, none at the end of the
stream. -/
def gather (known : Option Bytes) (s : σ) : Answer σ (Option Bytes) :=
  match _call : Peekable.fillOn s with
  | (.error e, s') => (.error e, s')
  | (.ok [], s') => (.ok known, s')
  | (.ok (b :: bs), s') =>
    let piece := body (b :: bs)
    let known := known.getD [] ++ piece
    if piece.length < bs.length + 1 then
      (.ok (some known), Peekable.consume s' (piece.length + 1))
    else gather (some known) (Peekable.consume s' (bs.length + 1))
termination_by Readable.weight s
decreasing_by exact Peekable.weight_fillOn_lt _call (by simp) (by omega)

theorem push_known (most : Nat) (known : Option Bytes) (piece : Bytes) :
    ((known.map (Kept.push most {})).getD {}).push most piece =
      Kept.push most {} (known.getD [] ++ piece) := by
  cases known with
  | none => rfl
  | some front => exact Kept.push_append most {} front piece

theorem readRest_eq_gather (most : Nat) (known : Option Bytes) (s : σ) :
    readRest most (known.map (Kept.push most {})) s =
      (gather known s).map (·.map (Kept.push most {})) := by
  fun_induction gather known s with
  | case1 known s e next call =>
    rw [readRest]
    split <;> rename_i answer <;> cases call.symm.trans answer
    rfl
  | case2 known s next call =>
    rw [readRest]
    split <;> rename_i answer <;> cases call.symm.trans answer
    rfl
  | case3 known s b bs next call piece more found =>
    rw [readRest]
    split <;> rename_i answer <;> cases call.symm.trans answer
    refine (if_pos found).trans ?_
    exact congrArg (fun k => ((.ok (some k), Peekable.consume next (piece.length + 1)) :
      Answer σ (Option Kept))) (push_known most known piece)
  | case4 known s b bs next call piece more absent ih =>
    rw [readRest]
    split <;> rename_i answer <;> cases call.symm.trans answer
    refine (if_neg absent).trans (Eq.trans ?_ ih)
    exact congrArg (fun k => readRest most (some k) (Peekable.consume next (bs.length + 1)))
      (push_known most known piece)

theorem read_eq_gather (most : Nat) (s : σ) :
    read most s = (gather none s).map (·.map (cut most)) := by
  have rest := readRest_eq_gather most none s
  rw [Option.map_none] at rest
  rw [read, rest]
  rcases gather none s with ⟨_ | _ | body, s'⟩
  · rfl
  · rfl
  · simp [Outcome.map, Except.map, toLine_push]

/-- All limits have the same outcome on a stream, save for the cut that they make. -/
theorem read_alike (s : σ) :
    (∃ e s', ∀ most, read most s = (.error e, s')) ∨ (∃ s', ∀ most, read most s = (.ok none, s')) ∨
    ∃ body s', ∀ most, read most s = (.ok (some (cut most body)), s') := by
  simp only [read_eq_gather]
  rcases gather none s with ⟨e | _ | body, s'⟩
  · exact Or.inl ⟨e, s', fun _ => rfl⟩
  · exact Or.inr (Or.inl ⟨s', fun _ => rfl⟩)
  · exact Or.inr (Or.inr ⟨body, s', fun _ => rfl⟩)

/-! ### Which lines are cut -/

theorem length_dropReturn (bytes : Bytes) : (dropReturn bytes).length =
    if bytes.getLast? = some carriageReturn then bytes.length - 1 else bytes.length := by
  unfold dropReturn
  split
  · exact List.length_dropLast
  · rfl

/-- A body that ends with the carriage return of its line. -/
theorem returned_iff {bytes : Bytes} (fed : bytes = body bytes ++ [lineFeed]) :
    [carriageReturn, lineFeed] <:+ bytes ↔ (body bytes).getLast? = some carriageReturn := by
  rw [List.getLast?_eq_some_iff]
  constructor
  · rintro ⟨front, same⟩
    rw [fed, List.append_cons] at same
    exact ⟨front, (List.append_cancel_right same).symm⟩
  · rintro ⟨front, same⟩
    rw [fed, same]
    exact ⟨front, by simp⟩

theorem not_returned {bytes : Bytes} (unfed : lineFeed ∉ bytes) :
    ¬ [carriageReturn, lineFeed] <:+ bytes :=
  fun h => unfed (h.subset (by simp))

theorem fed_eq {d : Bytes} (fed : lineFeed ∈ first d) :
    first d = body (first d) ++ [lineFeed] := by
  rw [body, takeWhile_first]
  rcases first_eq d with same | ⟨same, whole⟩
  · exact same
  · rw [same, ← whole] at fed
    exact absurd fed (not_mem_takeWhile lineFeed d)

/-- A line is cut if its content is longer than the limit, or just as long with a carriage return
behind it. -/
theorem truncated_iff (most : Nat) (d : Bytes) :
    (ofBytes most (first d)).truncated = true ↔ most < (content (first d)).length ∨
      most = (content (first d)).length ∧ [carriageReturn, lineFeed] <:+ first d := by
  rw [ofBytes_eq, cut, decide_eq_true_iff, content]
  by_cases fed : lineFeed ∈ first d
  · rw [if_pos fed, returned_iff (fed_eq fed), length_dropReturn]
    split <;> rename_i last
    · have some : body (first d) ≠ [] := by
        intro none
        simp [none] at last
      have := List.length_pos_iff.mpr some
      simp only [last, and_true]
      omega
    · simp [last]
  · simp [if_neg fed, not_returned fed]

theorem dropReturn_eq_nil {bytes : Bytes} :
    dropReturn bytes = [] ↔ bytes = [] ∨ bytes = [carriageReturn] := by
  unfold dropReturn
  split <;> rename_i last
  · obtain ⟨front, rfl⟩ := List.getLast?_eq_some_iff.mp last
    simp
  · refine (or_iff_left ?_).symm
    rintro rfl
    exact last rfl

theorem take_dropReturn {most : Nat} {bytes : Bytes} (short : most < bytes.length) :
    (dropReturn bytes).take most = bytes.take most := by
  unfold dropReturn
  split
  · rw [List.dropLast_eq_take, List.take_take, Nat.min_eq_left (by omega)]
  · rfl

/-- The text is that of the content. A carriage return at the end is lost if bytes are dropped, or
if the line has no line feed. -/
theorem text_eq (most : Nat) (d : Bytes) : (ofBytes most (first d)).text =
    Text.ofLineBytes (if (ofBytes most (first d)).truncated ∨ lineFeed ∉ first d then
      dropReturn ((content (first d)).take most) else content (first d)) := by
  rw [ofBytes_eq, cut]
  refine congrArg Text.ofLineBytes ?_
  by_cases fed : lineFeed ∈ first d
  · simp only [content, if_pos fed, decide_eq_true_iff, kept]
    by_cases short : most < (body (first d)).length
    · rw [if_pos (Or.inl short), take_dropReturn short]
    · rw [if_neg (by simp [short, fed]), List.take_of_length_le (Nat.not_lt.mp short)]
  · rw [content, if_neg fed, if_pos (Or.inr fed), kept]

variable {I : σ → Bytes → Prop} {E : StreamError → Prop}

theorem read_error (t : Peekable.Tracks I E) {most : Nat} {s s' : σ} {d : Bytes} {e : StreamError}
    (held : I s d) (call : read most s = (.error e, s')) : E e ∧ ¬ e.isInterrupted := by
  rcases read_cases t most held with ⟨_, gave, _⟩ | ⟨_, _, _, gave, _, breaks⟩
  · exact absurd call (Outcome.ne_error gave)
  · cases call.symm.trans gave
    obtain ⟨able, final, _⟩ := t.breaks_error breaks
    exact ⟨able, final⟩

/-- Reading takes the first line through its line feed, or breaks off in it with an error of the
stream. A line is reported as cut if its content is longer than the limit, and also if it is just
as long and ends with a carriage return and a line feed. Its text is that of the content, or of the
bytes of it that fit; a carriage return at their end is lost if the line is reported as cut or has
no line feed. -/
theorem read_limited (t : Peekable.Tracks I E) {s : σ} {d : Bytes} (held : I s d) (most : Nat) :
    (d = [] ∧ ∃ s', read most s = (.ok none, s') ∧ I s' []) ∨
    (∃ line s', read most s = (.ok (some line), s') ∧ I s' (d.drop (first d).length) ∧
      (line.truncated = true ↔ most < (content (first d)).length ∨
        most = (content (first d)).length ∧ [carriageReturn, lineFeed] <:+ first d) ∧
      line.text = Text.ofLineBytes (if line.truncated ∨ lineFeed ∉ first d then
        dropReturn ((content (first d)).take most) else content (first d))) ∨
    ∃ e s' front, read most s = (.error e, s') ∧ E e ∧ ¬ e.isInterrupted ∧
      front <+: body (first d) ∧ I s' (d.drop front.length) := by
  rcases read_cases t most held with ⟨s', answer, left⟩ | ⟨e, s', front, failed, inside, breaks⟩
  · by_cases none : d = []
    · subst none
      exact Or.inl ⟨rfl, s', answer, left⟩
    · rw [if_neg none] at answer
      exact Or.inr (Or.inl ⟨_, s', answer, left, truncated_iff most d, text_eq most d⟩)
  · obtain ⟨able, final, left⟩ := t.breaks_error breaks
    rw [← takeWhile_first] at inside
    exact Or.inr (Or.inr ⟨e, s', front, failed, able, final, inside, left⟩)

theorem read_calm {s : Source} (calm : s.failures = []) (some : s.bytes ≠ []) (most : Nat) :
    (read most s).1 = .ok (.some (ofBytes most (first s.bytes))) := by
  rcases read_cases (Source.tracks noError) most (Source.holds_noError calm) with
    ⟨s', answer, _⟩ | ⟨_, _, _, _, _, breaks⟩
  · rw [answer, if_neg some]
  · exact absurd breaks ((Source.tracks noError).not_breaks quiet_noError)

/-- A line that is as long as its limit, whose line feed comes behind an interruption. -/
theorem read_limited_parted :
    let s : Source := ⟨[.chunk [0x30, 0x31], .failure (.device .interrupted ""),
      .chunk [0x0D, 0x0A, 0x32]]⟩
    s.Holds (·.isInterrupted) [0x30, 0x31, 0x0D, 0x0A, 0x32] ∧
      ∃ s' : Source, read 2 s = (.ok (some ⟨['0', '1'], true⟩), s') ∧
        s'.Holds (·.isInterrupted) [0x32] := by
  intro s
  have held : s.Holds (·.isInterrupted) [0x30, 0x31, 0x0D, 0x0A, 0x32] :=
    ⟨rfl, by simp [s, Source.failures, StreamError.isInterrupted, StreamError.kind]⟩
  refine ⟨held, ?_⟩
  rcases read_limited (Source.tracks (·.isInterrupted)) held 2 with
    ⟨none, _⟩ | ⟨⟨text, truncated⟩, s', answer, left, long, same⟩ | ⟨e, _, _, _, able, final, _⟩
  · cases none
  · have cut : truncated = true := long.mpr (by decide)
    subst cut
    rw [if_pos (Or.inl rfl)] at same
    have shown : text = ['0', '1'] := same.trans (by decide)
    subst shown
    exact ⟨s', answer, left⟩
  · exact absurd able final

/-- Of two lines that fit, one is reported as cut since a carriage return stands before its line
feed, and the other has no line feed and loses its carriage return. -/
theorem read_fitting :
    content [0x30, 0x31, 0x0D, 0x0A] = [0x30, 0x31] ∧
    (read 2 (⟨[.chunk [0x30, 0x31, 0x0D, 0x0A]]⟩ : Source)).1 = .ok (some ⟨['0', '1'], true⟩) ∧
    content [0x30, 0x31, 0x0D] = [0x30, 0x31, 0x0D] ∧
    (read 3 (⟨[.chunk [0x30, 0x31, 0x0D]]⟩ : Source)).1 = .ok (some ⟨['0', '1'], false⟩) := by
  have double : ofBytes 2 (first [0x30, 0x31, 0x0D, 0x0A]) = ⟨['0', '1'], true⟩ := by decide
  have single : ofBytes 3 (first [0x30, 0x31, 0x0D]) = ⟨['0', '1'], false⟩ := by decide
  refine ⟨by decide, ?_, by decide, ?_⟩
  · rw [← double]
    exact read_calm rfl (by decide) 2
  · rw [← single]
    exact read_calm rfl (by decide) 3

/-! ### Two limits -/

theorem dropReturn_isPrefix (bytes : Bytes) : dropReturn bytes <+: bytes := by
  unfold dropReturn
  split
  · exact List.dropLast_prefix bytes
  · exact List.prefix_refl bytes

theorem dropLast_isPrefix (bytes : Bytes) : bytes.dropLast <+: dropReturn bytes := by
  unfold dropReturn
  split
  · exact List.prefix_refl _
  · exact List.dropLast_prefix bytes

theorem dropReturn_mono {p q : Bytes} (front : p <+: q) : dropReturn p <+: dropReturn q := by
  by_cases whole : p.length = q.length
  · obtain rfl := front.eq_of_length whole
    exact List.prefix_refl _
  · have shorter : p <+: q.dropLast := by
      refine List.prefix_of_prefix_length_le front (List.dropLast_prefix q) ?_
      have := front.length_le
      rw [List.length_dropLast]
      omega
    exact (dropReturn_isPrefix p).trans (shorter.trans (dropLast_isPrefix q))

theorem kept_isPrefix {least most : Nat} (le : least ≤ most) (body : Bytes) :
    kept least body <+: kept most body :=
  dropReturn_mono (List.take_prefix_take_left le)

/-- Two limits stop a stream at the same place and with the same error. Of the first line the lower
one keeps a front of what the higher one keeps. The text of the front is a front of the text if both
are UTF-8 or neither is, or if the front is ASCII; else it is not, unless the text starts with an
`Ã` that is read as itself either way. -/
theorem read_shorter (t : Peekable.Tracks I E) {s : σ} {d : Bytes} (held : I s d)
    {least most : Nat} (le : least ≤ most) :
    (d = [] ∧ ∃ s', read least s = (.ok none, s') ∧ read most s = (.ok none, s')) ∨
    (∃ short long s', read least s = (.ok (some short), s') ∧ read most s = (.ok (some long), s') ∧
      let front := kept least (body (first d))
      let whole := kept most (body (first d))
      front <+: whole ∧
      ((Text.IsUtf8 front ↔ Text.IsUtf8 whole) ∨ Text.IsAscii front → short.text <+: long.text) ∧
      (short.text <+: long.text →
        (Text.IsUtf8 front ↔ Text.IsUtf8 whole) ∨ Text.IsAscii front ∨ Text.IsDoubled whole)) ∨
    ∃ e s', read least s = (.error e, s') ∧ read most s = (.error e, s') ∧ E e ∧
      ¬ e.isInterrupted := by
  rcases read_alike s with ⟨e, s', failed⟩ | ⟨s', ended⟩ | ⟨line, s', found⟩
  · obtain ⟨able, final⟩ := read_error t held (failed least)
    exact Or.inr (Or.inr ⟨e, s', failed least, failed most, able, final⟩)
  · exact Or.inl ⟨(read_none t held (ended least)).1, s', ended least, ended most⟩
  · refine Or.inr (Or.inl ⟨_, _, s', found least, found most, kept_isPrefix le _, ?_⟩)
    rw [(read_some t held (found least)).2.1, (read_some t held (found most)).2.1, ofBytes_eq,
      ofBytes_eq]
    exact ⟨Text.ofLineBytes_isPrefix (kept_isPrefix le _),
      Text.alike_of_isPrefix (kept_isPrefix le _)⟩

/-- An accented word that is cut behind its accent. -/
theorem read_shorter_accented :
    let s : Source := ⟨[.chunk [0x61, 0xC3, 0xA9, 0x62], .chunk [0x0A]]⟩
    s.Holds noError [0x61, 0xC3, 0xA9, 0x62, 0x0A] ∧ 3 ≤ 8 ∧
      ∃ short long s', read 3 s = (.ok (some short), s') ∧ read 8 s = (.ok (some long), s') ∧
        short.text <+: long.text := by
  intro s
  have held : s.Holds noError [0x61, 0xC3, 0xA9, 0x62, 0x0A] := Source.holds_noError rfl
  refine ⟨held, by decide, ?_⟩
  rcases read_shorter (Source.tracks noError) held (show 3 ≤ 8 by decide) with
    ⟨none, _⟩ | ⟨short, long, s', cut, whole, _, front, _⟩ | ⟨_, _, _, _, able, _⟩
  · cases none
  · exact ⟨short, long, s', cut, whole, front (Or.inl (iff_of_true (by decide) (by decide)))⟩
  · exact able.elim

/-- The first of the two bytes of a character alone is not UTF-8, so that it is read as another
character. -/
theorem read_split_character :
    let s : Source := ⟨[.chunk [0xC3, 0xA9, 0x0A]]⟩
    (read 1 s).1 = .ok (some ⟨['Ã'], true⟩) ∧ (read 2 s).1 = .ok (some ⟨['é'], false⟩) ∧
      ¬ ['Ã'] <+: ['é'] := by
  have half : ofBytes 1 (first [0xC3, 0xA9, 0x0A]) = ⟨['Ã'], true⟩ := by decide
  have full : ofBytes 2 (first [0xC3, 0xA9, 0x0A]) = ⟨['é'], false⟩ := by decide
  rw [← half, ← full]
  exact ⟨read_calm rfl (by decide) 1, read_calm rfl (by decide) 2, by decide⟩

end WebArchive.Line
