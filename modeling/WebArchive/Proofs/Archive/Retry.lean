import WebArchive.Proofs.Archive.Closing
import WebArchive.Proofs.Record.Retry

/-!
Archives over sources that fail. As long as no failure strikes inside a header, a caller who repeats
what fails, or goes on to the next record, is told what an archive over the same source without its
failures tells. Main fact: `PlainArchive.tour_undisturbed`.
-/
namespace WebArchive

/-- What a caller does with a record: actions that are repeated until they succeed, and then maybe
some that are tried once, whatever comes of them, before the record is left. -/
structure Visit where
  actions : List Action
  tried : List Action := []

/-- An action with its answer, and what is seen of the record behind it. -/
structure Step where
  answer : Except StreamError Bytes
  view : ContentRecord.View

/-- What a caller is told when the next record is asked for, and about the record then. -/
inductive Entry where
  | record (count position : Nat) (view : Record.View) (steps : List Step)
  | ended (count position : Nat)
  | failed (e : ArchiveError)

section Visits
variable {σ : Type} [Readable σ]

def ContentRecord.attend (patience : Nat) (r : ContentRecord σ) :
    List Action → List Step × ContentRecord σ
  | [] => ([], r)
  | action :: actions =>
    let (answer, r) := insist (·.perform action) patience r
    let (steps, last) := r.attend patience actions
    (⟨answer, r.view⟩ :: steps, last)

/-- The steps of a visit, and the stream as it is left. -/
def Record.attend (patience : Nat) (visit : Visit) : Record σ → List Step × σ
  | .versionBlock _ stream => ([], stream)
  | .content r =>
    let (steps, r) := r.attend patience visit.actions
    (steps, (r.use visit.tried).2.stream)

end Visits

namespace PlainArchive

/-- A run in which every call that fails is made again, up to `patience` times. -/
def tour (patience : Nat) (a : PlainArchive) : List Visit → List Entry
  | [] => []
  | visit :: visits =>
    match insist next patience a with
    | (.error e, a) => .failed e :: tour patience a visits
    | (.ok none, a) => .ended a.count a.position :: tour patience a visits
    | (.ok (some record), a) =>
      let (steps, stream) := record.attend patience visit
      .record a.count a.position record.view steps :: tour patience (a.resume stream) visits

end PlainArchive

namespace ContentRecord
variable {σ : Type} [Readable σ] {R : Nat → σ → σ → Prop} {k patience : Nat} {r : ContentRecord σ}
  {u : σ}

omit [Readable σ] in
theorem view_onto (r : ContentRecord σ) (u : σ) : (r.onto u).view = r.view := by
  unfold view onto summary payload?
  cases r.content <;> rfl

theorem attend_mirrored (m : Readable.Mirrors R) (h : R k r.stream u) (enough : k ≤ patience)
    (actions : List Action) :
    (r.attend patience actions).1 = ((r.onto u).attend 0 actions).1 := by
  induction actions generalizing r u with
  | nil => rfl
  | cons action actions ih =>
    obtain ⟨bs, r', u', repeated, performed, beside⟩ :=
      (repeatable_perform m action).insist_eq m h enough
    have rest := ih beside
    simp only [attend, repeated, insist, performed, view_onto, rest]

variable {I : σ → Bytes → Prop} {E : StreamError → Prop} {options : ReaderOptions}
  {heading : Heading} {data : Bytes}

theorem Taking.attend (t : Readable.Tracks I E) (h : Taking I options heading data r)
    (patience : Nat) (actions : List Action) :
    Taking I options heading data (r.attend patience actions).2 := by
  induction actions generalizing r with
  | nil => exact h
  | cons action actions ih =>
    exact ih (insist_keeps (P := Taking I options heading data)
      (fun _ taking => taking.perform t action) patience h)

theorem Taking.use (t : Readable.Tracks I E) (h : Taking I options heading data r)
    (actions : List Action) : Taking I options heading data (r.use actions).2 := by
  induction actions generalizing r with
  | nil => exact h
  | cons action actions ih => exact ih (h.perform t action)

/-- However a record has been visited, it is left inside its content or at the end of it. -/
theorem attend_stream (t : Readable.Tracks I E) (options : ReaderOptions) (heading : Heading)
    {s : σ} (h : I s data) (patience : Nat) (visit : Visit) :
    ∃ k ≤ heading.length.getD 0,
      I ((Record.content (start heading s options)).attend patience visit).2 (data.drop k) := by
  have used := (inUse_start options heading h).taking.attend t patience visit.actions
  exact (used.use t visit.tried).stream

end ContentRecord

namespace PlainArchive
variable {chunks : List Bytes} {strikes : List Nat} {total : Nat} {options : ReaderOptions}
  {a a' : PlainArchive} {rest : Bytes}

/-- An archive whose next header is the one that `rest` begins with, behind blank bytes perhaps. -/
structure Poised (chunks : List Bytes) (strikes : List Nat) (total : Nat) (options : ReaderOptions)
    (rest : Bytes) (a : PlainArchive) : Prop where
  shown : a.showsOffsets
  stands : ∃ d, a.Stands (Cursor.On chunks strikes total) options .warc d ∧
    d.dropWhile Line.isBlank = rest

/-- No strike is inside the header that `rest` begins with, and the header is all there. -/
structure Spared (strikes : List Nat) (total : Nat) (options : ReaderOptions) (rest : Bytes) :
    Prop where
  ended : rest ≠ [] → Dialect.warc.Ended options (Dialect.warc.headerLines options rest)
  outside : ∀ p ∈ strikes, p ≤ total - rest.length ∨
    total - rest.length + (Dialect.warc.headerLines options rest).flatten.length ≤ p

/-- A header that is spared is read, once the byte in front of it has been seen. -/
theorem Spared.readHeading (spared : Spared strikes total options rest) {c : Cursor}
    (on : Cursor.On chunks strikes total c rest) (seen : ∀ p ∈ c.strikes, c.position < p) :
    ∃ c', Dialect.warc.readHeading options (some c.position) c =
        (.ok (Dialect.warc.heading options (some (total - rest.length))
          (Dialect.warc.headerLines options rest)), c') ∧
      Cursor.On chunks strikes total c'
        (rest.drop (Dialect.warc.headerLines options rest).flatten.length) := by
  have p := Cursor.places_on chunks c.strikes total
  have place := p.position_eq on.narrow
  rcases Dialect.readHeading_cases p.tracked .warc options (some c.position) on.narrow with
    ⟨c', answer, left⟩ | ⟨e, c', front, failed, broken, short⟩
  · rw [place] at answer ⊢
    exact ⟨c', answer, left.widen on.strikes⟩
  · -- it would break off at a strike inside the header, but there is none
    obtain ⟨struck, _⟩ := on.narrow.breaks broken
    have behind := seen _ struck
    have some : rest ≠ [] := by
      rintro rfl
      obtain ⟨_, _, none, _⟩ := broken
      rw [(List.append_eq_nil_iff.mp none.symm).1] at behind
      exact absurd behind (Nat.lt_irrefl _)
    have inside := short (spared.ended some)
    rcases spared.outside _ (on.strikes.subset struck) with early | late <;> omega

/-- What a look for the next header does: it breaks off in front of the header, or it comes to the
end, or it takes the header. -/
theorem seek_cases (h : Poised chunks strikes total options rest a)
    (spared : Spared strikes total options rest) :
    (∃ e input, a.seek = (.error e, input) ∧ input.strikes.length < a.input.strikes.length ∧
      Poised chunks strikes total options rest { a with input }) ∨
    ∃ input, a.seek = (.ok (Dialect.warc.heading options (some (total - rest.length))
        (Dialect.warc.headerLines options rest)), input) ∧
      Cursor.On chunks strikes total input
        (rest.drop (Dialect.warc.headerLines options rest).flatten.length) := by
  obtain ⟨shown, d, ⟨warc, set, left, held, rfl⟩, blank⟩ := h
  have narrow := held.narrow
  have p := Cursor.places_on chunks a.input.strikes total
  have before := p.place narrow
  -- wherever a call breaks off in front of the header, the next one finds the same header
  have resumed {input : Cursor} {d' : Bytes} (on : Cursor.On chunks a.input.strikes total input d')
      (same : (d'.drop (a.target - input.position)).dropWhile Line.isBlank = rest) :
      Poised chunks strikes total options rest { a with input } :=
    ⟨shown, _, ⟨warc, set, d', on.widen held.strikes, rfl⟩, same⟩
  rcases p.skipTo_cases narrow a.target with ⟨n, c₁, skipped, on₁⟩ |
    ⟨e, c₁, front, failed, near, broken⟩
  · rcases Line.skipBlank_cases p.tracked on₁ with ⟨c₂, passed, on₂⟩ |
      ⟨e, c₂, front, failed, inside, broken⟩
    · rw [blank] at on₂
      obtain ⟨c₃, answer, on₃⟩ := spared.readHeading (on₂.widen held.strikes) fun _ struck =>
        Cursor.lt_of_mem_strikes_skipBlank passed struck
      refine Or.inr ⟨c₃, ?_, on₃⟩
      simp only [seek, skipped, passed, Outcome.andThen, shown, if_true, warc, set, answer]
    · obtain ⟨_, fewer, d', split, on₂⟩ := on₁.breaks broken
      refine Or.inl ⟨e, c₂, ?_, fewer, resumed on₂ ?_⟩
      · simp only [seek, skipped, failed, Outcome.andThen]
      · have all : ∀ b ∈ front, Line.isBlank b = true := fun b member =>
          List.all_eq_true.mp List.all_takeWhile b (inside.subset member)
        have after := p.place on₂
        have size := congrArg List.length split
        rw [List.length_drop, List.length_append] at size
        rw [← blank, split, List.dropWhile_append_of_pos all]
        by_cases none : d' = []
        · rw [none, List.drop_nil]
        · have some := List.length_pos_iff.mpr none
          rw [show a.target - c₂.position = 0 by omega, List.drop_zero]
  · obtain ⟨_, fewer, d', rfl, on₁⟩ := narrow.breaks broken
    refine Or.inl ⟨e, c₁, ?_, fewer, resumed on₁ ?_⟩
    · simp only [seek, failed, Outcome.andThen]
    · have after := p.place on₁
      rw [List.length_append] at before
      have past : a.target - a.input.position =
          front.length + (a.target - c₁.position) := by omega
      rw [← blank, past, List.drop_length_add_append]

/-- A record has been opened behind a header, of which `content` is left. -/
structure Opened (chunks : List Bytes) (strikes : List Nat) (total : Nat) (options : ReaderOptions)
    (heading : Heading) (content : Bytes) (count : Nat) (record : Record Cursor)
    (a : PlainArchive) : Prop where
  record : record = .content (.start heading a.input options)
  input : Cursor.On chunks strikes total a.input content
  nextOffset : a.nextOffset = a.input.position + heading.length.getD 0
  dialect : a.dialect = .warc
  options : a.options = options
  shown : a.showsOffsets
  count : a.count = count + 1

/-- What is told of the next record, once the calls that fail have been repeated. -/
structure Told (chunks : List Bytes) (strikes : List Nat) (total : Nat) (options : ReaderOptions)
    (rest : Bytes) (count : Nat)
    (answer : Outcome ArchiveError PlainArchive (Option (Record Cursor))) : Prop where
  ended : Dialect.warc.heading options (some (total - rest.length))
      (Dialect.warc.headerLines options rest) = none →
    ∃ a, answer = (.ok none, a) ∧ Poised chunks strikes total options [] a ∧ a.position = total ∧
      a.count = count
  found : ∀ heading, Dialect.warc.heading options (some (total - rest.length))
      (Dialect.warc.headerLines options rest) = some heading →
    ∃ record a, answer = (.ok (some record), a) ∧
      Opened chunks strikes total options heading
        (rest.drop (Dialect.warc.headerLines options rest).flatten.length) count record a

theorem next_cases (h : Poised chunks strikes total options rest a)
    (spared : Spared strikes total options rest) :
    (∃ e a', a.next = (.error e, a') ∧ a'.input.strikes.length < a.input.strikes.length ∧
      Poised chunks strikes total options rest a' ∧ a'.count = a.count) ∨
    Told chunks strikes total options rest a.count a.next := by
  rcases seek_cases h spared with ⟨e, input, failed, fewer, poised⟩ | ⟨input, answer, on⟩
  · exact Or.inl ⟨.stream e, { a with input }, by simp only [next, failed], fewer, poised, rfl⟩
  · right
    obtain ⟨shown, d, stands, rfl⟩ := h
    refine ⟨fun none => ?_, fun heading some => ?_⟩
    · rw [none] at answer
      have last : d.dropWhile Line.isBlank = [] := by
        by_cases last : d.dropWhile Line.isBlank = []
        · exact last
        · simp [Dialect.headerLines, last, Dialect.heading] at none
      rw [last, List.drop_nil] at on
      refine ⟨{ a with input }, by simp only [next, answer], ⟨shown, [], ?_, rfl⟩, ?_, rfl⟩
      · exact ⟨stands.dialect, stands.options, [], on, List.drop_nil⟩
      · exact on.holds.2
    · rw [some] at answer
      have warc : a.dialect.after (.content (.start heading input options)) = .warc := by
        rw [stands.dialect]
        rfl
      refine ⟨.content (.start heading input options), _, next_opened answer ?_,
        rfl, on, rfl, warc, stands.options, shown, rfl⟩
      rw [stands.dialect, stands.options]
      rfl

theorem insist_next (h : Poised chunks strikes total options rest a)
    (spared : Spared strikes total options rest) {patience : Nat}
    (enough : a.input.strikes.length ≤ patience) :
    Told chunks strikes total options rest a.count (insist next patience a) := by
  induction patience generalizing a with
  | zero =>
    rcases next_cases h spared with ⟨_, _, _, fewer, _⟩ | told
    · omega
    · exact told
  | succ n ih =>
    rcases next_cases h spared with ⟨e, a', failed, fewer, poised, same⟩ | told
    · have repeated := ih poised (by omega)
      simpa only [insist, failed, same] using repeated
    · have once : insist next (n + 1) a = a.next := by
        cases found : Dialect.warc.heading options (some (total - rest.length))
            (Dialect.warc.headerLines options rest) with
        | none =>
          obtain ⟨a', answer, _⟩ := told.ended found
          simp only [insist, answer]
        | some heading =>
          obtain ⟨record, a', answer, _⟩ := told.found heading found
          simp only [insist, answer]
      rwa [once]

theorem Poised.length_strikes_le (h : Poised chunks strikes total options rest a) :
    a.input.strikes.length ≤ strikes.length := by
  obtain ⟨_, _, ⟨_, _, left, held, _⟩, _⟩ := h
  exact held.strikes.length_le

/-- However a record has been visited, the archive goes on behind its content. -/
theorem Opened.poised {d : Bytes} {t : Tile} {start count : Nat} {record : Record Cursor}
    (place : start + d.length = total)
    (front : Dialect.warc.tile? options (some (start + (d.takeWhile Line.isBlank).length)) d =
      some t)
    (fits : t.ends < UInt64.size)
    (h : Opened chunks strikes total options t.heading
      ((d.dropWhile Line.isBlank).drop t.header.length) count record a)
    (patience : Nat) (visit : Visit) :
    Poised chunks strikes total options ((d.drop t.bytes.length).dropWhile Line.isBlank)
      (a.resume (record.attend patience visit).2) := by
  have p := Cursor.places_on chunks strikes total
  have entered : a.Entered (Cursor.On chunks strikes total) options .warc d t a.input :=
    ⟨h.dialect, h.options, h.input, h.nextOffset⟩
  obtain ⟨k, inside, left⟩ := ContentRecord.attend_stream p.tracked.toTracks options t.heading
    h.input patience visit
  rw [← h.record] at left
  have ends := entered.ends_eq p place front
  exact ⟨h.shown, _, entered.resume p front inside left (Or.inl (ends ▸ fits)), rfl⟩

/-- A record over a source with failures and the same record over a calm one are seen alike. -/
theorem Opened.attend_eq {u : PlainArchive} {heading : Heading} {content : Bytes} {count : Nat}
    {record record' : Record Cursor}
    (h : Opened chunks strikes total options heading content count record a)
    (calm : Opened chunks [] total options heading content count record' u)
    {patience : Nat} (enough : strikes.length ≤ patience) (visit : Visit) :
    a.count = u.count ∧ a.position = u.position ∧ record.view = record'.view ∧
      (record.attend patience visit).1 = (record'.attend 0 visit).1 := by
  have position : a.input.position = u.input.position := by
    have := h.input.holds.2
    have := calm.input.holds.2
    omega
  have beside : Cursor.Beside strikes.length a.input u.input :=
    ⟨position, by rw [h.input.ahead, calm.input.ahead, position], h.input.strikes.length_le,
      List.suffix_nil.mp calm.input.strikes⟩
  have same : ContentRecord.start heading u.input options =
      (ContentRecord.start heading a.input options).onto u.input := by
    unfold ContentRecord.start ContentRecord.onto
    cases heading.length <;> rfl
  rw [← Dialect.stream_start heading a.input options] at beside
  rw [h.record, calm.record, same]
  refine ⟨h.count.trans calm.count.symm, position, ?_, ?_⟩
  · simp only [Record.view, ContentRecord.view_onto]
  · exact ContentRecord.attend_mirrored Cursor.mirrors beside enough visit.actions

/-- Behind the blank bytes in front. -/
theorem blank_end {start : Nat} {d : Bytes} (place : start + d.length = total) :
    total - (d.dropWhile Line.isBlank).length = start + (d.takeWhile Line.isBlank).length := by
  have split := congrArg List.length (List.takeWhile_append_dropWhile (p := Line.isBlank) (l := d))
  rw [List.length_append] at split
  omega

theorem spared_of_tiles {start : Nat} {d : Bytes} (place : start + d.length = total)
    (spared : ∀ t ∈ tiles options .warc start d, ∀ p ∈ strikes, p ≤ t.headerStart ∨ t.headerEnd ≤ p)
    (ended : ∀ t ∈ tiles options .warc start d,
      Warc.HeaderBlock.Ended options.maxHeaderLine t.lines.tail) :
    Spared strikes total options (d.dropWhile Line.isBlank) := by
  have offset := blank_end place
  cases front : Dialect.warc.tile? options (some (start + (d.takeWhile Line.isBlank).length)) d with
  | none =>
    rw [Dialect.tile?_eq_none front]
    refine ⟨fun some => absurd rfl some, fun p _ => ?_⟩
    show p ≤ total ∨ total ≤ p
    omega
  | some t =>
    obtain ⟨blank, lines, _⟩ := Dialect.tile?_eq_some front
    have first : t ∈ tiles options .warc start d := by simp [tiles_of_some front]
    have begun := Dialect.startOffset_tile? front
    have headerStart : t.headerStart = total - (d.dropWhile Line.isBlank).length := by
      rw [Tile.headerStart, begun, offset]
      rfl
    refine ⟨fun _ => lines ▸ ended t first, fun p struck => ?_⟩
    rw [← headerStart, ← lines]
    exact spared t first p struck

/-- Both archives look for the same tiles, and only one of them may fail. -/
theorem tour_eq {u : PlainArchive} {start : Nat} {d : Bytes} (place : start + d.length = total)
    (h : Poised chunks strikes total options (d.dropWhile Line.isBlank) a)
    (calm : Poised chunks [] total options (d.dropWhile Line.isBlank) u)
    (count : a.count = u.count)
    (fits : ∀ t ∈ tiles options .warc start d, t.ends < UInt64.size)
    (spared : ∀ t ∈ tiles options .warc start d, ∀ p ∈ strikes, p ≤ t.headerStart ∨ t.headerEnd ≤ p)
    (ended : ∀ t ∈ tiles options .warc start d,
      Warc.HeaderBlock.Ended options.maxHeaderLine t.lines.tail)
    {patience : Nat} (enough : strikes.length ≤ patience) (visits : List Visit) :
    a.tour patience visits = u.tour 0 visits := by
  induction visits generalizing a u start d with
  | nil => rfl
  | cons visit visits ih =>
    have around := spared_of_tiles place spared ended
    have told := insist_next h around (Nat.le_trans h.length_strikes_le enough)
    have quiet : Spared [] total options (d.dropWhile Line.isBlank) :=
      ⟨around.ended, by simp⟩
    have told' : Told chunks [] total options (d.dropWhile Line.isBlank) u.count
        (insist next 0 u) := insist_next calm quiet calm.length_strikes_le
    have offset := blank_end place
    cases front : Dialect.warc.tile? options
        (some (start + (d.takeWhile Line.isBlank).length)) d with
    | none =>
      have none := Option.map_eq_none_iff.mp front
      rw [← offset] at none
      obtain ⟨a', answer, poised, position, counted⟩ := told.ended none
      obtain ⟨u', answer', poised', position', counted'⟩ := told'.ended none
      have rest := ih (d := []) (Nat.add_zero total) poised poised'
        (by rw [counted, counted', count]) (by simp [tiles_nil]) (by simp [tiles_nil])
        (by simp [tiles_nil])
      simp only [tour, answer, answer', position, position', counted, counted', count, rest]
    | some t =>
      obtain ⟨_, lines, read, _⟩ := Dialect.tile?_eq_some front
      rw [lines, ← offset] at read
      obtain ⟨record, a', answer, opened⟩ := told.found t.heading read
      obtain ⟨record', u', answer', opened'⟩ := told'.found t.heading read
      rw [← lines] at opened opened'
      rw [← count] at opened'
      obtain ⟨counted, position, view, steps⟩ := opened.attend_eq opened' enough visit
      have whole := congrArg List.length (Dialect.append_tile? front).2
      rw [List.length_append] at whole
      rw [tiles_of_some front] at fits spared ended
      have near := fits t List.mem_cons_self
      have rest := ih (by omega) (opened.poised place front near patience visit)
        (opened'.poised place front near 0 visit) counted
        (fun t inside => fits t (List.mem_cons_of_mem _ inside))
        (fun t inside => spared t (List.mem_cons_of_mem _ inside))
        (fun t inside => ended t (List.mem_cons_of_mem _ inside))
      simp only [tour, answer, answer', counted, position, view, steps, rest]

theorem poised_start (source : Source) (options : ReaderOptions) :
    Poised source.chunks source.strikes source.bytes.length options
      (source.bytes.dropWhile Line.isBlank) (warc source options) :=
  ⟨rfl, source.bytes, stands_of (Cursor.on_start source) options .warc, rfl⟩

/-- If every header block is ended by its empty line and no failure strikes inside one, a caller who
repeats what fails is told what the source without its failures tells. That is so, too, when a
record is left after an action that may have failed. Where a content ends has to fit in 64 bits. -/
theorem tour_undisturbed (source : Source) (options : ReaderOptions)
    (fits : ∀ t ∈ tiles options .warc 0 source.bytes, t.ends < UInt64.size)
    (ended : ∀ t ∈ tiles options .warc 0 source.bytes,
      Warc.HeaderBlock.Ended options.maxHeaderLine t.lines.tail)
    (spared : ∀ t ∈ tiles options .warc 0 source.bytes, ∀ p ∈ source.strikes,
      p ≤ t.headerStart ∨ t.headerEnd ≤ p)
    {patience : Nat} (enough : source.failures.length ≤ patience) (visits : List Visit) :
    (warc source options).tour patience visits =
      (warc source.undisturbed options).tour 0 visits := by
  obtain ⟨bytes, calm⟩ := source.holds_undisturbed
  have poised := poised_start source.undisturbed options
  rw [Source.chunks_undisturbed, bytes] at poised
  have none : source.undisturbed.strikes = [] := by
    apply List.eq_nil_of_length_eq_zero
    rw [Source.strikes, Source.length_strikesFrom, List.length_eq_zero_iff]
    exact List.eq_nil_iff_forall_not_mem.mpr calm
  rw [none] at poised
  refine tour_eq (Nat.zero_add _) (poised_start source options) poised rfl fits spared ended ?_
    visits
  rw [Source.strikes, Source.length_strikesFrom]
  exact enough

/-- Two records. The source fails in front of either header, in the content of the first one, within
the line ends behind it, and at its end. -/
def struck : Source where
  events :=
    [.failure (.device .timedOut "early"),
      .chunk [0x57, 0x41, 0x52, 0x43, 0x2F, 0x31, 0x2E, 0x30, 0x0D, 0x0A, 0x43, 0x6F, 0x6E, 0x74,
        0x65, 0x6E, 0x74, 0x2D, 0x4C, 0x65, 0x6E, 0x67, 0x74, 0x68, 0x3A, 0x20, 0x32, 0x0D, 0x0A,
        0x0D, 0x0A, 0x61],
      .failure (.device .interrupted ""), .chunk [0x62, 0x0D],
      .failure (.device .connectionReset "within"), .chunk [0x0A, 0x0D, 0x0A],
      .failure (.device .other "between"), .chunk [0x57, 0x41, 0x52, 0x43, 0x2F, 0x31, 0x2E, 0x30,
        0x0D, 0x0A, 0x0D, 0x0A],
      .failure (.device .other "late")]

theorem tour_undisturbed_struck :
    (∀ t ∈ tiles {} .warc 0 struck.bytes, t.ends < UInt64.size) ∧
    (∀ t ∈ tiles {} .warc 0 struck.bytes,
      Warc.HeaderBlock.Ended ({} : ReaderOptions).maxHeaderLine t.lines.tail) ∧
    (∀ t ∈ tiles {} .warc 0 struck.bytes, ∀ p ∈ struck.strikes,
      p ≤ t.headerStart ∨ t.headerEnd ≤ p) ∧
    (warc struck).tour 5 [⟨[.read 4], [.read 4]⟩, ⟨[.close], []⟩, ⟨[], []⟩] =
      (warc struck.undisturbed).tour 0 [⟨[.read 4], [.read 4]⟩, ⟨[.close], []⟩, ⟨[], []⟩] := by
  have fits : ∀ t ∈ tiles {} .warc 0 struck.bytes, t.ends < UInt64.size := by decide +kernel
  have ended : ∀ t ∈ tiles {} .warc 0 struck.bytes,
      Warc.HeaderBlock.Ended ({} : ReaderOptions).maxHeaderLine t.lines.tail := by
    decide +kernel
  have spared : ∀ t ∈ tiles {} .warc 0 struck.bytes, ∀ p ∈ struck.strikes,
      p ≤ t.headerStart ∨ t.headerEnd ≤ p := by
    decide +kernel
  exact ⟨fits, ended, spared, tour_undisturbed struck {} fits ended spared (Nat.le_refl 5) _⟩

end PlainArchive
end WebArchive
