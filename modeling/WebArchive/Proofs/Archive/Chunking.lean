import WebArchive.Proofs.Archive.Closing
import WebArchive.Proofs.Archive.Refinement
import WebArchive.Proofs.Gzip.HeaderReading

/-!
What a run over an archive tells depends on the bytes of its source alone, not on where they are
cut into chunks or where their reading is interrupted. In a compressed archive this is so as long
as every member can be inflated. Main fact: `closeAll_chunks`.
-/
namespace WebArchive

open Gzip (MemberText HeaderText Container)

/-- Every member can be inflated and has its trailer. Behind the last of them there is no header
any more, but there may be other bytes. -/
def Gzip.Intact (bytes : Bytes) : Prop :=
  ∃ (texts : List MemberText) (tail : Bytes), bytes = texts.flatMap (·.bytes) ++ tail ∧
    ∀ head : HeaderText, ¬ head.bytes <+: tail

theorem Archive.closeAll_congr {σ ρ ν : Type} [Readable σ] [Archive ρ σ] {note : ρ → ν} {a b : ρ}
    (same : next a = next b) : closeAll note a = closeAll note b := by
  rcases answer : next b with ⟨e | _ | record, b'⟩
  · rw [closeAll_error answer, closeAll_error (same.trans answer)]
  · rw [closeAll_end answer, closeAll_end (same.trans answer)]
  · rw [closeAll_record answer rfl rfl, closeAll_record (same.trans answer) rfl rfl]

namespace PackedArchive
variable {E : StreamError → Prop} {index total : Nat} {waiting : List Gzip.Member} {d : Bytes}
  {a : PackedArchive}

/-- Once the member at hand is over, the members `waiting` can be collected, and `d` is still to
come in the container. -/
def Awaits (E : StreamError → Prop) (index total : Nat) (waiting : List Gzip.Member) (d : Bytes)
    (p : Gzip.Packed) : Prop :=
  ∃ c, p.settle = (.ok (), ⟨c, waiting⟩) ∧ Container.Between E index total d c

theorem awaits_start {source : Source} (steady : source.OnlyInterrupted) :
    Awaits (·.isInterrupted) 0 source.bytes.length [] source.bytes (.start source) := by
  have idle : (Container.start source).current = none := rfl
  refine ⟨.start source, ?_, Container.between_of (Source.holds_onlyInterrupted steady)⟩
  simp only [Gzip.Packed.settle, Gzip.Packed.start, Container.finish_idle idle]
  rfl

theorem awaits_inside (quiet : Quiet E) {t : MemberText} {offset : Nat} {behind : Bytes}
    {p : Gzip.Packed} (h : Container.Inside E t index offset total behind p.container d) :
    Awaits E (index + 1) total (p.completed ++ [t.entry index offset]) behind p := by
  obtain ⟨c, finished, between⟩ := Container.finish_eq quiet h
  refine ⟨c, ?_, between⟩
  simp only [Gzip.Packed.settle, finished]
  rfl

/-- How a run ends whose container has only these bytes left, which begin at `offset`. -/
def ending (offset : Nat) (tail : Bytes) : Except ArchiveError Unit :=
  match (Gzip.readHeader offset tail).1 with
  | .ok _ => .ok ()
  | .error e => .error (.gzip e)

theorem closeAll_tail (quiet : Quiet E) (bare : ∀ head : HeaderText, ¬ head.bytes <+: d)
    (h : Awaits E index total waiting d a.packed) :
    Archive.closeAll count a = ⟨[], ending (total - d.length) d, waiting⟩ := by
  obtain ⟨c, settled, between⟩ := h
  have place := Nat.eq_sub_of_add_eq between.place
  obtain ⟨input, answer, _⟩ := Gzip.agrees_readHeader (Cursor.tracks E total) quiet
    (total - d.length) between.input
  rw [← place] at answer
  unfold ending
  rw [← place]
  rcases read : Gzip.readHeader c.position d with ⟨e | _ | found, rest⟩ <;> rw [read] at answer
  · have begun : c.next = (.error e, { c with input }) := by
      simp only [Container.next_idle between.idle, Container.begin, answer]
    have failed : Archive.next a = (.error (.gzip e),
        { a with packed := ⟨{ c with input }, waiting⟩ }) := by
      simp only [Archive.next, next, seek_failed settled begun]
    exact Archive.closeAll_error failed
  · have begun : c.next = (.ok none, { c with input }) := by
      simp only [Container.next_idle between.idle, Container.begin, answer]
    have ended : Archive.next a = (.ok none,
        { a with packed := ⟨{ c with input }, waiting⟩ }) := by
      simp only [Archive.next, next, seek_none settled begun]
    exact Archive.closeAll_end ended
  · obtain ⟨head, rfl⟩ := Gzip.readHeader_found read
    exact absurd (List.prefix_append ..) (bare head)

/-- A blank member is passed over, and waits to be collected. -/
theorem next_passed (quiet : Quiet E) {t : MemberText} {behind : Bytes}
    (blank : a.dialect.tile? a.options none t.data = none)
    (h : Awaits E index total waiting (t.bytes ++ behind) a.packed) :
    ∃ p, a.next = { a with packed := p }.next ∧
      Awaits E (index + 1) total
        (waiting ++ [t.entry index (total - (t.bytes ++ behind).length)]) behind p := by
  obtain ⟨c, settled, between⟩ := h
  have place := Nat.eq_sub_of_add_eq between.place
  obtain ⟨c', begun, inside⟩ := Container.next_member quiet between
  obtain ⟨s, looked, held⟩ := look_eq quiet a.dialect a.options inside
  rw [Option.map_eq_none_iff.mp blank] at looked
  obtain ⟨d, inside, _⟩ := held
  rw [place] at inside
  refine ⟨⟨s.inner, waiting⟩, ?_, awaits_inside quiet inside⟩
  simp only [next]
  rw [seek_passed settled begun looked]

/-- The record that a member begins with is found, and closed. -/
theorem next_inside (quiet : Quiet E) {t : MemberText} {tile : Tile} {behind : Bytes}
    (found : a.dialect.tile? a.options none t.data = some tile)
    (h : Awaits E index total waiting (t.bytes ++ behind) a.packed) :
    ∃ record c record' d, a.next = (.ok (some record),
        { a with packed := ⟨c, waiting⟩, dialect := a.dialect.behind tile.sight,
                 count := a.count + 1 }) ∧
      record.close = (.ok (), record') ∧ record'.view = tile.sight.closed ∧
      Container.Inside E t index (total - (t.bytes ++ behind).length) total behind
        record'.stream.inner.inner d := by
  obtain ⟨c, settled, between⟩ := h
  have place := Nat.eq_sub_of_add_eq between.place
  obtain ⟨c', begun, inside⟩ := Container.next_member quiet between
  obtain ⟨s, looked, held⟩ := look_eq quiet a.dialect a.options inside
  obtain ⟨_, lines, read, content, sight⟩ := Dialect.tile?_eq_some found
  rw [← lines] at looked held
  rw [read] at looked
  have tracks := Buffered.tracks (Chained.tracks
    (Container.tracks quiet t index c.position total behind))
  obtain ⟨record, s', record', opened, closed, shows, after, left⟩ :=
    Dialect.openRecord_closed tracks.toTracks quiet a.dialect a.options tile.heading
      (holds_rejoin held)
  have content : tile.content = List.take (tile.heading.length.getD 0)
      (List.drop tile.header.length (t.data.dropWhile Line.isBlank)) := content
  rw [Tile.header] at content
  rw [← content, ← sight] at shows after
  obtain ⟨_, ⟨d, inside, _⟩, _⟩ := left
  rw [place] at inside
  refine ⟨record, s'.inner.inner, record', d, ?_, closed, shows, inside⟩
  simp only [next, seek_found settled begun looked, enter, opened, resume, after]

/-- The members before a record are collected once the record is closed. -/
theorem next_closed (quiet : Quiet E) {t : MemberText} {tile : Tile} {behind : Bytes}
    (found : a.dialect.tile? a.options none t.data = some tile)
    (h : Awaits E index total waiting (t.bytes ++ behind) a.packed) :
    ∃ record a' record' p, a.next = (.ok (some record), a') ∧
      record.close = (.ok (), record') ∧ record'.view = tile.sight.closed ∧
      (a'.resume record'.stream).takeCompleted = (waiting,
        { a with packed := p, dialect := a.dialect.behind tile.sight, count := a.count + 1 }) ∧
      Awaits E (index + 1) total [t.entry index (total - (t.bytes ++ behind).length)] behind p := by
  obtain ⟨record, c, record', d, answer, closed, shows, inside⟩ := next_inside quiet found h
  exact ⟨record, _, record', ⟨record'.stream.inner.inner, []⟩, answer, closed, shows, rfl,
    awaits_inside quiet inside⟩

/-- One history is told of all archives that await the same members. -/
theorem exists_history (quiet : Quiet E) {tail : Bytes}
    (bare : ∀ head : HeaderText, ¬ head.bytes <+: tail) (texts : List MemberText)
    (dialect : Dialect) (options : ReaderOptions) (counted index total : Nat)
    (waiting : List Gzip.Member) :
    ∃ history, ∀ a : PackedArchive, a.dialect = dialect → a.options = options →
      a.count = counted →
      Awaits E index total waiting (texts.flatMap (·.bytes) ++ tail) a.packed →
      Archive.closeAll count a = history := by
  induction texts generalizing dialect counted index waiting with
  | nil => exact ⟨_, fun a _ _ _ awaits => closeAll_tail quiet bare awaits⟩
  | cons t texts ih =>
    rw [List.flatMap_cons, List.append_assoc]
    cases found : dialect.tile? options none t.data with
    | none =>
      obtain ⟨history, told⟩ := ih dialect counted (index + 1)
        (waiting ++ [t.entry index (total - (t.bytes ++ (texts.flatMap (·.bytes) ++ tail)).length)])
      refine ⟨history, ?_⟩
      rintro a rfl rfl rfl awaits
      obtain ⟨p, same, awaits⟩ := next_passed quiet found awaits
      rw [Archive.closeAll_congr same]
      exact told { a with packed := p } rfl rfl rfl awaits
    | some tile =>
      obtain ⟨history, told⟩ := ih (dialect.behind tile.sight) (counted + 1) (index + 1)
        [t.entry index (total - (t.bytes ++ (texts.flatMap (·.bytes) ++ tail)).length)]
      refine ⟨history.behind ⟨tile.sight.closed, .ok (), waiting, counted + 1⟩, ?_⟩
      rintro a rfl rfl rfl awaits
      obtain ⟨record, a', record', p, answer, closed, shows, taken, awaits⟩ :=
        next_closed quiet found awaits
      have rest := told { a with
        packed := p, dialect := a.dialect.behind tile.sight, count := a.count + 1 }
        rfl rfl rfl awaits
      rw [Archive.closeAll_record answer closed taken, shows, rest]

end PackedArchive

/-- Sources with the same bytes are told of alike, wherever they are cut into chunks or
interrupted. -/
theorem closeAll_chunks {s₁ s₂ : Source} (same : s₁.bytes = s₂.bytes)
    (steady₁ : s₁.OnlyInterrupted) (steady₂ : s₂.OnlyInterrupted) (options : ReaderOptions) :
    (Archive.closeAll PlainArchive.nextOffset (PlainArchive.arc s₁ options) =
        Archive.closeAll PlainArchive.nextOffset (PlainArchive.arc s₂ options) ∧
      Archive.closeAll PlainArchive.nextOffset (PlainArchive.warc s₁ options) =
        Archive.closeAll PlainArchive.nextOffset (PlainArchive.warc s₂ options)) ∧
    (Gzip.Intact s₁.bytes →
      Archive.closeAll PackedArchive.count (PackedArchive.arc s₁ options) =
          Archive.closeAll PackedArchive.count (PackedArchive.arc s₂ options) ∧
        Archive.closeAll PackedArchive.count (PackedArchive.warc s₁ options) =
          Archive.closeAll PackedArchive.count (PackedArchive.warc s₂ options)) := by
  have plain (dialect : Dialect) :
      Archive.closeAll PlainArchive.nextOffset { input := ⟨s₁, 0⟩, dialect, options } =
        Archive.closeAll PlainArchive.nextOffset { input := ⟨s₂, 0⟩, dialect, options } := by
    rw [PlainArchive.closeAll_start steady₁, PlainArchive.closeAll_start steady₂, same]
  refine ⟨⟨plain (.arc none), plain .warc⟩, ?_⟩
  rintro ⟨texts, tail, split, bare⟩
  have packed (dialect : Dialect) :
      Archive.closeAll PackedArchive.count { packed := .start s₁, dialect, options } =
        Archive.closeAll PackedArchive.count { packed := .start s₂, dialect, options } := by
    obtain ⟨history, told⟩ := PackedArchive.exists_history quiet_interrupted bare texts dialect
      options 0 0 s₁.bytes.length []
    have first := PackedArchive.awaits_start steady₁
    have second := PackedArchive.awaits_start steady₂
    rw [← same] at second
    rw [told _ rfl rfl rfl (split ▸ first), told _ rfl rfl rfl (split ▸ second)]
  exact ⟨packed (.arc none), packed .warc⟩

/-- A member with a version line, and the first byte of a header behind it. -/
def truncatedPair : Bytes :=
  (PackedArchive.memberOf [0x57, 0x41, 0x52, 0x43, 0x2F, 0x31, 0x2E, 0x30, 0x0D, 0x0A]).bytes ++
    [0x1F]

theorem intact_truncatedPair : Gzip.Intact truncatedPair := by
  refine ⟨[PackedArchive.memberOf [0x57, 0x41, 0x52, 0x43, 0x2F, 0x31, 0x2E, 0x30, 0x0D, 0x0A]],
    [0x1F], by simp [truncatedPair], fun head front => ?_⟩
  have size := head.header.length_fixed head.flags
  have short := front.length_le
  simp only [HeaderText.bytes, HeaderText.body, List.length_append, List.length_cons,
    List.length_nil] at short
  omega

/-- The container is cut in the header of its member, and interrupted twice there. -/
theorem closeAll_chunks_member :
    Gzip.Intact (Source.bytes ⟨[.chunk truncatedPair]⟩) ∧
    Archive.closeAll PlainArchive.nextOffset (PlainArchive.warc ⟨[.chunk truncatedPair]⟩) =
      Archive.closeAll PlainArchive.nextOffset (PlainArchive.warc
        ⟨[.chunk (truncatedPair.take 5), .failure (.device .interrupted ""),
          .failure (.device .interrupted ""), .chunk (truncatedPair.drop 5)]⟩) ∧
    Archive.closeAll PackedArchive.count (PackedArchive.warc ⟨[.chunk truncatedPair]⟩) =
      Archive.closeAll PackedArchive.count (PackedArchive.warc
        ⟨[.chunk (truncatedPair.take 5), .failure (.device .interrupted ""),
          .failure (.device .interrupted ""), .chunk (truncatedPair.drop 5)]⟩) := by
  have intact : Gzip.Intact (Source.bytes ⟨[.chunk truncatedPair]⟩) := by
    simpa [Source.bytes, Source.Event.bytes] using intact_truncatedPair
  have told := @closeAll_chunks ⟨[.chunk truncatedPair]⟩
    ⟨[.chunk (truncatedPair.take 5), .failure (.device .interrupted ""),
      .failure (.device .interrupted ""), .chunk (truncatedPair.drop 5)]⟩
    (by simp [Source.bytes, Source.Event.bytes]) (by simp [Source.OnlyInterrupted, Source.failures])
    (by simp [Source.OnlyInterrupted, Source.failures, StreamError.isInterrupted,
      StreamError.kind]) {}
  exact ⟨intact, told.1.2, (told.2 intact).2⟩

end WebArchive
