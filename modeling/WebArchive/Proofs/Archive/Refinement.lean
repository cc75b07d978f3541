import WebArchive.Archive.Packed
import WebArchive.Proofs.Archive.Reading
import WebArchive.Proofs.Deflate.Compression
import WebArchive.Proofs.Gzip.Members

/-!
A compressed archive shows what its members would show on their own. In every member that is not
blank the same record is found as a plain reader of its data finds first, whatever was looked at
ahead and however the record before was used. Main fact: `refines_plain`.
-/
namespace WebArchive

open Gzip (MemberText Container)
open PlainArchive (recordOf)

/-- What the first record in the data shows; none if all is blank. -/
def Dialect.firstSight (dialect : Dialect) (options : ReaderOptions) (d : Bytes) :
    Option Record.Sight :=
  (dialect.tile? options none d).map (·.sight)

theorem Dialect.firstSight_eq_none {dialect : Dialect} {options : ReaderOptions} {d : Bytes} :
    dialect.firstSight options d = none ↔ d.all Line.isBlank := by
  rw [firstSight, Option.map_eq_none_iff]
  constructor
  · exact all_isBlank
  · intro blank
    cases found : dialect.tile? options none d with
    | none => rfl
    | some tile => exact absurd (Line.dropWhile_of_all blank) (tile?_ne_nil found)

/-- A plain archive with just these bytes, read without offsets, begins with a record that shows
`first`, or has no record at all. -/
def PlainArchive.Begins (options : ReaderOptions) (d : Bytes) (first : Option Record.Sight) :
    Prop :=
  ∀ source : Source, source.bytes = d → source.failures = [] →
    match first with
    | some sight => ∃ record a,
        (warc source options).withoutOffsets.next = (.ok (some record), a) ∧ record.Shows sight
    | none => ∃ a, (warc source options).withoutOffsets.next = (.ok none, a)

theorem PlainArchive.begins_firstSight (options : ReaderOptions) (d : Bytes) :
    Begins options d (Dialect.warc.firstSight options d) := by
  rintro source rfl calm
  obtain ⟨dialect, set, input⟩ := stands_start calm options .warc
  have stands : (warc source options).withoutOffsets.Stands
      (Cursor.Holds noError source.bytes.length) options .warc source.bytes :=
    ⟨dialect, set, input⟩
  have p := Cursor.places noError source.bytes.length
  cases found : Dialect.warc.tile? options none source.bytes with
  | none =>
    obtain ⟨a, answer, _⟩ := next_end p quiet_noError stands (Dialect.tile?_eq_none found)
    rw [Dialect.firstSight, found]
    exact ⟨a, answer⟩
  | some tile =>
    obtain ⟨record, _, a, answer, shows, _⟩ := next_record p stands found
    rw [Dialect.firstSight, found]
    exact ⟨record, a, answer, shows⟩

/-- There is only one thing that an archive with these bytes begins with. -/
theorem PlainArchive.Begins.unique {options : ReaderOptions} {d : Bytes}
    {first first' : Option Record.Sight} (h : Begins options d first)
    (h' : Begins options d first') : first = first' := by
  have bytes : Source.bytes { events := [.chunk d] } = d := List.append_nil d
  have begins := h { events := [.chunk d] } bytes rfl
  have begins' := h' { events := [.chunk d] } bytes rfl
  match first, first' with
  | none, none => rfl
  | none, some _ =>
    obtain ⟨_, answer⟩ := begins
    obtain ⟨_, _, answer', _⟩ := begins'
    cases answer.symm.trans answer'
  | some _, none =>
    obtain ⟨_, _, answer, _⟩ := begins
    obtain ⟨_, answer'⟩ := begins'
    cases answer.symm.trans answer'
  | some _, some _ =>
    obtain ⟨_, _, answer, shows⟩ := begins
    obtain ⟨_, _, answer', shows'⟩ := begins'
    cases answer.symm.trans answer'
    rw [shows.unique shows']

namespace PackedArchive

/-- What the records of the members show, those of the blank ones left out. -/
def sights (dialect : Dialect) (options : ReaderOptions) : List MemberText → List Record.Sight
  | [] => []
  | t :: texts =>
    match dialect.firstSight options t.data with
    | none => sights dialect options texts
    | some sight => sight :: sights (dialect.behind sight) options texts

theorem sights_of_blank {dialect : Dialect} {options : ReaderOptions} {t : MemberText}
    (texts : List MemberText) (none : dialect.firstSight options t.data = none) :
    sights dialect options (t :: texts) = sights dialect options texts := by
  rw [sights, none]

theorem sights_of_some {dialect : Dialect} {options : ReaderOptions} {t : MemberText}
    {sight : Record.Sight} (texts : List MemberText)
    (first : dialect.firstSight options t.data = some sight) :
    sights dialect options (t :: texts) =
      sight :: sights (dialect.behind sight) options texts := by
  rw [sights, first]

theorem sights_warc (options : ReaderOptions) (texts : List MemberText) :
    sights .warc options texts =
      texts.filterMap fun t => Dialect.warc.firstSight options t.data := by
  induction texts with
  | nil => rfl
  | cons t texts ih =>
    rw [List.filterMap_cons]
    cases first : Dialect.warc.firstSight options t.data with
    | none => rw [sights_of_blank texts first, ih]
    | some sight => rw [sights_of_some texts first, ← ih]; rfl

/-- The container stands in front of the members `texts`, or inside the one before them. -/
def Ahead (total : Nat) (texts : List MemberText) (c : Container) : Prop :=
  ∃ index, c.Between noError index total (texts.flatMap (·.bytes)) ∨
    ∃ t offset d, Container.Inside noError t index offset total (texts.flatMap (·.bytes)) c d

theorem settle_eq {p : Gzip.Packed} {total : Nat} {texts : List MemberText}
    (h : Ahead total texts p.container) :
    ∃ p' index, p.settle = (.ok (), p') ∧
      p'.container.Between noError index total (texts.flatMap (·.bytes)) := by
  obtain ⟨index, between | ⟨t, offset, d, inside⟩⟩ := h
  · refine ⟨⟨p.container, p.completed ++ []⟩, index, ?_, between⟩
    simp only [Gzip.Packed.settle, Container.finish_idle between.idle]
    rfl
  · obtain ⟨c', finished, between⟩ := Container.finish_eq quiet_noError inside
    refine ⟨⟨c', p.completed ++ [t.entry index offset]⟩, index + 1, ?_, between⟩
    simp only [Gzip.Packed.settle, finished]
    rfl

theorem look_eq {E : StreamError → Prop} (quiet : Quiet E) {t : MemberText}
    {index offset total : Nat} {behind : Bytes} {c : Container} (dialect : Dialect)
    (options : ReaderOptions) (h : Container.Inside E t index offset total behind c t.data) :
    ∃ s, (look dialect options).run { inner := c } =
        (.ok (dialect.heading options none
          (dialect.headerLines options (t.data.dropWhile Line.isBlank))), s) ∧
      s.Holds (Container.Inside E t index offset total behind)
        ((t.data.dropWhile Line.isBlank).drop
          (dialect.headerLines options (t.data.dropWhile Line.isBlank)).flatten.length) := by
  have tracks := Buffered.tracks (Container.tracks quiet t index offset total behind)
  obtain ⟨s₁, blank, held⟩ := Line.skipBlank_eq tracks quiet (Buffered.holds_start h)
  obtain ⟨s₂, answer, held⟩ := Dialect.readHeading_eq tracks quiet dialect options none held
  exact ⟨s₂, by simp only [look, blank, Outcome.andThen, answer], held⟩

/-! ### One member after the other -/

section Seek
variable {α : Type} {look : Gzip.Packed.Look α} {p p' : Gzip.Packed} {c : Container}
  {m : Gzip.Member} {s : Buffered Container}

theorem seek_unsettled {e : StreamError} (failed : p.settle = (.error e, p')) :
    p.seek look = (.error (.stream e), p') := by
  rw [Gzip.Packed.seek]
  split <;> rename_i call <;> cases failed.symm.trans call
  rfl

theorem seek_unseen {e : StreamError} (settled : p.settle = (.ok (), p'))
    (begun : p'.container.next = (.ok (some m), c))
    (failed : look.run { inner := c } = (.error e, s)) :
    p.seek look = (.error (.stream e), { p' with container := s.inner }) := by
  rw [Gzip.Packed.seek]
  split <;> rename_i call <;> cases settled.symm.trans call
  split <;> rename_i call <;> cases begun.symm.trans call
  split <;> rename_i call <;> cases failed.symm.trans call
  rfl

theorem seek_none (settled : p.settle = (.ok (), p'))
    (ended : p'.container.next = (.ok none, c)) :
    p.seek look = (.ok none, { p' with container := c }) := by
  rw [Gzip.Packed.seek]
  split <;> rename_i call <;> cases settled.symm.trans call
  split <;> rename_i call <;> cases ended.symm.trans call
  rfl

theorem seek_failed {e : Gzip.Error} (settled : p.settle = (.ok (), p'))
    (failed : p'.container.next = (.error e, c)) :
    p.seek look = (.error (.gzip e), { p' with container := c }) := by
  rw [Gzip.Packed.seek]
  split <;> rename_i call <;> cases settled.symm.trans call
  split <;> rename_i call <;> cases failed.symm.trans call
  rfl

theorem seek_found (settled : p.settle = (.ok (), p'))
    (begun : p'.container.next = (.ok (some m), c)) {found : α}
    (looked : look.run { inner := c } = (.ok (some found), s)) :
    p.seek look = (.ok (some (found, s)), { p' with container := s.inner }) := by
  rw [Gzip.Packed.seek]
  split <;> rename_i call <;> cases settled.symm.trans call
  split <;> rename_i call <;> cases begun.symm.trans call
  split <;> rename_i call <;> cases looked.symm.trans call
  rfl

theorem seek_passed (settled : p.settle = (.ok (), p'))
    (begun : p'.container.next = (.ok (some m), c))
    (looked : look.run { inner := c } = (.ok none, s)) :
    p.seek look = Gzip.Packed.seek look { p' with container := s.inner } := by
  rw [Gzip.Packed.seek]
  split <;> rename_i call <;> cases settled.symm.trans call
  split <;> rename_i call <;> cases begun.symm.trans call
  split <;> rename_i call <;> cases looked.symm.trans call
  rfl

end Seek

/-- Members that are blank are passed over; in the first other one the heading is found. -/
theorem seek_eq {p : Gzip.Packed} {total : Nat} {texts : List MemberText} (dialect : Dialect)
    (options : ReaderOptions) (h : Ahead total texts p.container) :
    (∃ p', p.seek (look dialect options) = (.ok none, p') ∧
      p'.container.position = total ∧ Ahead total [] p'.container ∧
      sights dialect options texts = []) ∨
    ∃ (t : MemberText) (rest : List MemberText) (tile : Tile) (index offset : Nat)
      (s : Buffered Container) (p' : Gzip.Packed),
      p.seek (look dialect options) = (.ok (some (tile.heading, s)), p') ∧
      dialect.tile? options none t.data = some tile ∧
      s.Holds (Container.Inside noError t index offset total (rest.flatMap (·.bytes)))
        ((t.data.dropWhile Line.isBlank).drop tile.header.length) ∧
      sights dialect options texts =
        tile.sight :: sights (dialect.behind tile.sight) options rest := by
  induction texts generalizing p with
  | nil =>
    obtain ⟨p', index, settled, between⟩ := settle_eq h
    obtain ⟨c', answer, place, after⟩ := Container.next_end quiet_noError between
    refine Or.inl ⟨{ p' with container := c' }, ?_, place, ⟨index, Or.inl after⟩, rfl⟩
    exact seek_none settled answer
  | cons t rest ih =>
    obtain ⟨p', index, settled, between⟩ := settle_eq h
    rw [List.flatMap_cons] at between
    obtain ⟨c', answer, inside⟩ := Container.next_member quiet_noError between
    obtain ⟨s, looked, held⟩ := look_eq quiet_noError dialect options inside
    cases found : dialect.tile? options none t.data with
    | none =>
      have none := Option.map_eq_none_iff.mp found
      rw [none] at looked
      -- the look has read on in the blank member, so the search goes on inside it
      obtain ⟨d, inside, _⟩ := held
      rw [seek_passed settled answer looked]
      rw [sights_of_blank rest (by rw [Dialect.firstSight, found]; rfl)]
      exact ih ⟨index, Or.inr ⟨t, _, d, inside⟩⟩
    | some tile =>
      obtain ⟨_, lines, read, _⟩ := Dialect.tile?_eq_some found
      rw [← lines] at looked held
      rw [read] at looked
      have gone := seek_found settled answer looked
      refine Or.inr ⟨t, rest, tile, index, _, s, _, gone, found, held, ?_⟩
      exact sights_of_some rest (by rw [Dialect.firstSight, found]; rfl)

structure Stands (a : PackedArchive) (options : ReaderOptions) (dialect : Dialect) (total : Nat)
    (texts : List MemberText) : Prop where
  dialect : a.dialect = dialect
  options : a.options = options
  ahead : Ahead total texts a.container

variable {a : PackedArchive} {options : ReaderOptions} {dialect : Dialect} {total : Nat}
  {texts : List MemberText}

theorem stands_start {source : Source} (same : source.bytes = texts.flatMap (·.bytes))
    (calm : source.failures = []) (options : ReaderOptions) :
    Stands { packed := .start source, dialect, options } options dialect source.bytes.length
      texts := by
  have begun := Container.between_start calm
  rw [same] at begun
  exact ⟨rfl, rfl, 0, Or.inl (same ▸ begun)⟩

/-- What was looked at and not taken comes back in front. -/
theorem holds_rejoin {I : Container → Bytes → Prop} {s : Buffered Container} {d : Bytes}
    (h : s.Holds I d) : (rejoin s).Holds (Chained.Holds I) d := Buffered.holds_start h

/-- However a record has been used, its stream leaves the container inside its member. -/
theorem stands_resume {t : MemberText} {index offset : Nat} {stream : Stream} {d : Bytes}
    (same : a.dialect = dialect) (set : a.options = options)
    (held : Buffered.Holds (Chained.Holds (Container.Inside noError t index offset total
      (texts.flatMap (·.bytes)))) stream d) :
    (a.resume stream).Stands options dialect total texts := by
  obtain ⟨_, ⟨d', inside, _⟩, _⟩ := held
  exact ⟨same, set, index, Or.inr ⟨t, offset, d', inside⟩⟩

theorem next_eq (h : a.Stands options dialect total texts) :
    (∃ a', a.next = (.ok none, a') ∧ a'.container.position = total ∧
      a'.Stands options dialect total [] ∧ sights dialect options texts = []) ∨
    ∃ sight rest record a', a.next = (.ok (some record), a') ∧ record.Shows sight ∧
      sights dialect options texts = sight :: sights (dialect.behind sight) options rest ∧
      ∀ actions, (a'.resume (record.use actions).2.stream).Stands options (dialect.behind sight)
        total rest := by
  obtain ⟨rfl, set, ahead⟩ := h
  rcases seek_eq a.dialect options ahead with ⟨p', answer, place, after, none⟩ |
    ⟨t, rest, tile, index, offset, s, p', answer, found, held, split⟩
  · exact Or.inl ⟨{ a with packed := p' }, by simp only [next, set, answer], place,
      ⟨rfl, set, after⟩, none⟩
  · have tracks := Buffered.tracks (Chained.tracks
      (Container.tracks quiet_noError t index offset total (rest.flatMap (·.bytes))))
    obtain ⟨_, _, _, content, sight⟩ := Dialect.tile?_eq_some found
    obtain ⟨record, s', opened, shows, after, streams⟩ :=
      Dialect.openRecord_eq tracks.toTracks a.dialect options tile.heading (holds_rejoin held)
    rw [← content, ← sight] at shows after
    refine Or.inr ⟨tile.sight, rest, record, { a with
      packed := { p' with container := s'.inner.inner }
      dialect := a.dialect.after record
      count := a.count + 1 }, ?_, shows, split, fun actions => ?_⟩
    · simp only [next, set, answer, enter, opened, resume]
    · obtain ⟨k, _, left, _⟩ := streams actions
      exact stands_resume after set left

theorem Stands.yields_sights (h : a.Stands options dialect total texts)
    (uses : List (List Action)) :
    Archive.Yields (fun a : PackedArchive => a.container.position = total)
      (sights dialect options texts) a uses := by
  induction uses generalizing a dialect texts with
  | nil => cases sights dialect options texts <;> trivial
  | cons actions uses ih =>
    rcases next_eq h with ⟨a', answer, place, after, none⟩ |
      ⟨sight, rest, record, a', answer, shows, split, after⟩
    · rw [none]
      exact ⟨a', answer, place, ih after⟩
    · rw [split]
      exact ⟨record, a', answer, shows, ih (after actions)⟩

theorem Stands.yields (h : a.Stands options .warc total texts) (uses : List (List Action)) :
    Archive.Yields (fun a : PackedArchive => a.container.position = total)
      (texts.filterMap fun t => Dialect.warc.firstSight options t.data) a uses :=
  sights_warc options texts ▸ h.yields_sights uses

/-- In front of a container, whatever its headers and trailers say, a compressed archive gives the
records that plain archives with the data of its members begin with. Members without a record are
passed over, and behind the last one there is none. -/
theorem refines_plain (options : ReaderOptions) :
    ∃ first : Bytes → Option Record.Sight,
      (∀ d, PlainArchive.Begins options d (first d) ∧ (first d = none ↔ d.all Line.isBlank)) ∧
      ∀ (texts : List MemberText) (source : Source), source.bytes = texts.flatMap (·.bytes) →
        source.failures = [] → ∀ uses,
        Archive.Yields (fun a : PackedArchive => a.container.position = source.bytes.length)
          (texts.filterMap fun t => first t.data) (warc source options) uses := by
  refine ⟨Dialect.warc.firstSight options, fun d => ?_, fun texts source same calm uses => ?_⟩
  · exact ⟨PlainArchive.begins_firstSight options d, Dialect.firstSight_eq_none⟩
  · exact (stands_start same calm options).yields uses

/-- A member with these data behind a header that says nothing, as it is written. -/
def memberOf (data : Bytes) : MemberText where
  head := Gzip.Header.Fits.text (h := {}) ⟨rfl, by simp, by simp, by simp⟩
  packed := Deflate.compress data
  data
  trailer := Gzip.Member.trailer (Crc32.update {} data) data.length
  encodes := Deflate.encodes_compress data
  whole := Gzip.Member.length_trailer ..

/-- More than is looked at ahead. -/
def longContent : Bytes := List.replicate 9000 0x61

theorem firstSight_longContent :
    ∃ sight : ContentRecord.Sight,
      Dialect.warc.firstSight {} (recordOf "9000" longContent) = some (.content sight) ∧
        sight.content = longContent := by
  have begun : (recordOf "9000" longContent).dropWhile Line.isBlank =
      recordOf "9000" longContent := rfl
  have header : (Dialect.warc.headerLines {} (recordOf "9000" longContent)).flatten =
      recordOf "9000" [] := by decide +kernel
  have read : (Dialect.warc.heading {} none (Dialect.warc.headerLines {}
      (recordOf "9000" longContent))).map (·.length) = some (some 9000) := by decide +kernel
  obtain ⟨heading, read, length⟩ := Option.map_eq_some_iff.mp read
  have all : longContent.take 9000 = longContent :=
    List.take_of_length_le (Nat.le_of_eq List.length_replicate)
  have whole : recordOf "9000" longContent = recordOf "9000" [] ++ longContent := by
    simp [recordOf]
  have content : ((recordOf "9000" longContent).drop (recordOf "9000" []).length).take 9000 =
      longContent := by
    rw [whole, List.drop_left, all]
  refine ⟨.of {} heading longContent, ?_, ?_⟩
  · rw [Dialect.firstSight, Dialect.tile?, begun, read]
    simp only [header, Option.map_some, length, Option.getD_some, content]
    rfl
  · simp only [ContentRecord.Sight.of, length, Option.getD_some, all]

/-- A blank member is passed over. The record in the one behind it is found, and its content goes on
where the bytes that were looked at end. -/
theorem refines_plain_pair :
    ∃ sight : ContentRecord.Sight, sight.content = longContent ∧
      PlainArchive.Begins {} (recordOf "9000" longContent) (some (.content sight)) ∧
      ∃ total, ∀ uses, Archive.Yields (fun a : PackedArchive => a.container.position = total)
        [.content sight] (warc ⟨[.chunk (memberOf [0x0D, 0x0A]).bytes,
          .chunk (memberOf (recordOf "9000" longContent)).bytes]⟩) uses := by
  obtain ⟨first, shows, yields⟩ := refines_plain {}
  have blank : first [0x0D, 0x0A] = none := (shows _).2.mpr (by decide)
  obtain ⟨sight, found, content⟩ := firstSight_longContent
  have same := (shows _).1.unique (PlainArchive.begins_firstSight {} (recordOf "9000" longContent))
  rw [found] at same
  have run := yields [memberOf [0x0D, 0x0A], memberOf (recordOf "9000" longContent)]
    ⟨[.chunk (memberOf [0x0D, 0x0A]).bytes, .chunk (memberOf (recordOf "9000" longContent)).bytes]⟩
    rfl rfl
  have datas : ([memberOf [0x0D, 0x0A], memberOf (recordOf "9000" longContent)].filterMap
      fun t => first t.data) = [.content sight] := by
    simp [memberOf, blank, same]
  rw [datas] at run
  exact ⟨sight, content, same ▸ (shows _).1, _, run⟩

end PackedArchive
end WebArchive
