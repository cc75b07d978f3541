import WebArchive.Proofs.Archive.Closing

/-!
Archives that are cut short. Lines, headers and records in front of the cut stay as they are; the
one that the cut goes through takes all that is left, so nothing comes behind it. Main fact:
`PlainArchive.closeAll_cut`.
-/
namespace WebArchive

/-! ### Lines and headers in front of a cut -/

namespace Line

theorem first_append (d more : Bytes) :
    first d = first (d ++ more) ∨ first d = d ∧ d.length < (first (d ++ more)).length := by
  by_cases found : (d.takeWhile (· ≠ lineFeed)).length < d.length
  · left
    rw [first, first, takeWhile_of_found found, List.take_append_of_le_length found]
  · obtain ⟨same, whole⟩ := takeWhile_of_absent more found
    have all : first d = d := by rw [first, same, List.take_of_length_le (Nat.le_succ _)]
    cases more with
    | nil => simp
    | cons b bs =>
      right
      refine ⟨all, ?_⟩
      rw [first, whole]
      simp only [List.length_take, List.length_append, List.length_cons]
      omega

end Line

namespace Warc.HeaderBlock

theorem length_blockLines_ge (most : Nat) (d : Bytes) :
    (Line.first d).length ≤ (blockLines most d).flatten.length := by
  by_cases some : d = []
  · subst some
    exact Nat.zero_le _
  · obtain ⟨rest, lines, _⟩ := blockLines_cons most some
    rw [lines, List.flatten_cons, List.length_append]
    exact Nat.le_add_right ..

/-- The lines of a block stay the same in a longer text, or they are all of the shorter one. -/
theorem blockLines_append (most : Nat) (d more : Bytes) :
    blockLines most d = blockLines most (d ++ more) ∨
      (blockLines most d).flatten = d ∧
        d.length < (blockLines most (d ++ more)).flatten.length := by
  fun_induction blockLines most d with
  | case1 =>
    cases more with
    | nil => exact Or.inl (by simp [blockLines])
    | cons b bs =>
      right
      refine ⟨rfl, ?_⟩
      have some := Line.length_first_pos (List.cons_ne_nil b bs)
      have le := length_blockLines_ge most (b :: bs)
      exact Nat.lt_of_lt_of_le some le
  | case2 d some empty =>
    rcases Line.first_append d more with same | ⟨all, longer⟩
    · left
      rw [blockLines, dif_neg (List.append_ne_nil_of_left_ne_nil some more), ← same, if_pos empty]
    · right
      refine ⟨by simpa using all, ?_⟩
      exact Nat.lt_of_lt_of_le longer (length_blockLines_ge most (d ++ more))
  | case3 d some full ih =>
    rcases Line.first_append d more with same | ⟨all, longer⟩
    · have short := (Line.first_isPrefix d).length_le
      have lines : blockLines most (d ++ more) =
          Line.first d :: blockLines most (d.drop (Line.first d).length ++ more) := by
        rw [blockLines, dif_neg (List.append_ne_nil_of_left_ne_nil some more), ← same,
          if_neg full, List.drop_append_of_le_length short]
      rw [lines]
      rcases ih with rest | ⟨rest, longer⟩
      · exact Or.inl (congrArg _ rest)
      · right
        rw [List.flatten_cons, List.flatten_cons, rest]
        refine ⟨List.prefix_iff_eq_append.mp (Line.first_isPrefix d), ?_⟩
        rw [List.length_drop] at longer
        rw [List.length_append]
        omega
    · right
      refine ⟨?_, Nat.lt_of_lt_of_le longer (length_blockLines_ge most (d ++ more))⟩
      rw [all, List.drop_length]
      simp [blockLines]

end Warc.HeaderBlock

namespace Dialect
variable {dialect : Dialect} {options : ReaderOptions}

theorem headerLines_append (dialect : Dialect) (options : ReaderOptions) {d : Bytes}
    (some : d ≠ []) (more : Bytes) :
    dialect.headerLines options d = dialect.headerLines options (d ++ more) ∨
      (dialect.headerLines options d).flatten = d ∧
        d.length < (dialect.headerLines options (d ++ more)).flatten.length := by
  have longer := List.append_ne_nil_of_left_ne_nil some more
  have short := (Line.first_isPrefix d).length_le
  rcases Line.first_append d more with same | ⟨all, further⟩
  · cases dialect with
    | arc version => exact Or.inl (by simp [headerLines, some, same])
    | warc =>
      have behind : (d ++ more).drop (Line.first d).length = d.drop (Line.first d).length ++ more :=
        List.drop_append_of_le_length short
      simp only [headerLines, if_neg some, if_neg longer, ← same, behind, List.flatten_cons]
      rcases Warc.HeaderBlock.blockLines_append options.maxHeaderLine
        (d.drop (Line.first d).length) more with rest | ⟨rest, further⟩
      · exact Or.inl (congrArg _ rest)
      · right
        rw [rest]
        refine ⟨List.prefix_iff_eq_append.mp (Line.first_isPrefix d), ?_⟩
        rw [List.length_drop] at further
        rw [List.length_append]
        omega
  · right
    refine ⟨?_, ?_⟩
    · cases dialect with
      | arc version => simpa [headerLines, some] using all
      | warc => simp [headerLines, some, all, Warc.HeaderBlock.blockLines]
    · simp only [headerLines, if_neg longer, List.flatten_cons, List.length_append]
      omega

end Dialect

/-! ### Tiles in front of a cut -/

theorem Tile.ends_eq (t : Tile) : t.ends = t.headerEnd + t.heading.length.getD 0 := rfl

/-- All that is left of the tile `t` in front of the offset `size`, which lies in its content. -/
structure Tile.CutTo (options : ReaderOptions) (size : Nat) (t cut : Tile) : Prop where
  heading : cut.heading = t.heading
  ends : cut.ends = t.ends
  content : ∀ sight, t.sight = .content sight → ∃ content : Bytes,
    cut.sight = .content (.of options t.heading content) ∧ content.length = size - t.headerEnd

/-- How far a tile reaches once all of its content is there. -/
def Tile.reach (t : Tile) : Nat := t.blank.length + t.header.length + t.heading.length.getD 0

/-- The tile that `d` begins with, where longer data begin with the tile `t`. -/
structure Tile.FrontIn (d : Bytes) (t front : Tile) : Prop where
  blank : t.blank = d.takeWhile Line.isBlank
  whole : t.reach ≤ d.length → front = t
  last : d.length < t.reach → d.drop front.bytes.length = []
  inside : t.blank.length + t.header.length ≤ d.length → d.length < t.reach →
    front.lines = t.lines ∧ front.heading = t.heading ∧
      front.content.length = d.length - (t.blank.length + t.header.length)

namespace Dialect
variable {dialect : Dialect} {options : ReaderOptions} {startOffset : Option Nat} {d more : Bytes}
  {t : Tile}

theorem sight_content {heading : Heading} {content : Bytes} {sight : ContentRecord.Sight}
    (h : dialect.sight options heading content = .content sight) (other : Bytes) :
    dialect.sight options heading other = .content (.of options heading other) := by
  unfold Dialect.sight at h ⊢
  split at h
  · cases h
  · rfl

theorem append_begun (begun : d.dropWhile Line.isBlank ≠ []) (more : Bytes) :
    (d ++ more).takeWhile Line.isBlank = d.takeWhile Line.isBlank ∧
      (d ++ more).dropWhile Line.isBlank = d.dropWhile Line.isBlank ++ more := by
  have data : (d ++ more).dropWhile Line.isBlank = d.dropWhile Line.isBlank ++ more := by
    rw [List.dropWhile_append, if_neg (by simpa using begun)]
  have whole : (d ++ more).takeWhile Line.isBlank ++ (d ++ more).dropWhile Line.isBlank =
      d.takeWhile Line.isBlank ++ (d ++ more).dropWhile Line.isBlank := by
    rw [List.takeWhile_append_dropWhile, data, ← List.append_assoc,
      List.takeWhile_append_dropWhile]
  exact ⟨List.append_cancel_right whole, data⟩

/-- If the header is all there, a tile can only be cut in its content. -/
theorem front_of_header (begun : d.dropWhile Line.isBlank ≠ [])
    (h : dialect.tile? options startOffset (d ++ more) = some t)
    (lines : t.lines = dialect.headerLines options (d.dropWhile Line.isBlank)) :
    ∃ front, dialect.tile? options startOffset d = some front ∧ t.FrontIn d front := by
  obtain ⟨blanks, data⟩ := append_begun begun more
  obtain ⟨blank, _, read, content, sight⟩ := tile?_eq_some h
  rw [blanks] at blank
  rw [data] at content
  have size := congrArg List.length (List.takeWhile_append_dropWhile (p := Line.isBlank) (l := d))
  rw [List.length_append, ← blank] at size
  have inside : t.header.length ≤ (d.dropWhile Line.isBlank).length := by
    rw [Tile.header, lines]
    exact (flatten_headerLines_isPrefix dialect options _).length_le
  rw [List.drop_append_of_le_length inside] at content
  have behind := List.length_drop (i := t.header.length) (l := d.dropWhile Line.isBlank)
  generalize left : (d.dropWhile Line.isBlank).drop t.header.length = own at content behind
  have shorter : dialect.tile? options startOffset d = some { t with
      content := own.take (t.heading.length.getD 0)
      sight := dialect.sight options t.heading (own.take (t.heading.length.getD 0)) } := by
    rw [tile?, ← lines, ← blank, read, ← left]
    rfl
  refine ⟨_, shorter, blank, fun enough => ?_, fun cut => ?_, fun there cut => ⟨rfl, rfl, ?_⟩⟩
  · have all : t.content = own.take (t.heading.length.getD 0) := by
      rw [content, List.take_append_of_le_length]
      rw [Tile.reach] at enough
      omega
    rw [← all, ← sight]
  · rw [drop_tile? shorter]
    apply List.drop_eq_nil_of_le
    show ((d.dropWhile Line.isBlank).drop t.header.length).length ≤ t.heading.length.getD 0
    rw [left]
    rw [Tile.reach] at cut
    omega
  · rw [List.length_take]
    rw [Tile.reach] at cut
    omega

/-- A tile in front stays the same in longer data, unless the data end inside it. -/
theorem tile?_append (begun : d.dropWhile Line.isBlank ≠ [])
    (h : dialect.tile? options startOffset (d ++ more) = some t) :
    ∃ front, dialect.tile? options startOffset d = some front ∧ t.FrontIn d front := by
  obtain ⟨blanks, data⟩ := append_begun begun more
  obtain ⟨blank, lines, _⟩ := tile?_eq_some h
  rw [blanks] at blank
  rw [data] at lines
  rcases headerLines_append dialect options begun more with same | ⟨all, longer⟩
  · exact front_of_header begun h (lines.trans same.symm)
  · rw [← lines] at longer
    have longer : (d.dropWhile Line.isBlank).length < t.header.length := longer
    have size := congrArg List.length (List.takeWhile_append_dropWhile (p := Line.isBlank) (l := d))
    rw [List.length_append, ← blank] at size
    cases shorter : dialect.tile? options startOffset d with
    | none => exact absurd (tile?_eq_none shorter) begun
    | some front =>
      obtain ⟨_, lines', _⟩ := tile?_eq_some shorter
      have header : front.header = d.dropWhile Line.isBlank := by rw [Tile.header, lines', all]
      refine ⟨front, rfl, blank, fun enough => ?_, fun _ => ?_, fun _ _ => by omega⟩
      · rw [Tile.reach] at enough
        omega
      · rw [drop_tile? shorter, header, List.drop_length, List.drop_nil]

end Dialect

section Tiles
variable {options : ReaderOptions} {dialect : Dialect} {start : Nat} {d : Bytes} {t : Tile}

theorem heading_of_mem (h : t ∈ tiles options dialect start d) {sight : ContentRecord.Sight}
    (shows : t.sight = .content sight) : sight.heading = t.heading := by
  fun_induction tiles options dialect start d with
  | case1 => simp at h
  | case2 dialect start d first front ih =>
    rcases List.mem_cons.mp h with rfl | behind
    · obtain ⟨_, _, _, _, same⟩ := Dialect.tile?_eq_some front
      rw [shows] at same
      cases same.trans (Dialect.sight_content same.symm t.content)
      rfl
    · exact ih behind

theorem lt_headerEnd_of_mem (h : t ∈ tiles options dialect start d) : start < t.headerEnd := by
  fun_induction tiles options dialect start d with
  | case1 => simp at h
  | case2 dialect start d first front ih =>
    rcases List.mem_cons.mp h with rfl | behind
    · obtain ⟨b, more, header, _⟩ := Dialect.tile?_begun front
      rw [headerEnd_tile? front, header, List.length_cons]
      omega
    · have := ih behind
      omega

/-- Behind a tile whose content reaches up to some place or further, no header ends in front of
that place. -/
theorem ends_lt_of_mem_behind
    (front : dialect.tile? options (some (start + (d.takeWhile Line.isBlank).length)) d = some t)
    {other : Tile} (h : other ∈ tiles options (dialect.behind t.sight) (start + t.bytes.length)
      (d.drop t.bytes.length)) : t.ends < other.headerEnd := by
  have later := lt_headerEnd_of_mem h
  have some : d.drop t.bytes.length ≠ [] := by
    intro none
    rw [none, tiles_nil] at h
    cases h
  obtain ⟨_, _, _, content, _⟩ := Dialect.tile?_eq_some front
  have whole : t.content.length = t.heading.length.getD 0 := by
    rw [Dialect.drop_tile? front] at some
    have more := List.length_pos_iff.mpr some
    rw [content, List.length_take]
    rw [List.length_drop] at more
    omega
  rw [Tile.ends_eq, headerEnd_tile? front]
  simp only [Tile.bytes, List.length_append] at later
  omega

/-- Once a tile does not end in front of some place, no tile does. -/
theorem filter_of_lt_ends
    (front : dialect.tile? options (some (start + (d.takeWhile Line.isBlank).length)) d = some t)
    {size : Nat} (cut : size < t.ends) :
    (tiles options dialect start d).filter (·.ends ≤ size) = [] ∧
      ∀ other ∈ tiles options dialect start d, other.headerEnd ≤ size → other = t := by
  rw [tiles_of_some front]
  refine ⟨?_, ?_⟩
  · rw [List.filter_eq_nil_iff]
    intro other inside
    rcases List.mem_cons.mp inside with rfl | behind
    · simpa using cut
    · have := ends_lt_of_mem_behind front behind
      rw [Tile.ends_eq]
      simp only [decide_eq_true_eq]
      omega
  · intro other inside near
    rcases List.mem_cons.mp inside with rfl | behind
    · rfl
    · have := ends_lt_of_mem_behind front behind
      omega

/-- A tile that is cut in its content shows the front of it. -/
theorem Tile.FrontIn.cutTo {front : Tile} {startOffset startOffset' : Option Nat} {whole : Bytes}
    {size : Nat} (h : t.FrontIn d front)
    (among : dialect.tile? options startOffset whole = some t)
    (alone : dialect.tile? options startOffset' d = some front)
    (near : t.blank.length + t.header.length ≤ d.length) (past : d.length < t.reach)
    (place : size = t.headerEnd + (d.length - (t.blank.length + t.header.length))) :
    t.CutTo options size front := by
  obtain ⟨lines, heading, content⟩ := h.inside near past
  refine ⟨heading, ?_, fun sight shows => ⟨front.content, ?_, ?_⟩⟩
  · simp only [Tile.ends, Tile.headerEnd, Tile.headerStart, Tile.header, lines, heading]
  · obtain ⟨_, _, _, _, whole⟩ := Dialect.tile?_eq_some among
    obtain ⟨_, _, _, _, cut⟩ := Dialect.tile?_eq_some alone
    rw [shows] at whole
    rw [cut, heading]
    exact Dialect.sight_content whole.symm _
  · rw [content, place, Nat.add_sub_cancel_left]

/-- In front of the first header there are no tiles, however the data go on. -/
theorem lt_headerEnd_of_blank (begun : d.dropWhile Line.isBlank = []) {more : Bytes}
    (front : dialect.tile? options (some (start + ((d ++ more).takeWhile Line.isBlank).length))
      (d ++ more) = some t) : start + d.length < t.headerEnd := by
  have blank : d.takeWhile Line.isBlank = d := by
    have split := List.takeWhile_append_dropWhile (p := Line.isBlank) (l := d)
    rwa [begun, List.append_nil] at split
  have all : d.length ≤ t.blank.length := by
    rw [(Dialect.tile?_eq_some front).1, List.takeWhile_append, if_pos (by rw [blank]),
      List.length_append]
    exact Nat.le_add_right ..
  obtain ⟨b, rest, header, _⟩ := Dialect.tile?_begun front
  rw [headerEnd_tile? front, header, List.length_cons]
  omega

/-- The tiles of the front of some data: those that end in it, and at most one that is cut. -/
theorem tiles_append (options : ReaderOptions) (dialect : Dialect) (start : Nat)
    {more whole : Bytes} (split : whole = d ++ more) :
    ∃ further, tiles options dialect start d =
        (tiles options dialect start whole).filter (·.ends ≤ start + d.length) ++ further ∧
      further.length ≤ 1 ∧
      ∀ t ∈ tiles options dialect start whole, t.headerEnd ≤ start + d.length →
        start + d.length < t.ends →
        ∃ cut, further = [cut] ∧ t.CutTo options (start + d.length) cut := by
  fun_induction tiles options dialect start whole generalizing d with
  | case1 dialect start whole blank =>
    subst split
    have all := Dialect.all_isBlank blank
    rw [List.all_append, Bool.and_eq_true] at all
    refine ⟨[], ?_, by simp, by simp⟩
    simpa using tiles_of_blank options dialect start (Line.dropWhile_of_all all.1)
  | case2 dialect start whole t front ih =>
    subst split
    have reach := headerEnd_tile? front
    have ends := t.ends_eq
    have extent : t.reach = t.blank.length + t.header.length + t.heading.length.getD 0 := rfl
    rw [← tiles_of_some front]
    by_cases begun : d.dropWhile Line.isBlank = []
    · -- the cut is in front of the header
      have past := lt_headerEnd_of_blank begun front
      obtain ⟨filtered, only⟩ := filter_of_lt_ends front
        (Nat.lt_of_lt_of_le past (Nat.le_add_right ..))
      refine ⟨[], ?_, by simp, fun other inside near => ?_⟩
      · rw [filtered]
        exact tiles_of_blank options dialect start begun
      · obtain rfl := only other inside near
        omega
    · obtain ⟨t', front', cut⟩ := Dialect.tile?_append begun front
      rw [← (Dialect.tile?_eq_some front).1, cut.blank] at front'
      by_cases fits : t.ends ≤ start + d.length
      · -- the tile is all there, and the cut is further behind
        obtain rfl := cut.whole (by omega)
        have inside : t'.bytes.length ≤ d.length := by
          have whole := congrArg List.length (Dialect.append_tile? front').2
          rw [List.length_append] at whole
          omega
        obtain ⟨further, rest, few, cuts⟩ := ih (List.drop_append_of_le_length inside)
        have place : start + t'.bytes.length + (d.drop t'.bytes.length).length =
            start + d.length := by
          rw [List.length_drop]
          omega
        rw [place] at rest cuts
        refine ⟨further, ?_, few, fun other among near past => ?_⟩
        · rw [tiles_of_some front', tiles_of_some front,
            List.filter_cons_of_pos (by simpa using fits), rest, List.cons_append]
        · rw [tiles_of_some front] at among
          rcases List.mem_cons.mp among with rfl | behind
          · omega
          · exact cuts other behind near past
      · -- the tile is the one that is cut
        have past : start + d.length < t.ends := by omega
        obtain ⟨filtered, only⟩ := filter_of_lt_ends front past
        refine ⟨[t'], ?_, by simp, fun other among near _ => ⟨t', rfl, ?_⟩⟩
        · rw [filtered, tiles_of_some front', cut.last (by omega), tiles_nil]
          rfl
        · obtain rfl := only other among near
          exact cut.cutTo front front' (by omega) (by omega) (by omega)

end Tiles

/-! ### Runs over the front of an archive -/

/-- The length that the header of a record declares, zero if it does not. -/
def ContentRecord.View.length (view : ContentRecord.View) : Nat := view.heading.length.getD 0

/-- The declared length of the content, if the record is not a version block. -/
def Record.View.declared? : Record.View → Option Nat
  | .versionBlock _ => none
  | .content view => some view.length

/-- The record as it is closed when only its content is cut, with `unavailable` bytes missing. -/
structure ContentRecord.View.CutTo (unavailable : Nat) (view cut : ContentRecord.View) : Prop where
  heading : cut.heading = view.heading
  closed : cut.isClosed
  summary : ∃ summary, cut.summary = some summary ∧ summary.length = view.length ∧
    summary.unavailable = unavailable
  diagnostics : cut.diagnostics = view.heading.diagnostics ++
    .invalid view.heading.recordField "Payload length mismatch".toList

/-- How the history of a run over the first `size` bytes follows from that over the whole, when
each turn notes where the content of its record ends. The records that end in these bytes are told
of alike, then at most one more: the one that the cut goes through, if its header is all there. A
version block is read before it is told of, so nothing is said of one that is cut. -/
structure Archive.History.CutTo (size : Nat) (whole cut : Archive.History Nat) : Prop where
  ended : whole.ended = .ok () ∧ cut.ended = .ok ()
  turns : ∃ further, cut.turns = whole.turns.filter (·.noted ≤ size) ++ further ∧
    further.length ≤ 1 ∧
    ∀ turn ∈ whole.turns, ∀ view, turn.record = .content view →
      turn.noted ≤ size + view.length → size < turn.noted →
      ∃ view', further = [{ turn with record := .content view' }] ∧
        view.CutTo (turn.noted - size) view'

theorem Tile.CutTo.view_cutTo {options : ReaderOptions} {size : Nat} {t cut : Tile}
    (h : t.CutTo options size cut) (near : t.headerEnd ≤ size) (past : size < t.ends)
    {view : ContentRecord.View} (shows : t.turn.record = .content view)
    (heading : view.heading = t.heading) :
    ∃ view', cut.turn = { t.turn with record := .content view' } ∧
      view.CutTo (t.ends - size) view' := by
  have shows : t.sight.closed = .content view := shows
  cases sight : t.sight with
  | versionBlock block =>
    rw [sight] at shows
    cases shows
  | content s =>
    obtain ⟨content, cutSight, count⟩ := h.content s sight
    have ends := t.ends_eq
    cases known : t.heading.length with
    | none =>
      rw [known, Option.getD_none] at ends
      omega
    | some length =>
      rw [known, Option.getD_some] at ends
      have all : content.take length = content := List.take_of_length_le (by omega)
      have missing : 0 < length - content.length := by omega
      refine ⟨(ContentRecord.Sight.of options t.heading content).closed, ?_, heading.symm, rfl,
        ?_, ?_⟩
      · rw [Tile.turn, cutSight, h.ends]
        rfl
      · refine ⟨.of length options.blockDigest (t.heading.entityDigest options) content, ?_, ?_, ?_⟩
        · simp [ContentRecord.Sight.closed, ContentRecord.Sight.of, known, all]
        · simp [Payload.Summary.of, ContentRecord.View.length, heading, known]
        · show length - content.length = _
          omega
      · simp [ContentRecord.Sight.closed, ContentRecord.Sight.of, known, all, heading,
          Payload.Summary.diagnostics, Payload.Summary.isTruncated, Payload.Summary.of, missing,
          Diagnostics.invalidIf]

namespace PlainArchive

/-- A run over the front of an archive tells of every record that ends there just what the run over
the whole archive does, and of the record that is cut all but the missing content. -/
theorem closeAll_cut {whole cut : Source} (front : cut.bytes <+: whole.bytes)
    (steadyWhole : whole.OnlyInterrupted) (steadyCut : cut.OnlyInterrupted)
    (options : ReaderOptions) :
    (Archive.closeAll nextOffset (arc whole options)).CutTo cut.bytes.length
        (Archive.closeAll nextOffset (arc cut options)) ∧
      (Archive.closeAll nextOffset (warc whole options)).CutTo cut.bytes.length
        (Archive.closeAll nextOffset (warc cut options)) := by
  have reads (dialect : Dialect) :
      (Archive.closeAll nextOffset { input := ⟨whole, 0⟩, dialect, options }).CutTo cut.bytes.length
        (Archive.closeAll nextOffset { input := ⟨cut, 0⟩, dialect, options }) := by
    rw [closeAll_start steadyWhole, closeAll_start steadyCut]
    obtain ⟨more, split⟩ := front
    obtain ⟨further, tiles, few, cuts⟩ := tiles_append options dialect 0 split.symm
    rw [Nat.zero_add] at tiles cuts
    refine ⟨⟨rfl, rfl⟩, further.map (·.turn), ?_, by simpa using few, ?_⟩
    · rw [tiles, List.map_append, List.filter_map]
      rfl
    · intro turn among view shows near past
      obtain ⟨t, inside, rfl⟩ := List.mem_map.mp among
      have heading : view.heading = t.heading := by
        cases sight : t.sight with
        | versionBlock block => simp [Tile.turn, Record.Sight.closed, sight] at shows
        | content s =>
          simp only [Tile.turn, Record.Sight.closed, sight, Record.View.content.injEq] at shows
          rw [← shows]
          exact heading_of_mem inside sight
      have near : t.ends ≤ cut.bytes.length + t.heading.length.getD 0 := by
        rw [← heading]
        exact near
      rw [Tile.ends_eq] at near
      have near := Nat.le_of_add_le_add_right near
      obtain ⟨t', rfl, same⟩ := cuts t inside near past
      obtain ⟨view', turn, cutView⟩ := same.view_cutTo near past shows heading
      exact ⟨view', congrArg (· :: []) turn, cutView⟩
  exact ⟨reads (.arc none), reads .warc⟩

/-- Two records, the second of which may lack the end of its content. -/
def twoRecords (behind : Source.Event) : Source where
  events :=
    [.chunk (recordOf "2" [0x61, 0x62] ++ [0x0D, 0x0A]), .chunk (recordOf "3" [0x63]), behind]

/-- The second content is cut, and the reading of the front is interrupted there. The first record
is told of alike, and the second one lacks two bytes. -/
theorem closeAll_cut_content :
    ∃ first second view view',
      (Archive.closeAll nextOffset (warc (twoRecords (.chunk [0x64, 0x65])))).turns =
        [first, second] ∧
      second.record = .content view ∧
      (Archive.closeAll nextOffset (warc (twoRecords (.failure (.device .interrupted ""))))).turns =
        [first, { second with record := .content view' }] ∧
      view.CutTo 2 view' := by
  obtain ⟨further, turns, _, cuts⟩ := (@closeAll_cut (twoRecords (.chunk [0x64, 0x65]))
    (twoRecords (.failure (.device .interrupted ""))) ⟨[0x64, 0x65], by decide +kernel⟩
    (by simp [twoRecords, Source.OnlyInterrupted, Source.failures])
    (by simp [twoRecords, Source.OnlyInterrupted, Source.failures, StreamError.isInterrupted,
      StreamError.kind]) {}).2.turns
  have size : (twoRecords (.failure (.device .interrupted ""))).bytes.length = 61 := by
    decide +kernel
  have told : (Archive.closeAll nextOffset (warc (twoRecords (.chunk [0x64, 0x65])))).turns.map
      (fun turn => (turn.noted, turn.record.declared?)) = [(30, some 2), (63, some 3)] := by
    decide +kernel
  obtain ⟨first, others, two, early, told⟩ := List.map_eq_cons_iff.mp told
  obtain ⟨second, _, rfl, late, none⟩ := List.map_eq_cons_iff.mp told
  obtain rfl := List.map_eq_nil_iff.mp none
  cases record : second.record with
  | versionBlock => simp [record, Record.View.declared?] at late
  | content view =>
    simp only [record, Record.View.declared?, Prod.mk.injEq, Option.some.injEq] at early late
    obtain ⟨late, long⟩ := late
    rw [size, two] at turns cuts
    obtain ⟨view', rfl, cutView⟩ := cuts second (by simp) view record (by omega) (by omega)
    rw [late] at cutView
    refine ⟨first, second, view, view', two, record, ?_, cutView⟩
    rw [turns]
    simp [early, late]

end PlainArchive
end WebArchive
