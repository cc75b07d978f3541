import WebArchive.Proofs.Archive.Reading

/-!
Runs over an archive in which every record is closed as soon as it comes, up to the end or the
first failure. For an archive that is not compressed, the bytes alone say what such a run tells a
caller: `PlainArchive.closeAll_eq`.
-/
namespace WebArchive

variable {σ : Type}

namespace ContentRecord

/-- What can be seen of a record, apart from its stream. -/
structure View where
  heading : Heading
  isClosed : Bool
  summary : Option Payload.Summary
  diagnostics : Diagnostics

def view (r : ContentRecord σ) : View := ⟨r.heading, r.isClosed, r.summary, r.diagnostics⟩

/-- What is seen once the record is closed. -/
def Sight.closed (sight : Sight) : View := ⟨sight.heading, true, sight.summary, sight.diagnostics⟩

theorem close_start [Readable σ] {I : σ → Bytes → Prop} {E : StreamError → Prop}
    (t : Readable.Tracks I E) (quiet : Quiet E) (options : ReaderOptions) (heading : Heading)
    {s : σ} {data : Bytes} (h : I s data) :
    ∃ r, (start heading s options).close = (.ok (), r) ∧
      r.view = (Sight.of options heading data).closed ∧
      I r.stream (data.drop (heading.length.getD 0)) := by
  obtain ⟨r, answer, after, done⟩ := (inUse_start options heading h).perform_close t quiet
  obtain ⟨summary, diagnostics⟩ := after.closed done
  refine ⟨r, answer, ?_, after.stream_closed done⟩
  rw [view, after.headed, summary, diagnostics, done]
  rfl

end ContentRecord

namespace Record

inductive View where
  | versionBlock (block : Arc.VersionBlock)
  | content (view : ContentRecord.View)

def view : Record σ → View
  | .versionBlock block _ => .versionBlock block
  | .content r => .content r.view

def Sight.closed : Sight → View
  | .versionBlock block => .versionBlock block
  | .content sight => .content sight.closed

end Record

namespace Dialect
variable [Readable σ] {I : σ → Bytes → Prop} {E : StreamError → Prop}

/-- A record that is closed at once shows what its heading and the bytes behind it say, and is
left at the end of its content. -/
theorem openRecord_closed (t : Readable.Tracks I E) (quiet : Quiet E) (dialect : Dialect)
    (options : ReaderOptions) (heading : Heading) {s : σ} {data : Bytes} (h : I s data) :
    ∃ record s' record', dialect.openRecord options heading s = (.ok record, s') ∧
      record.close = (.ok (), record') ∧
      record'.view =
        (dialect.sight options heading (data.take (heading.length.getD 0))).closed ∧
      dialect.after record =
        dialect.behind (dialect.sight options heading (data.take (heading.length.getD 0))) ∧
      I record'.stream (data.drop (heading.length.getD 0)) := by
  have content : ∃ record', (Record.content (ContentRecord.start heading s options)).close =
        (.ok (), record') ∧
      record'.view = (Record.Sight.content
        (.of options heading (data.take (heading.length.getD 0)))).closed ∧
      I record'.stream (data.drop (heading.length.getD 0)) := by
    obtain ⟨r, answer, shows, left⟩ := ContentRecord.close_start t quiet options heading h
    rw [ContentRecord.Sight.of_take]
    exact ⟨.content r, by simp only [Record.close, answer, Outcome.within],
      congrArg Record.View.content shows, left⟩
  obtain ⟨record', closed, shows, left⟩ := content
  match dialect, heading with
  | .arc none, .arc header =>
    obtain ⟨p, answer, held⟩ := versionBlock_eq t quiet options header h
    refine ⟨.versionBlock _ p.source, p.source, .versionBlock _ p.source, ?_, rfl, rfl, rfl, held⟩
    simp only [openRecord, answer]
    rfl
  | .arc none, .warc header => exact ⟨_, s, record', rfl, closed, shows, rfl, left⟩
  | .arc (some version), heading => exact ⟨_, s, record', rfl, closed, shows, rfl, left⟩
  | .warc, heading => exact ⟨_, s, record', rfl, closed, shows, rfl, left⟩

end Dialect

/-! ### Closing every record -/

/-- One record of a run, as it stands once it is closed, and what was collected with it. -/
structure Archive.Turn (ν : Type) where
  record : Record.View
  closed : Except StreamError Unit
  completed : List Gzip.Member
  noted : ν

/-- What a run tells: its records, how it ended, and what was collected then. -/
structure Archive.History (ν : Type) where
  turns : List (Archive.Turn ν)
  ended : Except ArchiveError Unit
  completed : List Gzip.Member

def Archive.History.behind {ν : Type} (turn : Archive.Turn ν) (h : Archive.History ν) :
    Archive.History ν := { h with turns := turn :: h.turns }

namespace Archive
variable {ρ ν : Type} [Readable σ] [Archive ρ σ]

/-- Goes through an archive and closes every record. With each of them the finished members are
collected, and something about the archive is noted. -/
def closeAll (note : ρ → ν) (a : ρ) : History ν :=
  match _next : next a with
  | (.error e, a') => ⟨[], .error e, (takeCompleted a').1⟩
  | (.ok none, a') => ⟨[], .ok (), (takeCompleted a').1⟩
  | (.ok (some record), a') =>
    match _closed : record.close with
    | (closed, record') =>
      let behind := takeCompleted (resume a' record'.stream)
      (closeAll note behind.2).behind ⟨record'.view, closed, behind.1, note behind.2⟩
termination_by weight a
decreasing_by
  have first := weight_next _next
  have second := Record.weight_close_le record
  have third := weight_resume_le (a := a') (s := record'.stream)
  have fourth := weight_takeCompleted (a := resume a' record'.stream)
  rw [_closed] at second
  simp only at second
  omega

variable {note : ρ → ν} {a a' : ρ}

theorem closeAll_error {e : ArchiveError} (h : next a = (.error e, a')) :
    closeAll note a = ⟨[], .error e, (takeCompleted a').1⟩ := by
  rw [closeAll]
  split <;> rename_i call <;> cases h.symm.trans call
  rfl

theorem closeAll_end (h : next a = (.ok none, a')) :
    closeAll note a = ⟨[], .ok (), (takeCompleted a').1⟩ := by
  rw [closeAll]
  split <;> rename_i call <;> cases h.symm.trans call
  rfl

theorem closeAll_record {record record' : Record σ} {closed : Except StreamError Unit}
    (h : next a = (.ok (some record), a')) (close : record.close = (closed, record'))
    {completed : List Gzip.Member} {behind : ρ}
    (taken : takeCompleted (resume a' record'.stream) = (completed, behind)) :
    closeAll note a =
      (closeAll note behind).behind ⟨record'.view, closed, completed, note behind⟩ := by
  rw [closeAll]
  split <;> rename_i call <;> cases h.symm.trans call
  split
  rename_i call'
  cases close.symm.trans call'
  simp only [taken]

end Archive

/-! ### Archives that are not compressed -/

def Tile.turn (t : Tile) : Archive.Turn Nat := ⟨t.sight.closed, .ok (), [], t.ends⟩

namespace PlainArchive
variable {I : Cursor → Bytes → Prop} {E : StreamError → Prop} {a : PlainArchive}
  {options : ReaderOptions} {total : Nat} {dialect : Dialect} {d : Bytes}

/-- The record in front is closed, and the archive goes on behind its content. -/
theorem next_closed (p : Cursor.Places I E total) (quiet : Quiet E)
    (h : a.Stands I options dialect d) {t : Tile}
    (front : dialect.tile? options (a.headerOffset total d) d = some t) :
    ∃ record input a' record', a.next = (.ok (some record), a') ∧
      record.close = (.ok (), record') ∧ record'.view = t.sight.closed ∧
      a'.showsOffsets = a.showsOffsets ∧ a'.Entered I options dialect d t input ∧
      (a'.resume record'.stream).Stands I options (dialect.behind t.sight)
        (d.drop t.bytes.length) := by
  obtain ⟨_, _, _, content, sight⟩ := Dialect.tile?_eq_some front
  obtain ⟨input, found, held⟩ := seek_found p quiet h front
  obtain ⟨record, s', record', opened, closed, shows, after, left⟩ :=
    Dialect.openRecord_closed p.tracked.toTracks quiet dialect options t.heading held
  rw [← content, ← sight] at shows after
  obtain ⟨a', answer, same, entered⟩ := next_entered h found held opened after
  exact ⟨record, input, a', record', answer, closed, shows, same, entered,
    entered.resume p front (Nat.le_refl _) left (Or.inr rfl)⟩

/-- What a run tells follows from the tiles. -/
theorem closeAll_eq (p : Cursor.Places I E total) (quiet : Quiet E)
    (h : a.Stands I options dialect d) (shown : a.showsOffsets) {start : Nat}
    (place : start + d.length = total) :
    Archive.closeAll nextOffset a = ⟨(tiles options dialect start d).map (·.turn), .ok (), []⟩ := by
  fun_induction tiles options dialect start d generalizing a with
  | case1 dialect start d blank =>
    obtain ⟨a', answer, _⟩ := next_end p quiet h (Dialect.tile?_eq_none blank)
    exact Archive.closeAll_end answer
  | case2 dialect start d t front ih =>
    have found := front
    rw [← headerOffset_eq shown place] at found
    obtain ⟨record, input, a', record', answer, closed, shows, same, entered, stands⟩ :=
      next_closed p quiet h found
    have whole := congrArg List.length (Dialect.append_tile? front).2
    rw [List.length_append] at whole
    have rest := ih stands (same.trans shown) (by omega)
    rw [Archive.closeAll_record answer closed rfl]
    show (Archive.closeAll nextOffset (a'.resume record'.stream)).behind
      ⟨record'.view, .ok (), [], a'.nextOffset⟩ = _
    rw [rest, shows, entered.ends_eq p place front]
    rfl

theorem closeAll_start {source : Source} (steady : source.OnlyInterrupted)
    (options : ReaderOptions) (dialect : Dialect) :
    Archive.closeAll nextOffset { input := { source }, dialect, options } =
      ⟨(tiles options dialect 0 source.bytes).map (·.turn), .ok (), []⟩ := by
  have held : Cursor.Holds (·.isInterrupted) source.bytes.length { source } source.bytes :=
    ⟨Source.holds_onlyInterrupted steady, Nat.zero_add _⟩
  exact closeAll_eq (Cursor.places _ _) quiet_interrupted (stands_of held options dialect) rfl
    (Nat.zero_add _)

end PlainArchive
end WebArchive
