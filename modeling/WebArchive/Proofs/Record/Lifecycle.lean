import WebArchive.Proofs.Archive.Opening
import WebArchive.Proofs.Archive.Refinement

/-!
The life of a record. Its content is summed up when it is read to its end, when it is closed or when
the record is, whichever comes first and whatever failed before. A summary never changes, and what
it says against the content is reported once, by the first close of the record that succeeds. Main
fact: `lifecycle_of_records`, which also says that only what is reported makes a record invalid.
-/
namespace WebArchive

variable {σ : Type}

namespace Payload
variable [Readable σ] {p p' : Payload σ} {s : Summary}

theorem summary_close (h : p.close = (.ok s, p')) : p'.summary = some s := by
  obtain ⟨_, next, _, h⟩ := Outcome.andThen_eq_ok.mp h
  split at h
  · rename_i known
    cases h
    exact known
  · simp at h

theorem close_isClosed (done : p.isClosed) : p.close.2 = p := by
  obtain ⟨s, known⟩ := Option.isSome_iff_exists.mp done
  rw [close_summary known]

end Payload

namespace ContentRecord
variable {r : ContentRecord σ} {heading : Heading} {closed : Prop} {p p' : Payload σ}

/-- What a close comes to, for a record that is closed, has no content, or has one. -/
inductive Closing [Readable σ] (r : ContentRecord σ) : Answer (ContentRecord σ) Unit → Prop
  | again (done : r.isClosed) : Closing r (.ok (), r)
  | bare {stream : σ} (going : ¬ r.isClosed) (content : r.content = .inl stream) :
      Closing r (.ok (), { r with isClosed := true })
  | failed {p : Payload σ} {e : StreamError} {next : Payload σ} (content : r.content = .inr p)
      (call : p.close = (.error e, next)) : Closing r (.error e, r.withPayload next)
  | summed {p : Payload σ} {s : Payload.Summary} {next : Payload σ} (going : ¬ r.isClosed)
      (content : r.content = .inr p) (call : p.close = (.ok s, next)) :
      Closing r (.ok (), { r with
        content := .inr next
        isClosed := true
        diagnostics := r.diagnostics ++ s.diagnostics r.heading.recordField })

theorem closing [Readable σ] (r : ContentRecord σ) : r.Closing r.close := by
  by_cases done : r.isClosed
  · rw [close_closed done]
    exact .again done
  unfold close
  rw [if_neg done]
  split
  · rename_i content
    exact .bare done content
  · rename_i content
    split <;> rename_i call
    · exact .failed content call
    · exact .summed done content call

/-- A record that began with `heading` and has been `closed`, or has not. -/
structure Standing (heading : Heading) (closed : Prop) (r : ContentRecord σ) : Prop where
  headed : r.heading = heading
  isClosed : r.isClosed ↔ closed
  opened : ¬ closed → r.diagnostics = heading.diagnostics
  reported : closed → r.diagnostics =
    heading.diagnostics ++ r.summary.elim [] (·.diagnostics heading.recordField)
  summed : closed → ∀ p, r.content = .inr p → p.isClosed

theorem summary_of_content (content : r.content = .inr p) : r.summary = p.summary := by
  simp [summary, payload?, content]

theorem withPayload_of_content (content : r.content = .inr p) : r.withPayload p = r := by
  obtain ⟨heading, _, isClosed, diagnostics⟩ := r
  rw [withPayload, ← content]

theorem standing_start (heading : Heading) (stream : σ) (options : ReaderOptions) :
    Standing heading False (start heading stream options) where
  headed := rfl
  isClosed := by simp [start]
  opened _ := rfl
  reported := False.elim
  summed := False.elim

namespace Standing

/-- What happens to an open content does not show in the record. -/
theorem withPayload (h : Standing heading closed r) (content : r.content = .inr p)
    (still : p.isClosed → p' = p) : Standing heading closed (r.withPayload p') := by
  have same (done : closed) : r.withPayload p' = r := by
    rw [still (h.summed done p content), withPayload_of_content content]
  exact
    { headed := h.headed
      isClosed := h.isClosed
      opened := h.opened
      reported := fun done => by
        rw [same done]
        exact h.reported done
      summed := fun done => by
        rw [same done]
        exact h.summed done }

variable [Readable σ]

theorem close (h : Standing heading closed r) :
    Standing heading (closed ∨ r.close.1 = .ok ()) r.close.2 := by
  have closing := r.closing
  generalize r.close = called at closing ⊢
  cases closing with
  | again done => simpa [h.isClosed.mp done] using h
  | bare going content =>
    have unclosed : ¬ closed := fun is => going (h.isClosed.mpr is)
    refine ⟨h.headed, by simp, by simp, fun _ => ?_, by simp [content]⟩
    have none : ContentRecord.summary { r with isClosed := true } = none := by
      simp [summary, payload?, content]
    rw [none, h.opened unclosed]
    simp
  | failed content call =>
    rename_i p e next
    have still : p.isClosed → next = p := fun is => by
      rw [← Payload.close_isClosed is, call]
    simpa using h.withPayload content still
  | summed going content call =>
    have unclosed : ¬ closed := fun is => going (h.isClosed.mpr is)
    have known := Payload.summary_close call
    refine ⟨h.headed, by simp, by simp, fun _ => ?_, fun _ q same => ?_⟩
    · rw [summary_of_content rfl, known, ← h.opened unclosed, ← h.headed]
      rfl
    · cases same
      simp [Payload.isClosed, known]

theorem perform (h : Standing heading closed r) (action : Action) :
    Standing heading (closed ∨ (action = .close ∧ r.close.1 = .ok ())) (r.perform action).2 := by
  cases action with
  | close => simpa [ContentRecord.perform, Outcome.map] using h.close
  | read n =>
    cases content : r.content with
    | inl stream => simpa [ContentRecord.perform, content] using h
    | inr p =>
      have still (done : p.isClosed) : (p.read n).2 = p := by
        rw [Payload.Accounted.read_closed done]
      simpa [ContentRecord.perform, content, Outcome.within] using h.withPayload content still
  | closeContent =>
    cases content : r.content with
    | inl stream => simpa [ContentRecord.perform, content] using h
    | inr p =>
      simpa [ContentRecord.perform, content, Outcome.within, Outcome.map] using
        h.withPayload content Payload.close_isClosed

end Standing

/-! ### Runs of actions -/

variable [Readable σ]

/-- One of the actions is a close of the record that succeeds. -/
def ClosedBy (r : ContentRecord σ) : List Action → Prop
  | [] => False
  | action :: actions =>
    (action = .close ∧ r.close.1 = .ok ()) ∨ (r.perform action).2.ClosedBy actions

theorem Standing.use (h : Standing heading closed r) (actions : List Action) :
    Standing heading (closed ∨ r.ClosedBy actions) (r.use actions).2 := by
  induction actions generalizing closed r with
  | nil => simpa [ContentRecord.use, ClosedBy] using h
  | cons action actions ih =>
    have after := ih (h.perform action)
    rwa [or_assoc] at after

theorem summary_perform {s : Payload.Summary} (h : r.summary = some s) (action : Action) :
    (r.perform action).2.summary = some s := by
  cases content : r.content with
  | inl stream => simp [summary, payload?, content] at h
  | inr p =>
    have known : p.summary = some s := by rwa [summary_of_content content] at h
    have still (q : Payload σ) (same : q = p) : (r.withPayload q).summary = some s := by
      rw [same, summary_of_content rfl, known]
    have done : p.isClosed := by simp [Payload.isClosed, known]
    cases action with
    | read n =>
      simp only [perform, content, Payload.Accounted.read_closed done]
      exact still p rfl
    | closeContent =>
      simp only [perform, content]
      exact still _ (Payload.close_isClosed done)
    | close =>
      by_cases shut : r.isClosed
      · simp only [perform, close_closed shut]
        exact h
      · simp only [perform, close, shut, Bool.false_eq_true, if_false, content,
          Payload.close_summary known]
        exact (summary_of_content rfl).trans known

theorem summary_use {s : Payload.Summary} (h : r.summary = some s) (actions : List Action) :
    (r.use actions).2.summary = some s := by
  induction actions generalizing r with
  | nil => exact h
  | cons action actions ih => exact ih (summary_perform h action)

/-- Bytes that the header declares are missing from the content. -/
def IsTorn (r : ContentRecord σ) : Prop := ∃ s, r.summary = some s ∧ 0 < s.unavailable

/-- The life of a record with this heading, whatever is done with it. -/
structure Lifecycle (heading : Heading) (r : ContentRecord σ) : Prop where
  clean : ∀ actions, ¬ (r.ClosedBy actions ∧ (r.use actions).2.IsTorn) →
    (r.use actions).2.diagnostics = heading.diagnostics
  torn : ∀ actions, r.ClosedBy actions → (r.use actions).2.IsTorn →
    (r.use actions).2.diagnostics = heading.diagnostics ++
      [⟨.invalid, heading.recordField, some "Payload length mismatch".toList⟩]
  failed : ∀ actions e, (r.use actions).2.close.1 = .error e →
    (r.use actions).2.close.2.diagnostics = (r.use actions).2.diagnostics
  pending : ∀ actions, (r.use actions).2.summary = none →
    (Record.content (r.use actions).2).blockDigest = none ∧
      (Record.content (r.use actions).2).payloadDigest = none
  final : ∀ actions, (r.use actions).2.summary.isSome → ∀ more,
    (Record.content (r.use (actions ++ more)).2).blockDigest =
        (Record.content (r.use actions).2).blockDigest ∧
      (Record.content (r.use (actions ++ more)).2).payloadDigest =
        (Record.content (r.use actions).2).payloadDigest

theorem diagnostics_close_error {e : StreamError} (h : r.close.1 = .error e) :
    r.close.2.diagnostics = r.diagnostics := by
  have closing := r.closing
  generalize r.close = called at closing h ⊢
  cases closing with
  | failed => rfl
  | _ => cases h

theorem lifecycle_start (heading : Heading) (stream : σ) (options : ReaderOptions) :
    (start heading stream options).Lifecycle heading := by
  have standing (actions : List Action) := (standing_start heading stream options).use actions
  have known {r : ContentRecord σ} {s : Payload.Summary} (h : r.summary = some s) :
      (Record.content r).blockDigest = s.blockDigest ∧
        (Record.content r).payloadDigest = s.payloadDigest := by
    simp [Record.blockDigest, Record.payloadDigest, h]
  refine ⟨fun actions whole => ?_, fun actions closed torn => ?_,
    fun actions e => diagnostics_close_error, fun actions none => ?_, fun actions some more => ?_⟩
  · by_cases closed : (start heading stream options).ClosedBy actions
    · rw [(standing actions).reported (Or.inr closed)]
      cases summed : ((start heading stream options).use actions).2.summary with
      | none => simp
      | some s =>
        have complete : ¬ 0 < s.unavailable := fun missing => whole ⟨closed, s, summed, missing⟩
        simp [Payload.Summary.diagnostics, Payload.Summary.isTruncated, Diagnostics.invalidIf,
          complete]
    · exact (standing actions).opened (by simp [closed])
  · obtain ⟨s, summed, missing⟩ := torn
    rw [(standing actions).reported (Or.inr closed), summed]
    simp [Payload.Summary.diagnostics, Payload.Summary.isTruncated, Diagnostics.invalidIf,
      Diagnostics.invalid, missing]
  · simp [Record.blockDigest, Record.payloadDigest, none]
  · obtain ⟨s, summed⟩ := Option.isSome_iff_exists.mp some
    have later : ((start heading stream options).use (actions ++ more)).2.summary = .some s := by
      rw [use_append]
      exact summary_use summed more
    exact ⟨(known later).1.trans (known summed).1.symm, (known later).2.trans (known summed).2.symm⟩

end ContentRecord

/-! ### Validity -/

/-- A header that does not comply with its format says so. -/
theorem Heading.isCompliant_of_silent {heading : Heading} (silent : heading.diagnostics = []) :
    heading.isCompliant := by
  cases heading with
  | arc header =>
    simp only [diagnostics, Arc.Header.diagnostics, List.append_eq_nil_iff, Arc.Header.countProblem,
      Diagnostics.invalidIf, Diagnostics.invalid] at silent
    simpa [isCompliant] using silent.1.1.1
  | warc header =>
    simp only [diagnostics, Warc.Header.diagnostics, List.append_eq_nil_iff,
      Warc.Header.versionProblem, Diagnostics.invalidIf, Diagnostics.invalid] at silent
    simpa [isCompliant, Warc.Header.isCompliant, Option.isSome_iff_ne_none] using silent.1.1.1

namespace Record
variable [Readable σ]

/-- Whatever is done with it, the record is valid just if nothing is reported of it. -/
def Candid (r : Record σ) : Prop :=
  ∀ actions, (r.use actions).2.isValid ↔ (r.use actions).2.diagnostics = []

omit [Readable σ] in
theorem isValid_iff {r : Record σ} (candid : r.diagnostics = [] → r.isCompliant) :
    r.isValid ↔ r.diagnostics = [] := by
  rw [isValid, Bool.and_eq_true, List.isEmpty_iff]
  exact ⟨And.right, fun silent => ⟨candid silent, silent⟩⟩

theorem candid_start (heading : Heading) (stream : σ) (options : ReaderOptions) :
    (content (.start heading stream options)).Candid := by
  intro actions
  have standing := (ContentRecord.standing_start heading stream options).use actions
  refine isValid_iff fun silent => ?_
  show ((ContentRecord.start heading stream options).use actions).2.heading.isCompliant
  rw [standing.headed]
  apply Heading.isCompliant_of_silent
  have silent : ((ContentRecord.start heading stream options).use actions).2.diagnostics = [] :=
    silent
  by_cases closed : (ContentRecord.start heading stream options).ClosedBy actions
  · rw [standing.reported (Or.inr closed)] at silent
    exact (List.append_eq_nil_iff.mp silent).1
  · rwa [standing.opened (by simp [closed])] at silent

theorem candid_versionBlock (header : Arc.Header) (content : Bytes) (summary : Payload.Summary)
    (stream : σ) : (versionBlock (.ofContent header content summary) stream).Candid := by
  intro actions
  refine isValid_iff fun silent => ?_
  have reported : (Arc.VersionBlock.ofContent header content summary).diagnostics = [] := silent
  simp only [Arc.VersionBlock.ofContent, List.append_eq_nil_iff] at reported
  have silent : (Heading.arc header).diagnostics = [] := reported.1.1.1.1
  exact Heading.isCompliant_of_silent silent

end Record

theorem Dialect.candid_openRecord [Readable σ] {dialect : Dialect} {options : ReaderOptions}
    {heading : Heading} {stream s : σ} {record : Record σ}
    (h : dialect.openRecord options heading stream = (.ok record, s)) : record.Candid := by
  unfold openRecord Arc.VersionBlock.read at h
  split at h
  · split at h <;> cases h
    rename_i call
    obtain ⟨content, payload, _, closed⟩ := Outcome.andThen_eq_ok.mp call
    obtain ⟨summary, _, rfl⟩ := Outcome.map_eq_ok.mp closed
    exact Record.candid_versionBlock _ _ _ _
  · cases h
    exact Record.candid_start heading _ options

theorem Archive.Call.candid [Readable σ] {options : ReaderOptions} {dialect dialect' : Dialect}
    {count count' : Nat} {stumbles : Bool} {record : Record σ}
    (h : Call options dialect count stumbles (.ok (some record)) dialect' count') :
    record.Candid := by
  cases h with
  | opened call => exact Dialect.candid_openRecord call

theorem PlainArchive.candid_next {a a' : PlainArchive} {record : Record Cursor}
    (h : a.next = (.ok (some record), a')) : record.Candid := by
  have call := a.call_next
  rw [h] at call
  exact call.candid

theorem PackedArchive.candid_next {a a' : PackedArchive} {record : Record Stream}
    (h : a.next = (.ok (some record), a')) : record.Candid := by
  have call := a.call_next
  rw [h] at call
  exact call.candid

/-- Over any stream and whatever is done with a record, its diagnostics are those of its header, and
one more once it has been closed and turned out torn; its digests are there when the content is
summed up, for good. Whatever an archive hands out is valid just if nothing is reported of it. -/
theorem lifecycle_of_records :
    (∀ (σ : Type) [Readable σ] (heading : Heading) (stream : σ) (options : ReaderOptions),
      (ContentRecord.start heading stream options).Lifecycle heading) ∧
    (∀ (a a' : PlainArchive) record, a.next = (.ok (some record), a') → record.Candid) ∧
    (∀ (a a' : PackedArchive) record, a.next = (.ok (some record), a') → record.Candid) :=
  ⟨fun _ => ContentRecord.lifecycle_start, fun _ _ _ => PlainArchive.candid_next,
    fun _ _ _ => PackedArchive.candid_next⟩

/-- A record that declares more than there is. The source fails once before it ends. -/
def torn : Source where
  events :=
    [.chunk [0x57, 0x41, 0x52, 0x43, 0x2F, 0x31, 0x2E, 0x30, 0x0D, 0x0A, 0x43, 0x6F, 0x6E, 0x74,
        0x65, 0x6E, 0x74, 0x2D, 0x4C, 0x65, 0x6E, 0x67, 0x74, 0x68, 0x3A, 0x20, 0x32, 0x0D, 0x0A,
        0x0D, 0x0A, 0x61],
      .failure (.device .timedOut "inside")]

/-- The first close fails and reports nothing. The second one succeeds, and reports that the record
is torn. -/
theorem lifecycle_of_records_torn :
    (∃ record a', (PlainArchive.warc torn).next = (.ok (some record), a') ∧ record.Candid ∧
      (record.use [.close, .close]).2.diagnostics = (record.use [.close]).2.diagnostics ++
        [⟨.invalid, Warc.recordField, some "Payload length mismatch".toList⟩]) ∧
    ∃ record a', (PackedArchive.warc ⟨[.chunk (PackedArchive.memberOf torn.bytes).bytes]⟩).next =
      (.ok (some record), a') ∧ record.Candid := by
  constructor
  · have found : (PlainArchive.warc torn).next.1.toOption.join.isSome := by decide +kernel
    have reports : ∀ record ∈ (PlainArchive.warc torn).next.1.toOption.join,
        (record.use [.close, .close]).2.diagnostics = (record.use [.close]).2.diagnostics ++
          [⟨.invalid, Warc.recordField, some "Payload length mismatch".toList⟩] := by
      decide +kernel
    rcases call : (PlainArchive.warc torn).next with ⟨_ | _ | record, a'⟩ <;>
      rw [call] at found reports
    · cases found
    · cases found
    · exact ⟨record, a', rfl, lifecycle_of_records.2.1 _ a' record call, reports record rfl⟩
  · have stands : (PackedArchive.warc ⟨[.chunk (PackedArchive.memberOf torn.bytes).bytes]⟩).Stands
        {} .warc _ [PackedArchive.memberOf torn.bytes] := PackedArchive.stands_start rfl rfl {}
    rcases PackedArchive.next_eq stands with ⟨_, _, _, _, none⟩ | ⟨_, _, record, a', call, _⟩
    · rw [PackedArchive.sights_warc] at none
      have blank : Dialect.warc.firstSight {} torn.bytes = .none := by
        simpa [PackedArchive.memberOf] using none
      exact absurd (Dialect.firstSight_eq_none.mp blank) (by decide)
    · exact ⟨record, a', call, lifecycle_of_records.2.2 _ a' record call⟩

end WebArchive
