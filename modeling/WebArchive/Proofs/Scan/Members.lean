import WebArchive.Proofs.Archive.Chunking
import WebArchive.Proofs.Gzip.Stray
import WebArchive.Scan.Basic

/-!
What a scan tells of the members of a file does not depend on whether their records are looked at.
Both scans succeed just if the file holds members and nothing else, and then both count all of
them. Main facts: `members_counts`, `records_counts` and `agree_on_members`.
-/
namespace WebArchive

open Gzip (Member MemberText Container Bare)

namespace PackedArchive
variable {E : StreamError → Prop} {tail : Bytes} {index offset total : Nat}
  {waiting : List Member} {a : PackedArchive}

theorem settle_stray (quiet : Quiet E) (bare : Bare tail) {p : Gzip.Packed}
    (h : Container.Stray E tail index offset total p.container) :
    ∃ e p', p.settle = (.error e, p') := by
  obtain ⟨e, c, failed⟩ := Container.finish_stray quiet bare h
  exact ⟨e, { p with container := c }, by simp only [Gzip.Packed.settle, failed]⟩

/-- Behind a member that never ends nothing is found. -/
theorem next_stray (quiet : Quiet E) (bare : Bare tail)
    (h : Container.Stray E tail index offset total a.packed.container) :
    ∃ e a', a.next = (.error e, a') := by
  obtain ⟨e, p, failed⟩ := settle_stray quiet bare h
  exact ⟨.stream e, { a with packed := p }, by simp only [next, seek_unsettled failed]⟩

/-- Behind the last member no record is found, or one that stands in a member that never ends. -/
theorem next_bare (quiet : Quiet E) (bare : Bare tail) (more : tail ≠ [])
    (h : Awaits E index total waiting tail a.packed) :
    (∃ e a', a.next = (.error e, a')) ∨
      ∃ record a' offset, a.next = (.ok (some record), a') ∧
        Container.Stray E tail index offset total record.stream.inner.inner := by
  obtain ⟨c, settled, between⟩ := h
  rcases Container.next_bare quiet between more with ⟨e, c', failed⟩ | ⟨m, c', begun, stray⟩
  · exact Or.inl ⟨.gzip e, _, by simp only [next, seek_failed settled failed]; rfl⟩
  · have looked := look_keeps (Container.stray_keeps quiet bare) a.dialect a.options stray
    rcases call : (look a.dialect a.options).run { inner := c' } with ⟨e | _ | heading, s⟩ <;>
      rw [call] at looked
    · exact Or.inl ⟨.stream e, _, by simp only [next, seek_unseen settled begun call]; rfl⟩
    · obtain ⟨e, p, failed⟩ := settle_stray (p := ⟨s.inner, waiting⟩) quiet bare looked
      exact Or.inl ⟨.stream e, _, by
        simp only [next, seek_passed settled begun call, seek_unsettled failed]; rfl⟩
    · have found := seek_found settled begun call
      have stray : Container.Stray E tail index c.position total (rejoin s).inner.inner := looked
      obtain ⟨_, left, ⟨e, failed⟩ | ⟨record, rfl, opened⟩⟩ :=
        enter_keeps (a := { a with packed := ⟨s.inner, waiting⟩ })
          (Container.stray_keeps quiet bare) heading stray
      · exact Or.inl ⟨.stream e, _, by simp only [next, found]; exact failed⟩
      · exact Or.inr ⟨record, _, c.position, by simp only [next, found]; exact opened, left⟩

end PackedArchive

/-! ### What is counted -/

/-- What a report tells of the members, among them those that are not valid. -/
structure Report.Tally where
  members : Nat
  invalid : Nat

def Report.tally (r : Report) : Report.Tally := ⟨r.members, r.invalidMembers⟩

def Report.Tally.add (t : Report.Tally) (ms : List Member) : Report.Tally :=
  ⟨t.members + ms.length, t.invalid + ms.countP (!·.isValid)⟩

theorem Report.Tally.add_append (t : Report.Tally) (ms ms' : List Member) :
    t.add (ms ++ ms') = (t.add ms).add ms' := by
  simp only [add, List.length_append, List.countP_append, Nat.add_assoc]

namespace Progress

def tally (p : Progress) : Report.Tally := p.report.tally

theorem tally_note (p : Progress) (notices : List Gzip.Notice) : (p.note notices).tally = p.tally :=
  rfl

theorem tally_record {σ : Type} (p : Progress) (quiet : Bool) (r : Record σ) :
    (p.record quiet r).tally = p.tally := by
  unfold record
  dsimp only
  split <;> rfl

theorem tally_member (p : Progress) (quiet : Bool) (m : Member) :
    (p.member quiet m).tally = p.tally.add [m] := by
  unfold member
  dsimp only
  split <;> rename_i valid <;> simp [tally, Report.tally, Report.Tally.add, valid]

theorem tally_members (p : Progress) (quiet : Bool) (ms : List Member) :
    (p.members quiet ms).tally = p.tally.add ms := by
  induction ms generalizing p with
  | nil => rfl
  | cons m ms ih =>
    rw [members, List.foldl_cons, ← members, ih, tally_member, ← Report.Tally.add_append]
    rfl

end Progress

namespace Scan

/-- A scan that succeeds just if the file is whole, and has counted these members then. -/
structure Counts (whole : Prop) (members : List Member) (p : Progress)
    (o : Outcome ScanError Progress Unit) : Prop where
  ok : o.1 = .ok () ↔ whole
  tally : whole → o.2.tally = p.tally.add members

variable {whole : Prop} {ms : List Member} {p : Progress} {o : Outcome ScanError Progress Unit}

theorem counts_failed {e : ScanError} (broken : ¬ whole) (h : o.1 = .error e) :
    Counts whole ms p o :=
  ⟨by simp [h, broken], fun is => absurd is broken⟩

theorem Counts.behind {front : List Member} {p' : Progress} (h : Counts whole ms p' o)
    (same : p'.tally = p.tally.add front) : Counts whole (front ++ ms) p o :=
  ⟨h.ok, fun is => by rw [h.tally is, same, Report.Tally.add_append]⟩

variable {E : StreamError → Prop} {tail : Bytes} {index offset total : Nat} {quiet : Bool}

section Members
variable {c c' behind : Container}

theorem members_error {e : Gzip.Error} (h : c.next = (.error e, c')) :
    (members quiet c p).1 = .error (.gzip e) := by
  rw [members]
  split <;> rename_i call <;> cases h.symm.trans call
  rfl

theorem members_end (h : c.next = (.ok none, c')) :
    members quiet c p = (.ok (), p.note c'.notices) := by
  rw [members]
  split <;> rename_i call <;> cases h.symm.trans call
  rfl

theorem members_unfinished {m : Member} {e : StreamError} (h : c.next = (.ok (some m), c'))
    (finished : c'.finish = (.error e, behind)) :
    (members quiet c p).1 = .error (.stream e) := by
  rw [members]
  split <;> rename_i call <;> cases h.symm.trans call
  split
  rename_i call'
  cases finished.symm.trans call'
  rfl

theorem members_member {m : Member} {entry : Option Member} (h : c.next = (.ok (some m), c'))
    (finished : c'.finish = (.ok entry, behind)) :
    members quiet c p = members quiet behind.takeNotices.2
      ((p.note behind.notices).members quiet entry.toList) := by
  rw [members]
  split <;> rename_i call <;> cases h.symm.trans call
  split
  rename_i call'
  cases finished.symm.trans call'
  rfl

theorem members_counts (calm : Quiet E) (bare : Bare tail) {texts : List MemberText}
    (place : offset + (texts.flatMap (·.bytes) ++ tail).length = total)
    (h : Container.Between E index total (texts.flatMap (·.bytes) ++ tail) c) :
    Counts (tail = []) (MemberText.entries index offset texts) p (members quiet c p) := by
  induction texts generalizing index offset c p with
  | nil =>
    simp only [List.flatMap_nil, List.nil_append] at h
    by_cases last : tail = []
    · subst last
      obtain ⟨c', ended, _⟩ := Container.next_end calm h
      rw [members_end ended]
      exact ⟨by simp, fun _ => rfl⟩
    · rcases Container.next_bare calm h last with ⟨e, c', failed⟩ | ⟨m, c', begun, stray⟩
      · exact counts_failed last (members_error failed)
      · obtain ⟨e, behind, unfinished⟩ := Container.finish_stray calm bare stray
        exact counts_failed last (members_unfinished begun unfinished)
  | cons t texts ih =>
    rw [List.flatMap_cons, List.append_assoc] at h place
    obtain ⟨c', begun, inside⟩ := Container.next_member calm h
    obtain ⟨behind, finished, between⟩ := Container.finish_eq calm inside
    have here : c.position = offset := by
      have reached := h.place
      omega
    have next : offset + t.bytes.length + (texts.flatMap (·.bytes) ++ tail).length = total := by
      rw [List.length_append] at place
      omega
    have between : Container.Between E (index + 1) total (texts.flatMap (·.bytes) ++ tail)
        behind.takeNotices.2 := ⟨between.count, between.idle, between.input⟩
    have counted : ((p.note behind.notices).members quiet [t.entry index offset]).tally =
        p.tally.add [t.entry index offset] := Progress.tally_members ..
    rw [members_member begun finished, here]
    exact (ih next between).behind counted

end Members

section Records
variable {ρ σ : Type} [Readable σ] [Archive ρ σ] {a a' b : ρ}
  {asError : ArchiveError → ScanError}

theorem records_error {e : ArchiveError} (h : Archive.next a = (.error e, a')) :
    (records quiet asError a p).1 = .error (asError e) := by
  rw [records]
  split <;> rename_i call <;> cases h.symm.trans call
  rfl

theorem records_end (h : Archive.next a = (.ok none, a')) :
    records quiet asError a p =
      (.ok (), (p.note (Archive.takeNotices a').1).members quiet (Archive.takeCompleted a').1) := by
  rw [records]
  split <;> rename_i call <;> cases h.symm.trans call
  rfl

theorem records_unclosed {record record' : Record σ} {e : StreamError}
    (h : Archive.next a = (.ok (some record), a')) (closed : record.close = (.error e, record')) :
    (records quiet asError a p).1 = .error (.stream e) := by
  rw [records]
  split <;> rename_i call <;> cases h.symm.trans call
  split
  rename_i call'
  cases closed.symm.trans call'
  rfl

theorem records_record {record record' : Record σ} (h : Archive.next a = (.ok (some record), a'))
    (closed : record.close = (.ok (), record')) {notices : List Gzip.Notice} {noted behind : ρ}
    {completed : List Member}
    (noticed : Archive.takeNotices (Archive.resume a' record'.stream) = (notices, noted))
    (taken : Archive.takeCompleted noted = (completed, behind)) :
    records quiet asError a p = records quiet asError behind
      (((p.note notices).record quiet record').members quiet completed) := by
  rw [records]
  split <;> rename_i call <;> cases h.symm.trans call
  split
  rename_i call'
  cases closed.symm.trans call'
  simp only [noticed, taken]

theorem records_congr (same : Archive.next a = Archive.next b) :
    records quiet asError a p = records quiet asError b p := by
  rw [records, records, same]

end Records

open PackedArchive (Awaits next_bare next_stray next_inside next_passed awaits_inside)

/-- However a scan of the records ends, behind the last member it is with an error. -/
theorem records_bare (calm : Quiet E) (bare : Bare tail) (more : tail ≠ [])
    {asError : ArchiveError → ScanError} {a : PackedArchive} {waiting : List Member}
    (h : Awaits E index total waiting tail a.packed) :
    ∃ e, (records quiet asError a p).1 = .error e := by
  rcases next_bare calm bare more h with ⟨e, a', failed⟩ | ⟨record, a', offset, answer, stray⟩
  · exact ⟨_, records_error failed⟩
  · rcases closed : record.close with ⟨e | _, record'⟩
    · exact ⟨_, records_unclosed answer closed⟩
    · have left := Record.close_keeps
        (PackedArchive.stream_keeps (Container.stray_keeps calm bare)) stray
      rw [closed] at left
      rw [records_record answer closed rfl rfl]
      obtain ⟨e, _, failed⟩ := next_stray (a := (Archive.takeCompleted (Archive.takeNotices
        (Archive.resume a' record'.stream)).2).2) calm bare ⟨left.count, left.stage⟩
      exact ⟨_, records_error failed⟩

theorem records_counts (calm : Quiet E) (bare : Bare tail) {texts : List MemberText}
    {asError : ArchiveError → ScanError} {a : PackedArchive} {waiting : List Member}
    (place : offset + (texts.flatMap (·.bytes) ++ tail).length = total)
    (h : Awaits E index total waiting (texts.flatMap (·.bytes) ++ tail) a.packed) :
    Counts (tail = []) (waiting ++ MemberText.entries index offset texts) p
      (records quiet asError a p) := by
  induction texts generalizing index offset waiting a p with
  | nil =>
    simp only [List.flatMap_nil, List.nil_append, MemberText.entries, List.append_nil] at h ⊢
    by_cases last : tail = []
    · subst last
      obtain ⟨c, settled, between⟩ := h
      obtain ⟨c', ended, _⟩ := Container.next_end calm between
      have answer : Archive.next a = (.ok none, { a with packed := ⟨c', waiting⟩ }) := by
        simp only [Archive.next, PackedArchive.next, PackedArchive.seek_none settled ended]
      rw [records_end answer]
      exact ⟨by simp, fun _ => Progress.tally_members ..⟩
    · obtain ⟨e, failed⟩ := records_bare calm bare last h
      exact counts_failed last failed
  | cons t texts ih =>
    rw [List.flatMap_cons, List.append_assoc] at h place
    have next : offset + t.bytes.length + (texts.flatMap (·.bytes) ++ tail).length = total := by
      rw [List.length_append] at place
      omega
    have here : total - (t.bytes ++ (texts.flatMap (·.bytes) ++ tail)).length = offset := by omega
    cases found : a.dialect.tile? a.options none t.data with
    | none =>
      obtain ⟨packed, same, awaits⟩ := next_passed calm found h
      rw [here] at awaits
      have rest : Counts (tail = []) _ p (records quiet asError { a with packed } p) :=
        ih next awaits
      rw [List.append_assoc] at rest
      rw [records_congr same]
      exact rest
    | some tile =>
      obtain ⟨record, c, record', d, answer, closed, _, inside⟩ := next_inside calm found h
      rw [here] at inside
      have awaits : Awaits E (index + 1) total [t.entry index offset]
          (texts.flatMap (·.bytes) ++ tail) ⟨record'.stream.inner.inner.takeNotices.2, []⟩ :=
        awaits_inside calm ⟨inside.count, inside.stage⟩
      have counted : (((p.note record'.stream.inner.inner.notices).record quiet record').members
          quiet waiting).tally = p.tally.add waiting := by
        rw [Progress.tally_members, Progress.tally_record, Progress.tally_note]
      rw [records_record answer closed rfl rfl]
      refine Counts.behind ?_ counted
      exact ih (a := { a with
        packed := ⟨record'.stream.inner.inner.takeNotices.2, []⟩
        dialect := a.dialect.behind tile.sight
        count := a.count + 1 }) next awaits

theorem Counts.agree {o' : Outcome ScanError Progress Unit} (h : Counts whole ms p o)
    (h' : Counts whole ms p o') :
    (o.1 = .ok () ↔ o'.1 = .ok ()) ∧ (o.1 = .ok () →
      o.2.report.members = o'.2.report.members ∧
        o.2.report.invalidMembers = o'.2.report.invalidMembers) := by
  refine ⟨h.ok.trans h'.ok.symm, fun ok => ?_⟩
  have is := h.ok.mp ok
  have same : o.2.tally = o'.2.tally := (h.tally is).trans (h'.tally is).symm
  exact ⟨congrArg Report.Tally.members same, congrArg Report.Tally.invalid same⟩

/-- Whether a scan succeeds, and what it tells of the members then, is the same whether it goes
through the records of a compressed file or through its members alone. -/
theorem agree_on_members {source : Source} (steady : source.OnlyInterrupted)
    (options : ReaderOptions) (quiet : Bool) (format : Format)
    (compressed : format = .warcGz ∨ format = .arcGz) :
    ((run format options quiet source).1 = .ok () ↔ (run .gzip options quiet source).1 = .ok ()) ∧
    ((run format options quiet source).1 = .ok () →
      (run format options quiet source).2.report.members =
          (run .gzip options quiet source).2.report.members ∧
        (run format options quiet source).2.report.invalidMembers =
          (run .gzip options quiet source).2.report.invalidMembers) := by
  obtain ⟨texts, tail, split, bare⟩ := Gzip.exists_texts source.bytes
  have alone : Counts (tail = []) (MemberText.entries 0 0 texts) {}
      (run .gzip options quiet source) := by
    have between := Container.between_of (Source.holds_onlyInterrupted steady)
    rw [split] at between
    exact members_counts quiet_interrupted bare (Nat.zero_add _) between
  have within (dialect : Dialect) (asError : ArchiveError → ScanError) :
      Counts (tail = []) (MemberText.entries 0 0 texts) {} (records quiet asError
        ({ packed := .start source, dialect, options } : PackedArchive) {}) := by
    have awaits := PackedArchive.awaits_start steady
    rw [split] at awaits
    exact records_counts (a := { packed := .start source, dialect, options })
      quiet_interrupted bare (Nat.zero_add _) awaits
  rcases compressed with rfl | rfl
  · exact (within .warc .warc).agree alone
  · exact (within (.arc none) .arc).agree alone

/-- The checksum in its trailer is wrong. -/
def damagedMember : MemberText :=
  { PackedArchive.memberOf [1, 2] with trailer := [0, 0, 0, 0, 2, 0, 0, 0], whole := rfl }

def damagedFile : Source :=
  ⟨[.chunk (PackedArchive.memberOf [0x0D, 0x0A]).bytes, .chunk damagedMember.bytes]⟩

/-- A blank member in front of a damaged one. There is no record in either, but both are counted. -/
theorem agree_on_members_damaged :
    (run .warcGz {} true damagedFile).1 = .ok () ∧
      (run .warcGz {} true damagedFile).2.report.members = 2 ∧
      (run .warcGz {} true damagedFile).2.report.invalidMembers = 1 := by
  have alone : Counts (([] : Bytes) = [])
      (MemberText.entries 0 0 [PackedArchive.memberOf [0x0D, 0x0A], damagedMember]) {}
      (run .gzip {} true damagedFile) := by
    have between : Container.Between noError 0 _ _ (.start damagedFile) :=
      Container.between_start rfl
    rw [← List.append_nil damagedFile.bytes] at between
    exact members_counts quiet_noError Gzip.bare_nil (Nat.zero_add _) between
  have steady : damagedFile.OnlyInterrupted := by
    simp [Source.OnlyInterrupted, Source.failures, damagedFile]
  obtain ⟨same, told⟩ := agree_on_members steady {} true .warcGz (Or.inl rfl)
  have ok := same.mpr (alone.ok.mpr rfl)
  have damaged : (MemberText.entries 0 0 [PackedArchive.memberOf [0x0D, 0x0A],
      damagedMember]).countP (!·.isValid) = 1 := by decide +kernel
  have members := congrArg Report.Tally.members (alone.tally rfl)
  have invalid := congrArg Report.Tally.invalid (alone.tally rfl)
  simp only [Report.Tally.add, damaged] at members invalid
  exact ⟨ok, (told ok).1.trans members, (told ok).2.trans invalid⟩

end Scan
end WebArchive
