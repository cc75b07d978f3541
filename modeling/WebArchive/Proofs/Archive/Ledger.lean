import WebArchive.Archive.Packed
import WebArchive.Proofs.Gzip.Members
import WebArchive.Proofs.Stream.Keeping

/-!
The members of a compressed archive that are over. Wherever one comes to its end, and whatever
fails on the way, it is set aside once: those that were collected and those that are waiting are
all the members begun so far, in order, without the one in progress. Main fact:
`accounts_for_members`.
-/
namespace WebArchive
namespace Gzip
namespace Container

def inProgress (c : Container) : Bool := c.current.isSome

/-- `past` members are over, and the current one, if there is one, is the next in the count. -/
structure Numbered (past : Nat) (c : Container) : Prop where
  count : c.count = past + c.inProgress.toNat
  index : ∀ m, c.current = some m → m.member.index = past

theorem numbered_start (source : Source) : Numbered 0 (start source) := ⟨rfl, by simp [start]⟩

/-! ### Reading a member -/

theorem index_readTrailer (input : Cursor) (m : Inflation) :
    (readTrailer input m).2.2.member.index = m.member.index := by
  obtain ⟨member, inflater, checksum⟩ := m
  rcases call : Readable.readExact input Member.trailerLength with ⟨e | trailer, next⟩ <;>
    simp only [readTrailer, call]
  rfl

theorem isComplete_readTrailer {input : Cursor} {m : Inflation} {s : Cursor × Inflation}
    (h : readTrailer input m = (.ok (), s)) : s.2.member.isComplete := by
  obtain ⟨member, inflater, checksum⟩ := m
  rcases call : Readable.readExact input Member.trailerLength with ⟨e | trailer, next⟩ <;>
    simp only [readTrailer, call, Prod.mk.injEq, reduceCtorEq, false_and, true_and] at h
  rw [← h]
  rfl

theorem index_inflate (n : Nat) (asked : 0 < n) (input : Cursor) (m : Inflation) :
    (inflate n asked input m).2.2.member.index = m.member.index := by
  fun_induction inflate n asked input m with
  | case1 => rfl
  | case2 => rfl
  | case3 => exact index_readTrailer ..
  | case4 => rfl
  | case5 => rfl
  | case6 => assumption

/-- Only a member that is over has nothing to hand out. -/
theorem isComplete_inflate {n : Nat} {asked : 0 < n} {input : Cursor} {m : Inflation}
    {s : Cursor × Inflation} (h : inflate n asked input m = (.ok [], s)) :
    s.2.member.isComplete := by
  fun_induction inflate n asked input m with
  | case1 => simp at h
  | case2 => simp at h
  | case3 =>
    obtain ⟨_, trailer, _⟩ := Outcome.map_eq_ok.mp h
    exact isComplete_readTrailer trailer
  | case4 =>
    rename_i some
    simp only [Prod.mk.injEq, Except.ok.injEq] at h
    exact absurd h.1 some
  | case5 => simp at h
  | case6 =>
    rename_i ih
    exact ih h

theorem numbered_keeps (past : Nat) : Readable.Keeps (Numbered past) where
  read {c} n h := by
    show Numbered past (read c n).2
    obtain ⟨input, count, current, last, notices⟩ := c
    cases current with
    | none => exact h
    | some m =>
      by_cases asked : 0 < n ∧ m.member.isComplete = false
      · simp only [read, dif_pos asked]
        refine ⟨h.count, ?_⟩
        intro m' same
        cases same
        exact (index_inflate n asked.1 input m).trans (h.index m rfl)
      · simp only [read, dif_neg asked]
        exact h

theorem isComplete_read {c c' : Container} {n : Nat} (asked : 0 < n)
    (call : Readable.read c n = (.ok [], c')) (m : Inflation) (current : c'.current = some m) :
    m.member.isComplete := by
  obtain ⟨input, count, before, last, notices⟩ := c
  have call : read ⟨input, count, before, last, notices⟩ n = (.ok [], c') := call
  cases before with
  | none =>
    simp only [read, Prod.mk.injEq, true_and] at call
    rw [← call] at current
    cases current
  | some m₀ =>
    by_cases going : 0 < n ∧ m₀.member.isComplete = false
    · rcases answer : inflate n asked input m₀ with ⟨e | bs, s⟩ <;>
        simp only [read, dif_pos going, answer, Outcome.within, Prod.mk.injEq, Except.ok.injEq,
          reduceCtorEq, false_and] at call
      obtain ⟨rfl, rfl⟩ := call
      cases current
      exact isComplete_inflate answer
    · simp only [read, dif_neg going, Prod.mk.injEq, true_and] at call
      rw [← call] at current
      cases current
      simpa [asked] using going

/-! ### From member to member -/

theorem numbered_finish_error {past : Nat} {c c' : Container} {e : StreamError}
    (h : Numbered past c) (call : c.finish = (.error e, c')) : Numbered past c' := by
  have passed := (numbered_keeps past).pass (n := passSize) h
  unfold finish at call
  rcases answer : Readable.pass c passSize with ⟨e' | _, next⟩ <;>
    simp only [answer, Outcome.andThen, Prod.mk.injEq, reduceCtorEq, false_and] at call
  rw [answer] at passed
  rw [← call.2]
  exact passed

/-- A member that is finished is complete and the next in the count. -/
theorem numbered_finish_ok {past : Nat} {c c' : Container} {entry : Option Member}
    (h : Numbered past c) (call : c.finish = (.ok entry, c')) :
    c'.current = none ∧ c'.count = past + entry.toList.length ∧
      ∀ m ∈ entry, m.index = past ∧ m.isComplete := by
  obtain ⟨_, next, passed, call⟩ := Outcome.andThen_eq_ok.mp call
  obtain ⟨last, held, ended⟩ := (numbered_keeps past).pass_ok h passed
  have standing := (numbered_keeps past).read_of held ended
  simp only [Prod.mk.injEq, Except.ok.injEq] at call
  obtain ⟨rfl, rfl⟩ := call
  have complete := isComplete_read (by decide) ended
  obtain ⟨input, count, current, before, notices⟩ := next
  cases current with
  | none => exact ⟨rfl, standing.count, by simp⟩
  | some m =>
    refine ⟨rfl, standing.count, ?_⟩
    intro member same
    cases same
    exact ⟨standing.index m rfl, complete m rfl⟩

theorem numbered_begin {past : Nat} {c : Container} (idle : c.current = none)
    (count : c.count = past) :
    Numbered past c.begin.2 ∧ (c.begin.1 = .ok none → c.begin.2.current = none) := by
  unfold begin
  split
  · exact ⟨⟨by simp [inProgress, idle, count], by simp [idle]⟩, by simp⟩
  · exact ⟨⟨by simp [inProgress, idle, count], by simp [idle]⟩, fun _ => idle⟩
  · refine ⟨⟨by simp [inProgress, count], ?_⟩, by simp⟩
    intro m same
    cases same
    exact count

end Container

namespace Packed

/-- Those of `taken` were collected, the others are waiting. -/
structure Ledger (taken : List Member) (p : Packed) : Prop where
  indices : (taken ++ p.completed).map (·.index) = List.range (taken ++ p.completed).length
  complete : ∀ m ∈ taken ++ p.completed, m.isComplete
  standing : p.container.Numbered (taken ++ p.completed).length

variable {taken : List Member} {p : Packed}

theorem ledger_start (source : Source) : Ledger [] (start source) :=
  ⟨rfl, by simp [start], Container.numbered_start source⟩

namespace Ledger

theorem on (h : Ledger taken p) {c : Container}
    (standing : c.Numbered (taken ++ p.completed).length) :
    Ledger taken { p with container := c } := ⟨h.indices, h.complete, standing⟩

theorem collected (h : Ledger taken p) :
    Ledger (taken ++ p.takeCompleted.1) p.takeCompleted.2 := by
  obtain ⟨indices, complete, standing⟩ := h
  refine ⟨?_, ?_, ?_⟩
  · simpa [takeCompleted] using indices
  · simpa [takeCompleted] using complete
  · simpa [takeCompleted] using standing

theorem settle_ok {p' : Packed} (h : Ledger taken p) (call : p.settle = (.ok (), p')) :
    Ledger taken p' ∧ p'.container.current = none := by
  unfold settle at call
  split at call <;> simp only [Prod.mk.injEq, reduceCtorEq, false_and, true_and] at call
  rename_i entry container finished
  obtain ⟨idle, count, member⟩ := Container.numbered_finish_ok h.standing finished
  subst call
  refine ⟨⟨?_, ?_, ?_⟩, idle⟩
  · cases entry with
    | none => simpa using h.indices
    | some m =>
      obtain ⟨index, _⟩ := member m rfl
      have indices := h.indices
      simp only [Option.toList_some, ← List.append_assoc, List.map_append, List.map_cons,
        List.map_nil, List.length_append, List.length_cons, List.length_nil, List.range_succ,
        Nat.zero_add] at indices index ⊢
      rw [indices, index]
  · intro m listed
    rw [← List.append_assoc, List.mem_append] at listed
    rcases listed with before | last
    · exact h.complete m before
    · exact (member m (Option.mem_toList.mp last)).2
  · refine ⟨?_, by simp [idle]⟩
    rw [count]
    simp [Container.inProgress, idle, Nat.add_assoc]

theorem settle_error {p' : Packed} {e : StreamError} (h : Ledger taken p)
    (call : p.settle = (.error e, p')) : Ledger taken p' := by
  unfold settle at call
  split at call <;> simp only [Prod.mk.injEq, reduceCtorEq, false_and] at call
  rename_i container failed
  rw [← call.2]
  exact h.on (Container.numbered_finish_error h.standing failed)

theorem next_idle (h : Ledger taken p) (idle : p.container.current = none) :
    Ledger taken { p with container := p.container.next.2 } ∧
      (p.container.next.1 = .ok none → p.container.next.2.current = none) := by
  have count := h.standing.count
  simp only [Container.inProgress, idle, Option.isSome_none, Bool.toNat_false, Nat.add_zero]
    at count
  rw [Container.next_idle idle]
  obtain ⟨standing, ended⟩ := Container.numbered_begin idle count
  exact ⟨h.on standing, ended⟩

/-- However the search for a record ends, with a record, at the end or by a failure, every member
that it came through is set aside. -/
theorem seek {α : Type} {look : Look α} (h : Ledger taken p)
    (keeps : ∀ past c, Container.Numbered past c →
      Container.Numbered past (look.run { inner := c }).2.inner) :
    Ledger taken (p.seek look).2 ∧
      ((∃ p', p.seek look = (.ok none, p')) → (p.seek look).2.container.current = none) ∧
      ∀ found s p', p.seek look = (.ok (some (found, s)), p') → p'.container = s.inner := by
  fun_induction Packed.seek look p with
  | case1 p e p' failed => exact ⟨h.settle_error failed, by simp, by simp⟩
  | case2 p p' settled e container failed =>
    obtain ⟨after, idle⟩ := h.settle_ok settled
    have next := after.next_idle idle
    rw [failed] at next
    exact ⟨next.1, by simp, by simp⟩
  | case3 p p' settled container ended =>
    obtain ⟨after, idle⟩ := h.settle_ok settled
    have next := after.next_idle idle
    rw [ended] at next
    exact ⟨next.1, fun _ => next.2 rfl, by simp⟩
  | case4 p p' settled m container begun e s failed =>
    obtain ⟨after, idle⟩ := h.settle_ok settled
    have next := after.next_idle idle
    rw [begun] at next
    have seen := keeps _ container next.1.standing
    rw [failed] at seen
    exact ⟨next.1.on seen, by simp, by simp⟩
  | case5 p p' settled m container begun found s looked =>
    obtain ⟨after, idle⟩ := h.settle_ok settled
    have next := after.next_idle idle
    rw [begun] at next
    have seen := keeps _ container next.1.standing
    rw [looked] at seen
    refine ⟨next.1.on seen, by simp, ?_⟩
    intro found' s' last same
    simp only [Prod.mk.injEq, Except.ok.injEq, Option.some.injEq] at same
    rw [← same.2, ← same.1.2]
  | case6 p p' settled m container begun s looked ih =>
    obtain ⟨after, idle⟩ := h.settle_ok settled
    have next := after.next_idle idle
    rw [begun] at next
    have seen := keeps _ container next.1.standing
    rw [looked] at seen
    exact ih (next.1.on seen)

end Ledger
end Packed
end Gzip

open Gzip (Member Container)

namespace PackedArchive

/-! ### Archives in use -/

theorem look_keeps {P : Container → Prop} (k : Readable.Keeps P) (dialect : Dialect)
    (options : ReaderOptions) {c : Container} (h : P c) :
    P ((look dialect options).run { inner := c }).2.inner := by
  have keeps := Buffered.keeps k
  apply Outcome.andThen_keeps (P := fun s : Buffered Container => P s.inner)
  · exact keeps.skipBlank h
  · intro _ s before
    exact keeps.readHeading before

variable {taken : List Member} {a : PackedArchive}

theorem stream_keeps {P : Container → Prop} (k : Readable.Keeps P) :
    Readable.Keeps fun s : Stream => P s.inner.inner :=
  (Buffered.keeps (Chained.keeps k)).toKeeps

/-- Whether a record is opened or not, the container goes on where its stream has been left. -/
theorem enter_keeps {P : Container → Prop} (k : Readable.Keeps P) (heading : Heading)
    {stream : Stream} (h : P stream.inner.inner) :
    ∃ s : Stream, P s.inner.inner ∧
      ((∃ e, a.enter heading stream =
          (.error (.stream e), { a with count := a.count + 1 }.resume s)) ∨
        ∃ record, record.stream = s ∧ a.enter heading stream =
          (.ok (some record), { { a with count := a.count + 1 }.resume s with
            dialect := a.dialect.after record })) := by
  have opened : P (a.dialect.openRecord a.options heading stream).2.inner.inner :=
    Dialect.openRecord_keeps (stream_keeps k) h
  have streams := (Dialect.weight_openRecord_le a.dialect a.options heading stream).2
  refine ⟨_, opened, ?_⟩
  unfold enter
  rcases called : a.dialect.openRecord a.options heading stream with ⟨e | record, s⟩ <;>
    simp only [called] at streams ⊢
  · exact Or.inl ⟨e, rfl⟩
  · exact Or.inr ⟨record, streams record rfl, rfl⟩

theorem ledger_enter (heading : Heading) {stream : Stream} (h : a.packed.Ledger taken)
    (standing : stream.inner.inner.Numbered (taken ++ a.packed.completed).length) :
    (a.enter heading stream).2.packed.Ledger taken ∧
      ∀ record a', a.enter heading stream = (.ok (some record), a') → ∀ actions,
        (a'.resume (record.use actions).2.stream).packed.Ledger taken := by
  have keeps := Container.numbered_keeps (taken ++ a.packed.completed).length
  obtain ⟨s, left, ⟨e, failed⟩ | ⟨record, rfl, opened⟩⟩ := enter_keeps keeps heading standing
  · rw [failed]
    exact ⟨h.on left, by simp⟩
  · rw [opened]
    refine ⟨h.on left, ?_⟩
    intro record' a' same actions
    simp only [Prod.mk.injEq, Except.ok.injEq, Option.some.injEq] at same
    obtain ⟨rfl, rfl⟩ := same
    exact h.on (Record.use_keeps (stream_keeps keeps) left)

/-- One call for the next record, and what the archive is left with once the record is used. -/
theorem ledger_next (h : a.packed.Ledger taken) :
    a.next.2.packed.Ledger taken ∧
      (∀ a', a.next = (.ok none, a') → a'.container.current = none) ∧
      ∀ record a', a.next = (.ok (some record), a') → ∀ actions,
        (a'.resume (record.use actions).2.stream).packed.Ledger taken := by
  obtain ⟨sought, ended, found⟩ := h.seek fun past _ =>
    look_keeps (Container.numbered_keeps past) a.dialect a.options
  unfold next
  split <;> rename_i called
  · rw [called] at sought
    exact ⟨sought, by simp, by simp⟩
  · rename_i packed
    rw [called] at sought ended
    refine ⟨sought, ?_, by simp⟩
    intro a' same
    simp only [Prod.mk.injEq, true_and] at same
    rw [← same]
    exact ended ⟨packed, rfl⟩
  · rename_i heading peek packed
    have same : packed.container = peek.inner := found heading peek packed called
    rw [called] at sought
    have standing := sought.standing
    rw [same] at standing
    obtain ⟨after, used⟩ := ledger_enter (a := { a with packed }) heading sought
      (show (rejoin peek).inner.inner.Numbered _ from standing)
    refine ⟨after, ?_, used⟩
    intro a' none
    rcases called : a.dialect.openRecord a.options heading (rejoin peek) with ⟨e | record, next⟩ <;>
      simp [enter, called] at none

/-- What a caller does between two records: go to the next one, and use it if there is one, or
collect the members that are over. -/
inductive Step where
  | next (actions : List Action)
  | collect

/-- An archive and all the members that were collected from it. -/
structure Session where
  archive : PackedArchive
  taken : List Member := []

namespace Session

/-- Whatever the answer is, the session goes on. -/
def step (s : Session) : Step → Session
  | .next actions =>
    match s.archive.next with
    | (.ok (some record), a) => { s with archive := a.resume (record.use actions).2.stream }
    | (_, a) => { s with archive := a }
  | .collect =>
    { archive := s.archive.takeCompleted.2, taken := s.taken ++ s.archive.takeCompleted.1 }

def run (s : Session) (steps : List Step) : Session := steps.foldl step s

/-- The members that are over, collected or waiting. -/
def finished (s : Session) : List Member := s.taken ++ s.archive.packed.completed

/-- All members begun so far are finished, each of them once and in order, but for the one in
progress. At the end there is none in progress. -/
structure Complete (s : Session) : Prop where
  indices : s.finished.map (·.index) = List.range s.finished.length
  entries : ∀ m ∈ s.finished, m.isComplete
  count : s.finished.length + s.archive.container.inProgress.toNat = s.archive.container.count
  ended : ∀ a, s.archive.next = (.ok none, a) →
    ({ s with archive := a } : Session).finished.map (·.index) = List.range a.container.count ∧
      ∀ m ∈ ({ s with archive := a } : Session).finished, m.isComplete

theorem ledger_step {s : Session} (h : s.archive.packed.Ledger s.taken) (step : Step) :
    (s.step step).archive.packed.Ledger (s.step step).taken := by
  cases step with
  | next actions =>
    obtain ⟨after, _, used⟩ := ledger_next h
    simp only [Session.step]
    split
    · rename_i record a called
      exact used record a called actions
    · rename_i a _ called
      rwa [called] at after
  | collect => exact h.collected

theorem ledger_run {s : Session} (h : s.archive.packed.Ledger s.taken) (steps : List Step) :
    (s.run steps).archive.packed.Ledger (s.run steps).taken := by
  induction steps generalizing s with
  | nil => exact h
  | cons step steps ih => exact ih (ledger_step h step)

theorem complete_of_ledger {s : Session} (h : s.archive.packed.Ledger s.taken) : s.Complete where
  indices := h.indices
  entries := h.complete
  count := h.standing.count.symm
  ended := by
    intro a called
    obtain ⟨after, idle, _⟩ := ledger_next h
    have idle := idle a called
    rw [called] at after
    have count := after.standing.count
    have none : a.packed.container.current = none := idle
    simp only [Container.inProgress, none, Option.isSome_none, Bool.toNat_false, Nat.add_zero]
      at count
    refine ⟨?_, after.complete⟩
    show List.map _ (s.taken ++ a.packed.completed) = List.range a.packed.container.count
    rw [count]
    exact after.indices

end Session

/-- No member is lost and none reported twice, whatever the source delivers, however the records
are used, and whenever the finished members are collected. -/
theorem accounts_for_members (source : Source) (options : ReaderOptions) (steps : List Step) :
    (Session.run ⟨arc source options, []⟩ steps).Complete ∧
      (Session.run ⟨warc source options, []⟩ steps).Complete := by
  have begun := Gzip.Packed.ledger_start source
  refine ⟨?_, ?_⟩
  · apply Session.complete_of_ledger
    exact Session.ledger_run (s := ⟨arc source options, []⟩) begun steps
  · apply Session.complete_of_ledger
    exact Session.ledger_run (s := ⟨warc source options, []⟩) begun steps

end PackedArchive
end WebArchive
