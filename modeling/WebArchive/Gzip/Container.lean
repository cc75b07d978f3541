import WebArchive.Deflate.Inflater
import WebArchive.Gzip.Member
import WebArchive.Stream.Cursor

/-!
A container of gzip members, read one after the other. The data of the current member are read as
a stream of their own; its trailer is checked when they end, and the next member begins right
behind it. Main facts: `weight_inflate` and `weight_next`, reading always uses up the container.
-/
namespace WebArchive.Gzip

structure Inflation where
  member : Member
  inflater : Deflate.Inflater := {}
  checksum : Crc32 := {}

structure Container where
  input : Cursor
  count : Nat := 0
  current : Option Inflation := none
  /-- the member that was completed last -/
  last : Option Member := none
  /-- mismatches noticed and not collected yet -/
  notices : List Notice := []

namespace Container

def start (source : Source) : Container := { input := { source } }

def position (c : Container) : Nat := c.input.position

open Readable (weight)
open Deflate (State)

def readTrailer (input : Cursor) : Inflation → Answer (Cursor × Inflation) Unit
  | ⟨member, inflater, checksum⟩ =>
    match Readable.readExact input Member.trailerLength with
    | (.error e, input) => (.error e, (input, ⟨member, inflater, checksum⟩))
    | (.ok trailer, input) =>
      let member := member.withTrailer trailer checksum inflater.taken inflater.delivered
      (.ok (), (input, ⟨member, inflater, checksum⟩))

/-- Inflates until there is something to hand out or the data end. An error of the trailer comes
before the bytes in front of it, which are lost. -/
def inflate (n : Nat) (asked : 0 < n) (input : Cursor) :
    Inflation → Answer (Cursor × Inflation) Bytes
  | ⟨member, inflater, checksum⟩ =>
    match _call : Peekable.fill input with
    | (.error e, next) => (.error e, (next, ⟨member, inflater, checksum⟩))
    | (.ok shown, next) =>
      match _step : inflater.step shown n with
      | ⟨produced, consumed, after⟩ =>
        let next := Peekable.consume next consumed
        let m : Inflation := ⟨member, after, checksum.update produced⟩
        if _corrupt : after.isCorrupt then (.error .corruptDeflate, (next, m))
        else if _ended : after.isEnded then (readTrailer next m).map fun _ => produced
        else if _some : produced ≠ [] then (.ok produced, (next, m))
        else if _end : shown = [] then (.error .truncatedMember, (next, m))
        else inflate n asked next m
termination_by weight input
decreasing_by
  have bound : (inflater.step shown n).consumed ≤ shown.length :=
    Deflate.Inflater.consumed_step_le inflater shown n
  have used := Deflate.Inflater.consumed_step_pos inflater shown n asked _end
  rw [_step] at bound used
  have used := used (by simpa using _corrupt) (by simpa using _ended) (by simpa using _some)
  have := Peekable.weight_consume _call bound
  simp only at this used ⊢
  omega

def read (c : Container) (n : Nat) : Answer Container Bytes :=
  match c with
  | ⟨input, count, none, last, notices⟩ => (.ok [], ⟨input, count, none, last, notices⟩)
  | ⟨input, count, some m, last, notices⟩ =>
    if asked : 0 < n ∧ m.member.isComplete = false then
      (inflate n asked.1 input m).within fun (input, m) =>
        ⟨input, count, some m, last,
          notices ++ if m.member.isComplete then m.member.trailerNotices else []⟩
    else (.ok [], ⟨input, count, some m, last, notices⟩)

/-! ### The weight of a container -/

/-- Every byte of input can still become `maxGrowth` bytes of data. -/
def potential (input : Cursor) (m : Inflation) : Nat :=
  State.maxGrowth * weight input + m.inflater.pending

theorem potential_readTrailer_le (input : Cursor) (m : Inflation) :
    (fun (input, m) => potential input m) (readTrailer input m).2 ≤ potential input m := by
  obtain ⟨member, inflater, checksum⟩ := m
  unfold readTrailer
  rcases call : Readable.readExact input Member.trailerLength with ⟨e | bs, input'⟩
  · have := (Readable.weight_readExact_error call).1
    exact Nat.add_le_add_right (Nat.mul_le_mul_left _ this) _
  · have := (Readable.weight_readExact call).1
    exact Nat.add_le_add_right (Nat.mul_le_mul_left _ (by omega)) _

theorem readTrailer_not_interrupted {input : Cursor} {m : Inflation} {e : StreamError}
    {s : Cursor × Inflation} (h : readTrailer input m = (.error e, s)) : ¬ e.isInterrupted := by
  obtain ⟨member, inflater, checksum⟩ := m
  unfold readTrailer at h
  rcases call : Readable.readExact input Member.trailerLength with ⟨e' | bs, next⟩ <;>
    rw [call] at h <;> simp only [Prod.mk.injEq, Except.error.injEq, reduceCtorEq, false_and] at h
  rw [← h.1]
  exact (Readable.weight_readExact_error call).2

/-- What a call that took input leaves to come, together with what it handed out. -/
theorem potential_step_le {input next : Cursor} {shown : Bytes} (n : Nat) (member : Member)
    (inflater : Deflate.Inflater) (checksum : Crc32)
    (call : Peekable.fill input = (.ok shown, next)) :
    potential (Peekable.consume next (inflater.step shown n).consumed)
        ⟨member, (inflater.step shown n).inflater, checksum⟩ +
      (inflater.step shown n).produced.length ≤
      State.maxGrowth * weight input + inflater.pending := by
  have bound := Deflate.Inflater.consumed_step_le inflater shown n
  have grown := Deflate.Inflater.pending_step_le inflater shown n
  have used := Nat.mul_le_mul_left State.maxGrowth (Peekable.weight_consume call bound)
  rw [Nat.mul_add] at used
  simp only [potential]
  omega

theorem weight_inflate {n : Nat} {asked : 0 < n} {input : Cursor} {m : Inflation} {bs : Bytes}
    {s : Cursor × Inflation} (h : inflate n asked input m = (.ok bs, s)) :
    potential s.1 s.2 + bs.length ≤ potential input m ∧ bs.length ≤ n := by
  fun_induction inflate n asked input m with
  | case1 => simp at h
  | case2 => simp at h
  | case3 input member inflater checksum shown next call produced consumed after step rest m
      corrupt ended =>
    obtain ⟨_, trailer, rfl⟩ := Outcome.map_eq_ok.mp h
    have length := Deflate.Inflater.length_step_le inflater shown n
    have paid := potential_step_le n member inflater (checksum.update produced) call
    rw [step] at length paid
    have paid : potential rest m + produced.length ≤ potential input ⟨member, inflater, checksum⟩ :=
      paid
    have last := potential_readTrailer_le rest m
    rw [trailer] at last
    exact ⟨by simp only at last; omega, length⟩
  | case4 input member inflater checksum shown next call produced consumed after step rest m
      corrupt ended some =>
    simp only [Prod.mk.injEq, Except.ok.injEq] at h
    obtain ⟨rfl, rfl⟩ := h
    have length := Deflate.Inflater.length_step_le inflater shown n
    have paid := potential_step_le n member inflater (checksum.update produced) call
    rw [step] at length paid
    exact ⟨paid, length⟩
  | case5 => simp at h
  | case6 input member inflater checksum shown next call produced consumed after step rest m
      corrupt ended some more ih =>
    have paid := potential_step_le n member inflater (checksum.update produced) call
    rw [step] at paid
    have paid : potential rest m + produced.length ≤ potential input ⟨member, inflater, checksum⟩ :=
      paid
    exact ⟨by have := (ih h).1; omega, (ih h).2⟩

theorem weight_inflate_error {n : Nat} {asked : 0 < n} {input : Cursor} {m : Inflation}
    {e : StreamError} {s : Cursor × Inflation} (h : inflate n asked input m = (.error e, s)) :
    potential s.1 s.2 ≤ potential input m ∧
      (e.isInterrupted → potential s.1 s.2 < potential input m) := by
  fun_induction inflate n asked input m with
  | case1 input member inflater checksum e' next call =>
    simp only [Prod.mk.injEq, Except.error.injEq] at h
    obtain ⟨rfl, rfl⟩ := h
    have le := Nat.mul_le_mul_left State.maxGrowth (Peekable.weight_fill_error call)
    refine ⟨by simp only [potential]; omega, fun again => ?_⟩
    have lt := Nat.mul_lt_mul_of_pos_left (Peekable.weight_fill_interrupted call again)
      (show 0 < State.maxGrowth by decide)
    simp only [potential]; omega
  | case2 input member inflater checksum shown next call produced consumed after step rest m
      corrupt =>
    simp only [Prod.mk.injEq, Except.error.injEq] at h
    obtain ⟨rfl, rfl⟩ := h
    have paid := potential_step_le n member inflater (checksum.update produced) call
    rw [step] at paid
    have paid : potential rest m + produced.length ≤ potential input ⟨member, inflater, checksum⟩ :=
      paid
    exact ⟨by simp only; omega, fun again => absurd again (by decide)⟩
  | case3 input member inflater checksum shown next call produced consumed after step rest m
      corrupt ended =>
    have paid := potential_step_le n member inflater (checksum.update produced) call
    rw [step] at paid
    have paid : potential rest m + produced.length ≤ potential input ⟨member, inflater, checksum⟩ :=
      paid
    have last := potential_readTrailer_le rest m
    rcases trailer : readTrailer rest m with ⟨e' | _, s'⟩ <;>
      rw [trailer] at h last <;> simp [Outcome.map, Except.map] at h
    obtain ⟨rfl, rfl⟩ := h
    exact ⟨by simp only at last; omega,
      fun again => absurd again (readTrailer_not_interrupted trailer)⟩
  | case4 => simp at h
  | case5 input member inflater checksum next produced consumed after rest m corrupt ended some
      call step =>
    simp only [Prod.mk.injEq, Except.error.injEq] at h
    obtain ⟨rfl, rfl⟩ := h
    have paid := potential_step_le n member inflater (checksum.update produced) call
    rw [step] at paid
    have paid : potential rest m + produced.length ≤ potential input ⟨member, inflater, checksum⟩ :=
      paid
    exact ⟨by simp only; omega, fun again => absurd again (by decide)⟩
  | case6 input member inflater checksum shown next call produced consumed after step rest m
      corrupt ended some more ih =>
    have paid := potential_step_le n member inflater (checksum.update produced) call
    rw [step] at paid
    have paid : potential rest m + produced.length ≤ potential input ⟨member, inflater, checksum⟩ :=
      paid
    exact ⟨by have := (ih h).1; omega, fun again => by have := (ih h).2 again; omega⟩

/-- The weight of a container whose current member, if there is one, is `current`. -/
def weightOf (input : Cursor) (current : Option Inflation) : Nat :=
  State.maxGrowth * weight input + current.elim 0 fun m => m.inflater.pending

instance : Readable Container where
  read := read
  weight c := weightOf c.input c.current
  length_read := by
    intro c n bs c' h
    rcases c with ⟨input, count, _ | m, last, notices⟩
    · simp only [read, Prod.mk.injEq, Except.ok.injEq] at h; simp [← h.1]
    · simp only [read] at h
      split at h
      · rename_i asked
        rcases call : inflate n asked.1 input m with ⟨e | bs', s⟩ <;>
          rw [call] at h <;> simp [Outcome.within] at h
        rw [← h.1]; exact (weight_inflate call).2
      · simp only [Prod.mk.injEq, Except.ok.injEq] at h; simp [← h.1]
  weight_read := by
    intro c n bs c' h
    rcases c with ⟨input, count, _ | m, last, notices⟩
    · simp only [read, Prod.mk.injEq, Except.ok.injEq] at h
      obtain ⟨rfl, rfl⟩ := h
      exact Nat.le_refl _
    · simp only [read] at h
      split at h
      · rename_i asked
        rcases call : inflate n asked.1 input m with ⟨e | bs', s⟩ <;>
          rw [call] at h <;> simp [Outcome.within] at h
        obtain ⟨rfl, rfl⟩ := h
        exact (weight_inflate call).1
      · simp only [Prod.mk.injEq, Except.ok.injEq] at h
        obtain ⟨rfl, rfl⟩ := h
        exact Nat.le_refl _
  weight_error := by
    intro c n e c' h
    rcases c with ⟨input, count, _ | m, last, notices⟩
    · simp [read] at h
    · simp only [read] at h
      split at h
      · rename_i asked
        rcases call : inflate n asked.1 input m with ⟨e' | bs', s⟩ <;>
          rw [call] at h <;> simp [Outcome.within] at h
        obtain ⟨rfl, rfl⟩ := h
        exact (weight_inflate_error call).1
      · simp at h
  weight_interrupted := by
    intro c n e c' h again
    rcases c with ⟨input, count, _ | m, last, notices⟩
    · simp [read] at h
    · simp only [read] at h
      split at h
      · rename_i asked
        rcases call : inflate n asked.1 input m with ⟨e' | bs', s⟩ <;>
          rw [call] at h <;> simp [Outcome.within] at h
        obtain ⟨rfl, rfl⟩ := h
        exact (weight_inflate_error call).2 again
      · simp at h

/-! ### From member to member -/

/-- How much one call asks for when the rest of a member is passed over. -/
def passSize : Nat := 4096

def retire (c : Container) : Container :=
  match c.current with
  | some m => { c with current := none, last := some m.member }
  | none => c

/-- Inflates what is left of the current member and answers with what is known of it then; none
if there is no current member. -/
def finish (c : Container) : Answer Container (Option Member) :=
  (Readable.pass c passSize).andThen fun _ c => (.ok (c.current.map (·.member)), c.retire)

def begin (c : Container) : Outcome Error Container (Option Member) :=
  match readHeader c.position c.input with
  | (.error e, input) => (.error e, { c with input })
  | (.ok none, input) => (.ok none, { c with input })
  | (.ok (some found), input) =>
    let member := Member.ofFound c.count c.position found
    (.ok (some member),
      { c with
        input
        count := c.count + 1
        current := some { member }
        notices := c.notices ++ member.headerNotices })

/-- Goes to the next member, behind the whole of the current one; none at the end. -/
def next (c : Container) : Outcome Error Container (Option Member) :=
  (c.finish.mapError .stream).andThen fun _ c => c.begin

def takeNotices (c : Container) : List Notice × Container := (c.notices, { c with notices := [] })

theorem weight_retire_le (c : Container) : weight c.retire ≤ weight c := by
  obtain ⟨input, count, current, last, notices⟩ := c
  cases current with
  | none => exact Nat.le_refl _
  | some m => exact Nat.le_add_right _ _

theorem weight_finish_le (c : Container) : weight c.finish.2 ≤ weight c :=
  Readable.weight_andThen_le (Readable.weight_pass_le c passSize) fun _ c' le =>
    Nat.le_trans (weight_retire_le c') le

theorem weight_begin (c : Container) :
    weight c.begin.2 ≤ weight c ∧
      (∀ m, c.begin.1 = .ok (some m) → weight c.begin.2 < weight c) := by
  have le := weight_readHeader_le c.position c.input
  unfold begin
  rcases call : readHeader c.position c.input with ⟨e | found, input⟩
  · rw [call] at le
    have := Nat.mul_le_mul_left State.maxGrowth le
    exact ⟨Nat.add_le_add_right this _, by simp⟩
  · rw [call] at le
    cases found with
    | none =>
      have := Nat.mul_le_mul_left State.maxGrowth le
      exact ⟨Nat.add_le_add_right this _, by simp⟩
    | some found =>
      have lt := Nat.mul_lt_mul_of_pos_left (weight_found call) (show 0 < State.maxGrowth by decide)
      have : weightOf input (some { member := Member.ofFound c.count c.position found }) <
          weightOf c.input c.current := by
        show _ + _ < _ + _
        have zero : ({} : Deflate.Inflater).pending = 0 := rfl
        simp only [Option.elim_some, zero]
        omega
      exact ⟨Nat.le_of_lt this, fun _ _ => this⟩

theorem weight_next {c c' : Container} {m : Member} (h : c.next = (.ok (some m), c')) :
    weight c' < weight c := by
  obtain ⟨_, before, finished, begun⟩ := Outcome.andThen_eq_ok.mp h
  have first : weight before ≤ weight c := by
    have := weight_finish_le c
    have same : c.finish.2 = before := congrArg Prod.snd finished
    rwa [same] at this
  have := (weight_begin before).2 m (by rw [begun])
  rw [begun] at this
  simp only at this
  omega

end Container
end WebArchive.Gzip
