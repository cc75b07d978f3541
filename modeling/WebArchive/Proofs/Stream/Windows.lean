import WebArchive.Proofs.Stream.Delivery

/-!
Windows over a source, under any run of calls, failing ones included. What a window has taken is the
front of the source, and with what it may still take it makes up the limit. `Tracks.performs` says
what one call takes of a tracked stream, `runs_accounted` follows bounded and recording windows over
a run.
-/
namespace WebArchive

namespace Readable

/-! ### One call -/

inductive Call where
  | read (n : Nat)
  | readByte
  | skip (n : Nat)
  | readAll

inductive Reply where
  | bytes (bs : Bytes)
  | byte (b : Option UInt8)
  | skipped (n : Nat)

/-- What a reply says about the bytes that were taken for it. -/
def Reply.Tells : Reply → Bytes → Prop
  | .bytes bs, piece => bs = piece
  | .byte b, piece => b.toList = piece
  | .skipped n, piece => n = piece.length

/-- The reply of a stream that has ended. -/
def Call.nothing : Call → Reply
  | .read _ | .readAll => .bytes []
  | .readByte => .byte none
  | .skip _ => .skipped 0

/-- At least one byte is asked for. -/
def Call.Asks : Call → Prop
  | .read n | .skip n => 0 < n
  | .readByte | .readAll => True

variable {σ : Type} [Readable σ]

def perform (s : σ) : Call → Answer σ Reply
  | .read n => (read s n).map .bytes
  | .readByte => (readByte s).map .byte
  | .skip n => (skip s n).map .skipped
  | .readAll => (readAll s).map .bytes

/-- On a stream that gives nothing and stays as it is, every call does so. -/
theorem perform_idle {s : σ} (idle : ∀ n, read s n = (.ok [], s)) (call : Call) :
    perform s call = (.ok call.nothing, s) := by
  have readOn_idle (n : Nat) : readOn s n = (.ok [], s) := by
    rw [readOn]
    split <;> rename_i answer <;> cases (idle n).symm.trans answer
    rfl
  cases call with
  | read n => simp only [perform, idle, Outcome.map, Except.map, Call.nothing]
  | readByte =>
    simp only [perform, readByte, readOn_idle, Outcome.map, Except.map, List.head?_nil,
      Call.nothing]
  | skip n =>
    have skipped : skip s n = (.ok 0, s) := by
      rw [skip]
      split
      · rfl
      · split <;> rename_i answer <;> cases (readOn_idle _).symm.trans answer
        rfl
    simp only [perform, skipped, Outcome.map, Except.map, Call.nothing]
  | readAll =>
    have all : readAll s = (.ok [], s) := by
      rw [readAll]
      split <;> rename_i answer <;> cases (readOn_idle _).symm.trans answer
      rfl
    simp only [perform, all, Outcome.map, Except.map, Call.nothing]

namespace Tracks
variable {I : σ → Bytes → Prop} {E : StreamError → Prop} {s s' : σ} {d : Bytes}

theorem readByte_ok (t : Tracks I E) {b : Option UInt8} (h : I s d)
    (call : readByte s = (.ok b, s')) :
    ∃ rest, d = b.toList ++ rest ∧ I s' rest ∧ (b = none → d = []) := by
  unfold readByte at call
  split at call <;> simp only [Prod.mk.injEq, Except.ok.injEq, reduceCtorEq, false_and] at call
  rename_i bs next answer
  obtain ⟨rfl, rfl⟩ := call
  obtain ⟨rest, rfl, left, last⟩ := t.readOn_ok h answer
  have most := length_readOn answer
  refine ⟨rest, ?_, left, fun none => ?_⟩
  · rcases bs with _ | ⟨b, _ | ⟨c, more⟩⟩
    · rfl
    · rfl
    · simp at most
  · exact last Nat.one_pos (List.head?_eq_none_iff.mp none)

theorem readByte_error (t : Tracks I E) {e : StreamError} (h : I s d)
    (call : readByte s = (.error e, s')) : E e ∧ I s' d := by
  unfold readByte at call
  split at call <;> simp only [Prod.mk.injEq, Except.error.injEq, reduceCtorEq, false_and] at call
  rename_i answer
  obtain ⟨rfl, rfl⟩ := call
  obtain ⟨possible, _, left⟩ := t.readOn_error h answer
  exact ⟨possible, left⟩

/-- Skipping that succeeds stops at the number asked for or at the end. -/
theorem skip_ok (t : Tracks I E) {n k : Nat} (h : I s d) (call : skip s n = (.ok k, s')) :
    k = min n d.length ∧ I s' (d.drop k) := by
  fun_induction skip s n generalizing d k with
  | case1 s =>
    cases call
    exact ⟨(Nat.zero_min _).symm, h⟩
  | case2 => simp at call
  | case3 s n asked next answer =>
    cases call
    obtain ⟨rest, rfl, left, none⟩ := t.readOn_ok h answer
    rw [none (by omega) rfl] at left ⊢
    exact ⟨(Nat.min_zero _).symm, left⟩
  | case4 s n asked b bs next answer more last rest ih =>
    cases call
    obtain ⟨behind, rfl, left, _⟩ := t.readOn_ok h answer
    have most := length_readOn answer
    obtain ⟨amount, after⟩ := ih left rest
    refine ⟨?_, ?_⟩
    · simp only [List.length_append, List.length_cons] at most ⊢
      omega
    · have split : (b :: bs).length = bs.length + 1 := rfl
      rw [← split, List.drop_length_add_append]
      exact after
  | case5 => simp at call

theorem skip_error (t : Tracks I E) {n : Nat} {e : StreamError} (h : I s d)
    (call : skip s n = (.error e, s')) : E e ∧ ∃ piece rest, d = piece ++ rest ∧ I s' rest := by
  fun_induction skip s n generalizing d with
  | case1 => simp at call
  | case2 s n asked e next answer =>
    cases call
    obtain ⟨possible, _, left⟩ := t.readOn_error h answer
    exact ⟨possible, [], d, rfl, left⟩
  | case3 => simp at call
  | case4 => simp at call
  | case5 s n asked b bs next answer e last rest ih =>
    cases call
    obtain ⟨behind, rfl, left, _⟩ := t.readOn_ok h answer
    obtain ⟨possible, piece, rest, rfl, after⟩ := ih left rest
    exact ⟨possible, b :: bs ++ piece, rest, (List.append_assoc ..).symm, after⟩

theorem readAll_ok (t : Tracks I E) {demand : Demand} {bs : Bytes} (h : I s d)
    (room : demand.IsOpen) (call : readAll s demand = (.ok bs, s')) : bs = d ∧ I s' [] := by
  fun_induction readAll s demand generalizing d bs with
  | case1 => simp at call
  | case2 s demand next answer =>
    cases call
    obtain ⟨rest, rfl, left, none⟩ := t.readOn_ok h answer
    obtain rfl := none (Demand.request_pos room) rfl
    exact ⟨rfl, left⟩
  | case3 s demand b bs next answer more last rest ih =>
    cases call
    obtain ⟨behind, rfl, left, _⟩ := t.readOn_ok h answer
    obtain ⟨rfl, after⟩ := ih left (Demand.isOpen_received room (length_readOn answer)) rest
    exact ⟨rfl, after⟩
  | case4 => simp at call

theorem readAll_error (t : Tracks I E) {demand : Demand} {e : StreamError} (h : I s d)
    (call : readAll s demand = (.error e, s')) :
    E e ∧ ∃ piece rest, d = piece ++ rest ∧ I s' rest := by
  fun_induction readAll s demand generalizing d with
  | case1 s demand e next answer =>
    cases call
    obtain ⟨possible, _, left⟩ := t.readOn_error h answer
    exact ⟨possible, [], d, rfl, left⟩
  | case2 => simp at call
  | case3 => simp at call
  | case4 s demand b bs next answer e last rest ih =>
    cases call
    obtain ⟨behind, rfl, left, _⟩ := t.readOn_ok h answer
    obtain ⟨possible, piece, rest, rfl, after⟩ := ih left rest
    exact ⟨possible, b :: bs ++ piece, rest, (List.append_assoc ..).symm, after⟩

end Tracks

/-- What a call that took `piece` of the `d` to come has answered. -/
structure Performed (E : StreamError → Prop) (call : Call) (d piece : Bytes)
    (answer : Except StreamError Reply) : Prop where
  told : ∀ reply, answer = .ok reply → reply.Tells piece
  skipped : ∀ n k, call = .skip n → answer = .ok (.skipped k) → k = min n d.length
  drained : ∀ bs, call = .readAll → answer = .ok (.bytes bs) → bs = d
  ended : call.Asks → answer = .ok call.nothing → d = []
  failed : ∀ e, answer = .error e → E e

theorem Performed.of_error {E : StreamError → Prop} {call : Call} {d piece : Bytes}
    {e : StreamError} (possible : E e) : Performed E call d piece (.error e) where
  told := by simp
  skipped := by simp
  drained := by simp
  ended := by simp
  failed := by
    rintro _ ⟨⟩
    exact possible

namespace Tracks
variable {I : σ → Bytes → Prop} {E : StreamError → Prop} {s : σ} {d : Bytes}

theorem performs (t : Tracks I E) (h : I s d) (call : Call) :
    ∃ piece rest, d = piece ++ rest ∧ I (perform s call).2 rest ∧
      Performed E call d piece (perform s call).1 := by
  cases call with
  | read n =>
    rcases answer : read s n with ⟨e | bs, s'⟩ <;>
      simp only [perform, answer, Outcome.map, Except.map]
    · obtain ⟨possible, left⟩ := t.failed h answer
      exact ⟨[], d, rfl, left, .of_error possible⟩
    · obtain ⟨rest, same, left⟩ := t.taken h answer
      refine ⟨bs, rest, same, left, ?_, by simp, by simp, ?_, by simp⟩
      · rintro _ ⟨⟩
        exact rfl
      · rintro some ⟨⟩
        exact t.ended h some answer
  | readByte =>
    rcases answer : readByte s with ⟨e | b, s'⟩ <;>
      simp only [perform, answer, Outcome.map, Except.map]
    · obtain ⟨possible, left⟩ := t.readByte_error h answer
      exact ⟨[], d, rfl, left, .of_error possible⟩
    · obtain ⟨rest, same, left, last⟩ := t.readByte_ok h answer
      refine ⟨b.toList, rest, same, left, ?_, by simp, by simp, ?_, by simp⟩
      · rintro _ ⟨⟩
        exact rfl
      · rintro _ ⟨⟩
        exact last rfl
  | skip n =>
    rcases answer : skip s n with ⟨e | k, s'⟩ <;>
      simp only [perform, answer, Outcome.map, Except.map]
    · obtain ⟨possible, piece, rest, same, left⟩ := t.skip_error h answer
      exact ⟨piece, rest, same, left, .of_error possible⟩
    · obtain ⟨amount, left⟩ := t.skip_ok h answer
      refine ⟨d.take k, d.drop k, (List.take_append_drop ..).symm, left, ?_, ?_, by simp, ?_,
        by simp⟩
      · rintro _ ⟨⟩
        show k = (d.take k).length
        rw [List.length_take]
        omega
      · rintro _ _ ⟨⟩ ⟨⟩
        exact amount
      · rintro some ⟨⟩
        have some : 0 < n := some
        exact List.eq_nil_of_length_eq_zero (by omega)
  | readAll =>
    rcases answer : readAll s with ⟨e | bs, s'⟩ <;>
      simp only [perform, answer, Outcome.map, Except.map]
    · obtain ⟨possible, piece, rest, same, left⟩ := t.readAll_error h answer
      exact ⟨piece, rest, same, left, .of_error possible⟩
    · obtain ⟨rfl, left⟩ := t.readAll_ok h Demand.isOpen_start answer
      refine ⟨bs, [], (List.append_nil _).symm, left, ?_, by simp, ?_, ?_, by simp⟩
      · rintro _ ⟨⟩
        exact rfl
      · rintro _ _ ⟨⟩
        exact rfl
      · rintro _ ⟨⟩
        exact rfl

end Tracks
end Readable

/-! ### Where a source is -/

namespace Source

def Event.meets : Event → List (UInt8 ⊕ StreamError)
  | .chunk bs => bs.map .inl
  | .failure e => [.inr e]

/-- What the calls on a source have still to meet, byte for byte and failure for failure. -/
def meets (s : Source) : List (UInt8 ⊕ StreamError) := s.events.flatMap Event.meets

theorem meets_cons (event : Event) (rest : List Event) :
    meets ⟨event :: rest⟩ = event.meets ++ meets ⟨rest⟩ := rfl

theorem fillEvents_meets {events rest : List Event} {answer : Except StreamError Bytes}
    (call : fillEvents events = (answer, rest)) : meets ⟨rest⟩ <:+ meets ⟨events⟩ := by
  fun_induction fillEvents events with
  | case1 =>
    cases call
    exact List.suffix_rfl
  | case2 tail ih => exact ih call
  | case3 =>
    cases call
    exact List.suffix_rfl
  | case4 e tail =>
    cases call
    exact List.suffix_cons ..

theorem consume_meets (s : Source) (n : Nat) : (s.consume n).meets <:+ s.meets := by
  obtain ⟨events⟩ := s
  match events with
  | [] => exact List.suffix_rfl
  | .failure e :: rest => exact List.suffix_rfl
  | .chunk bs :: rest =>
    rw [consume, meets_cons, meets_cons]
    have part : Event.meets (.chunk (bs.drop n)) <:+ Event.meets (.chunk bs) :=
      (List.drop_suffix n bs).map _
    obtain ⟨front, same⟩ := part
    exact ⟨front, by rw [← List.append_assoc, same]⟩

theorem read_meets {s s' : Source} {n : Nat} {answer : Except StreamError Bytes}
    (call : s.read n = (answer, s')) : s'.meets <:+ s.meets := by
  cases answer with
  | error e => exact fillEvents_meets (fill_error (read_error call))
  | ok bs =>
    rcases read_ok call with ⟨_, _, rfl⟩ | ⟨shown, next, _, filled, _, rfl⟩
    · exact List.suffix_rfl
    · exact (consume_meets next n).trans (fillEvents_meets (fill_ok filled))

/-- What is left of `whole` behind some of what its calls have met: `d`, with no failures but those
of `whole`. -/
def Behind (whole s : Source) (d : Bytes) : Prop :=
  s.meets <:+ whole.meets ∧ s.Holds (· ∈ whole.failures) d

theorem behind_start (s : Source) : s.Behind s s.bytes := ⟨List.suffix_rfl, s.holds_bytes⟩

theorem tracks_behind (whole : Source) :
    Readable.Tracks (σ := Source) whole.Behind (· ∈ whole.failures) where
  taken := by
    intro s d n bs s' ⟨place, h⟩ call
    obtain ⟨rest, same, left⟩ := (tracks _).taken h call
    exact ⟨rest, same, (read_meets call).trans place, left⟩
  ended h some call := (tracks _).ended h.2 some call
  failed := by
    intro s d n e s' ⟨place, h⟩ call
    obtain ⟨possible, left⟩ := (tracks _).failed h call
    exact ⟨possible, (read_meets call).trans place, left⟩

end Source

/-! ### Windows -/

namespace Bounded

theorem read_closed {σ : Type} [Readable σ] {w : Bounded σ} (closed : w.remaining = 0) (n : Nat) :
    w.read n = (.ok [], w) := by
  rw [read, if_pos (Or.inl closed)]

end Bounded

namespace Recorded
variable {σ : Type} [Readable σ]

theorem read_closed {w : Recorded σ} (closed : w.remaining = 0) (n : Nat) :
    w.read n = (.ok [], w) := by
  rw [read, Bounded.read_closed closed]
  simp

theorem read_ok {w w' : Recorded σ} {n : Nat} {bs : Bytes} (h : read w n = (.ok bs, w')) :
    Bounded.read w.window n = (.ok bs, w'.window) ∧ w'.recording = w.recording ++ bs := by
  unfold read at h
  split at h <;> simp only [Prod.mk.injEq, Except.ok.injEq, reduceCtorEq, false_and] at h
  rename_i window call
  obtain ⟨rfl, rfl⟩ := h
  exact ⟨call, rfl⟩

theorem read_error {w w' : Recorded σ} {n : Nat} {e : StreamError}
    (h : read w n = (.error e, w')) :
    Bounded.read w.window n = (.error e, w'.window) ∧ w'.recording = w.recording := by
  unfold read at h
  split at h <;> simp only [Prod.mk.injEq, Except.error.injEq, reduceCtorEq, false_and] at h
  rename_i window call
  obtain ⟨rfl, rfl⟩ := h
  exact ⟨call, rfl⟩

/-- The window still holds `d`, and the copy has what comes before `d` in `content`. -/
def Holds (I : σ → Bytes → Prop) (behind : Bytes) (missing : Nat) (content : Bytes)
    (w : Recorded σ) (d : Bytes) : Prop :=
  w.window.Holds I behind missing d ∧ w.recording.toList ++ d = content

theorem tracks {I : σ → Bytes → Prop} {E : StreamError → Prop} (t : Readable.Tracks I E)
    (behind : Bytes) (missing : Nat) (content : Bytes) :
    Readable.Tracks (σ := Recorded σ) (Holds I behind missing content) E where
  taken := by
    intro w d n bs w' ⟨h, copied⟩ call
    obtain ⟨inside, copy⟩ := read_ok call
    obtain ⟨rest, rfl, left⟩ := (Bounded.tracks t behind missing).taken h inside
    refine ⟨rest, rfl, left, ?_⟩
    simpa [copy] using copied
  ended := by
    intro w d n w' ⟨h, _⟩ some call
    exact (Bounded.tracks t behind missing).ended h some (read_ok call).1
  failed := by
    intro w d n e w' ⟨h, copied⟩ call
    obtain ⟨inside, copy⟩ := read_error call
    obtain ⟨possible, left⟩ := (Bounded.tracks t behind missing).failed h inside
    exact ⟨possible, left, copy ▸ copied⟩

end Recorded

/-! ### Runs of calls -/

namespace Window
open Readable

/-- A window of `limit` bytes over `source` that has taken `taken`. -/
structure Ledger (source : Source) (limit : Nat) (w : Bounded Source) (taken : Bytes) : Prop where
  stream : source.bytes = taken ++ w.inner.bytes
  place : w.inner.meets <:+ source.meets
  remaining : taken.length + w.remaining = limit

/-- What a call on the window `w` that took `piece` has answered and left. -/
structure Served (source : Source) (w : Bounded Source) (call : Call) (piece : Bytes)
    (answer : Except StreamError Reply) (w' : Bounded Source) : Prop where
  took : w.inner.bytes = piece ++ w'.inner.bytes
  told : ∀ reply, answer = .ok reply → reply.Tells piece
  skipped : ∀ n k, call = .skip n → answer = .ok (.skipped k) →
    k = min n (min w.remaining w.inner.bytes.length)
  drained : ∀ bs, call = .readAll → answer = .ok (.bytes bs) → bs = w.inner.bytes.take w.remaining
  closed : w.remaining = 0 → answer = .ok call.nothing ∧ w' = w
  ended : call.Asks → answer = .ok call.nothing → w.remaining = 0 ∨ w.inner.bytes = []
  failed : ∀ e, answer = .error e → e ∈ source.failures

section Runs
variable {ω : Type} [Readable ω] (window : ω → Bounded Source) (copy : ω → Option Bytes)
  (source : Source) (limit : Nat)

/-- The accounts are right before and after every one of the calls, which begin with `taken` taken
already, and so is the copy of what was taken, if there is one. -/
def Accounts : List Call → Bytes → ω → Prop
  | [], taken, w => Ledger source limit (window w) taken ∧ ∀ bs ∈ copy w, bs = taken
  | call :: calls, taken, w =>
    (Ledger source limit (window w) taken ∧ ∀ bs ∈ copy w, bs = taken) ∧
      ∃ piece, Served source (window w) call piece (perform w call).1 (window (perform w call).2) ∧
        Accounts calls (taken ++ piece) (perform w call).2

/-- What makes a `w` with `J w d` a window that can still take `d`. -/
structure Frames (J : ω → Bytes → Prop) : Prop where
  tracked : Readable.Tracks J (· ∈ source.failures)
  holds : ∀ {w d}, J w d → (window w).Holds source.Behind (source.bytes.drop limit)
    (limit - source.bytes.length) d
  copied : ∀ {w d}, J w d → ∀ bs ∈ copy w, bs ++ d = source.bytes.take limit
  idle : ∀ {w}, (window w).remaining = 0 → ∀ n, read w n = (.ok [], w)

variable {window copy source limit} {J : ω → Bytes → Prop}

theorem ledger_of_holds {w : Bounded Source} {taken d : Bytes}
    (h : w.Holds source.Behind (source.bytes.drop limit) (limit - source.bytes.length) d)
    (content : source.bytes.take limit = taken ++ d) : Ledger source limit w taken := by
  obtain ⟨⟨place, left, _⟩, room, _⟩ := h
  refine ⟨?_, place, ?_⟩
  · rw [left, ← List.append_assoc, ← content, List.take_append_drop]
  · have size := congrArg List.length content
    simp only [List.length_take, List.length_append] at size
    omega

/-- The bytes that a window can still take are the first ones of its source. -/
theorem take_remaining {w : Bounded Source} {behind d : Bytes} {missing : Nat}
    (h : w.Holds source.Behind behind missing d) : w.inner.bytes.take w.remaining = d := by
  obtain ⟨⟨_, left, _⟩, room, fits⟩ := h
  rw [left, room]
  rcases fits with rfl | rfl
  · exact List.take_left
  · rw [List.append_nil, List.take_of_length_le (Nat.le_add_right ..)]

theorem Frames.ledger (f : Frames window copy source limit J) {w : ω} {taken d : Bytes} (h : J w d)
    (content : source.bytes.take limit = taken ++ d) :
    Ledger source limit (window w) taken ∧ ∀ bs ∈ copy w, bs = taken := by
  refine ⟨ledger_of_holds (f.holds h) content, fun bs kept => ?_⟩
  have same := f.copied h bs kept
  rw [content] at same
  exact List.append_cancel_right same

theorem Frames.served (f : Frames window copy source limit J) {w : ω} {taken d : Bytes} (h : J w d)
    (content : source.bytes.take limit = taken ++ d) (call : Call) :
    ∃ piece rest, d = piece ++ rest ∧ J (perform w call).2 rest ∧
      Served source (window w) call piece (perform w call).1 (window (perform w call).2) := by
  obtain ⟨piece, rest, rfl, after, performed⟩ := f.tracked.performs h call
  have before := (f.ledger h content).1.stream
  rw [← List.append_assoc] at content
  have behind := (f.ledger after content).1.stream
  have inside := take_remaining (f.holds h)
  refine ⟨piece, rest, rfl, after, ?_, performed.told, ?_, ?_, ?_, ?_, performed.failed⟩
  · rw [before, List.append_assoc, List.append_cancel_left_eq] at behind
    exact behind
  · intro n k asked answer
    rw [performed.skipped n k asked answer, ← inside, List.length_take]
  · intro bs asked answer
    rw [performed.drained bs asked answer, inside]
  · intro closed
    rw [perform_idle (f.idle closed) call]
    exact ⟨rfl, rfl⟩
  · intro some answer
    rw [performed.ended some answer] at inside
    exact List.take_eq_nil_iff.mp inside

theorem Frames.accounts (f : Frames window copy source limit J) (calls : List Call) {w : ω}
    {taken d : Bytes} (h : J w d) (content : source.bytes.take limit = taken ++ d) :
    Accounts window copy source limit calls taken w := by
  induction calls generalizing w taken d with
  | nil => exact f.ledger h content
  | cons call calls ih =>
    obtain ⟨piece, rest, rfl, after, served⟩ := f.served h content call
    refine ⟨f.ledger h content, piece, served, ih after ?_⟩
    rw [content, List.append_assoc]

end Runs

/-- Whatever a source does and however a window over it is read and skipped, bounded and recording
windows account for every byte all along. -/
theorem runs_accounted (source : Source) (limit : Nat) (calls : List Call) :
    Accounts id (fun _ => none) source limit calls [] (⟨source, limit⟩ : Bounded Source) ∧
    Accounts Recorded.window (fun w => some w.recording.toList) source limit calls []
      { window := ⟨source, limit⟩ } := by
  have start : Bounded.Holds source.Behind (source.bytes.drop limit) (limit - source.bytes.length)
      ⟨source, limit⟩ (source.bytes.take limit) := Bounded.holds_take source.behind_start limit
  have bounded : Frames (ω := Bounded Source) id (fun _ => none) source limit
      (Bounded.Holds source.Behind (source.bytes.drop limit) (limit - source.bytes.length)) :=
    { tracked := Bounded.tracks source.tracks_behind ..
      holds := id
      copied := by simp
      idle := Bounded.read_closed }
  have recorded : Frames (ω := Recorded Source) Recorded.window (fun w => some w.recording.toList)
      source limit
      (Recorded.Holds source.Behind (source.bytes.drop limit) (limit - source.bytes.length)
        (source.bytes.take limit)) :=
    { tracked := Recorded.tracks source.tracks_behind ..
      holds := And.left
      copied := by
        rintro w d ⟨_, same⟩ bs ⟨⟩
        exact same
      idle := Recorded.read_closed }
  exact ⟨bounded.accounts calls start rfl, recorded.accounts calls ⟨start, rfl⟩ rfl⟩

end Window
end WebArchive
