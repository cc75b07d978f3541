import WebArchive.Payload.Basic
import WebArchive.Proofs.Digest
import WebArchive.Proofs.Stream.Delivery

/-!
The accounts of a content: what a payload has taken of its stream is digested and counted byte for
byte, whether it was read or drained, and failures in between cost nothing. `read_ok`,
`read_error`, `close_ok` and `close_error` say what one call does to the accounts; `run_accounted`
follows them over any run of calls.
-/
namespace WebArchive

def Payload.Summary.of (length : Nat) (block entity : Option Digest.Algorithm) (content : Bytes) :
    Payload.Summary :=
  let found := (entity.map fun a => (EntityScan.start a).update content).bind (·.finish)
  { length
    consumed := content.length
    unavailable := length - content.length
    blockDigest := block.map fun a => Digest.ofBytes a content
    payloadDigest := found.map (·.2)
    entityOffset := found.map (·.1) }

namespace Payload
variable {σ : Type}

/-- The payload has taken `taken` of the part of `whole` that was declared, and `rest` of it is
left. -/
structure Accounted (I : σ → Bytes → Prop) (whole : Bytes) (length : Nat)
    (block entity : Option Digest.Algorithm) (p : Payload σ) (taken rest : Bytes) : Prop where
  window : Bounded.Holds I (whole.drop length) (length - whole.length) p.window rest
  content : whole.take length = taken ++ rest
  declared : p.length = length
  consumed : p.consumed = taken.length
  hasher : p.block = block.map fun a => (Digest.Hasher.start a).update taken
  scan : p.entity = entity.map fun a => (EntityScan.start a).update taken
  summary : ∀ s, p.summary = some s → s = .of length block entity taken ∧ rest = []

variable {I : σ → Bytes → Prop} {E : StreamError → Prop} {whole : Bytes} {length : Nat}
  {block entity : Option Digest.Algorithm}

theorem accounted_start {s : σ} (h : I s whole) :
    Accounted I whole length block entity (start s length block entity) []
      (whole.take length) where
  window := Bounded.holds_take h length
  content := rfl
  declared := rfl
  consumed := rfl
  hasher := rfl
  scan := rfl
  summary := by simp [start]

namespace Accounted
variable {p p' : Payload σ} {taken rest bs : Bytes}

theorem isClosed_eq_false (none : p.summary = none) : p.isClosed = false := by
  simp [isClosed, none]

theorem take (h : Accounted I whole length block entity p taken (bs ++ rest))
    {window : Bounded σ} (none : p.summary = none)
    (left : Bounded.Holds I (whole.drop length) (length - whole.length) window rest) :
    Accounted I whole length block entity (Payload.take { p with window } bs) (taken ++ bs)
      rest where
  window := left
  content := by rw [h.content, List.append_assoc]
  declared := h.declared
  consumed := by simp [Payload.take, h.consumed]
  hasher := by
    cases block <;> simp [Payload.take, h.hasher, Digest.Hasher.update_append]
  scan := by
    cases entity <;> simp [Payload.take, h.scan, EntityScan.update_append]
  summary := by simp [Payload.take, none]

theorem withWindow (h : Accounted I whole length block entity p taken rest)
    {J : σ → Bytes → Prop} {window : Bounded σ}
    (left : Bounded.Holds J (whole.drop length) (length - whole.length) window rest) :
    Accounted J whole length block entity { p with window } taken rest :=
  ⟨left, h.content, h.declared, h.consumed, h.hasher, h.scan, h.summary⟩

theorem conclusion_eq (h : Accounted I whole length block entity p taken []) :
    p.conclusion = .of length block entity taken := by
  have room := h.window.2.1
  have size := congrArg List.length h.content
  simp only [List.length_take, List.append_nil, List.length_nil] at room size
  simp only [conclusion, Summary.of, h.declared, h.consumed, h.hasher, h.scan, Summary.mk.injEq,
    Option.map_map, true_and, and_true]
  refine ⟨by omega, ?_⟩
  cases block with
  | none => rfl
  | some algorithm => exact congrArg some (Digest.Hasher.finish_update algorithm taken)

theorem finalize (h : Accounted I whole length block entity p taken []) :
    Accounted I whole length block entity p.finalize taken [] ∧
      p.finalize.summary = some (.of length block entity taken) := by
  cases known : p.summary with
  | some s =>
    have closed : p.isClosed = true := by simp [isClosed, known]
    rw [Payload.finalize, if_pos closed, known, (h.summary s known).1]
    exact ⟨h, rfl⟩
  | none =>
    have opened : p.isClosed = false := isClosed_eq_false known
    rw [Payload.finalize, if_neg (by simp [opened]), ← h.conclusion_eq]
    refine ⟨⟨h.window, h.content, h.declared, h.consumed, h.hasher, h.scan, ?_⟩, rfl⟩
    intro s same
    obtain rfl := Option.some.inj same
    exact ⟨h.conclusion_eq, rfl⟩

variable [Readable σ]

/-! ### One call -/

theorem read_closed {n : Nat} (closed : p.isClosed) : p.read n = (.ok [], p) := by
  simp [Payload.read, closed]

/-- What a read hands out is what it takes. One that asks for something and gets nothing has
summed up. -/
theorem read_ok (t : Readable.Tracks I E) (h : Accounted I whole length block entity p taken rest)
    {n : Nat} (call : p.read n = (.ok bs, p')) :
    ∃ left, rest = bs ++ left ∧ Accounted I whole length block entity p' (taken ++ bs) left ∧
      bs.length ≤ n ∧ (0 < n → bs = [] → p'.isClosed) := by
  unfold Payload.read at call
  split at call
  · rename_i idle
    simp only [Prod.mk.injEq, Except.ok.injEq] at call
    obtain ⟨rfl, rfl⟩ := call
    refine ⟨rest, rfl, by rwa [List.append_nil], Nat.zero_le n, fun some _ => ?_⟩
    exact idle.resolve_right (Nat.ne_of_gt some)
  · rename_i busy
    rw [not_or] at busy
    have some : 0 < n := Nat.pos_of_ne_zero busy.2
    have none : p.summary = none := by simpa [isClosed] using busy.1
    split at call <;> simp only [Prod.mk.injEq, Except.ok.injEq, reduceCtorEq, false_and] at call
    · rename_i window answer
      obtain ⟨rfl, rfl⟩ := call
      obtain ⟨left, same, held⟩ := (Bounded.tracks t ..).taken h.window answer
      obtain rfl := (Bounded.tracks t ..).ended h.window some answer
      obtain rfl : left = [] := by simpa using same.symm
      obtain ⟨summed, known⟩ := (h.withWindow held).finalize
      refine ⟨[], rfl, by rwa [List.append_nil], Nat.zero_le n, fun _ _ => ?_⟩
      simp [isClosed, known]
    · rename_i b bs window answer
      obtain ⟨rfl, rfl⟩ := call
      obtain ⟨left, rfl, held⟩ := (Bounded.tracks t ..).taken h.window answer
      exact ⟨left, rfl, h.take none held, Readable.length_read answer, by simp⟩

theorem read_error (t : Readable.Tracks I E)
    (h : Accounted I whole length block entity p taken rest) {n : Nat} {e : StreamError}
    (call : p.read n = (.error e, p')) :
    E e ∧ Accounted I whole length block entity p' taken rest ∧ p'.isClosed = false := by
  unfold Payload.read at call
  split at call
  · simp at call
  · rename_i busy
    rw [not_or] at busy
    split at call <;> simp only [Prod.mk.injEq, Except.error.injEq, reduceCtorEq, false_and] at call
    rename_i window answer
    obtain ⟨rfl, rfl⟩ := call
    obtain ⟨possible, held⟩ := (Bounded.tracks t ..).failed h.window answer
    exact ⟨possible, h.withWindow held, by simpa [isClosed] using busy.1⟩

theorem drain_ok (t : Readable.Tracks I E)
    (h : Accounted I whole length block entity p taken rest) (unsummed : p.summary = none)
    (call : p.drain = (.ok (), p')) :
    Accounted I whole length block entity p' (taken ++ rest) [] ∧ p'.summary = none := by
  fun_induction drain p generalizing taken rest with
  | case1 => simp at call
  | case2 p window answer =>
    simp only [Prod.mk.injEq, true_and] at call
    subst call
    obtain ⟨left, same, held, last⟩ := (Bounded.tracks t ..).readOn_ok h.window answer
    obtain rfl := last (by decide) rfl
    obtain rfl : left = [] := by simpa using same.symm
    exact ⟨by rw [List.append_nil]; exact h.withWindow held, unsummed⟩
  | case3 p b bs window answer ih =>
    obtain ⟨left, rfl, held, _⟩ := (Bounded.tracks t ..).readOn_ok h.window answer
    rw [← List.append_assoc]
    exact ih (h.take unsummed held) unsummed call

theorem drain_error (t : Readable.Tracks I E)
    (h : Accounted I whole length block entity p taken rest) (unsummed : p.summary = none)
    {e : StreamError} (call : p.drain = (.error e, p')) :
    E e ∧ ¬ e.isInterrupted ∧ p'.summary = none ∧ ∃ piece left, rest = piece ++ left ∧
      Accounted I whole length block entity p' (taken ++ piece) left := by
  fun_induction drain p generalizing taken rest with
  | case1 p e' window answer =>
    simp only [Prod.mk.injEq, Except.error.injEq] at call
    obtain ⟨rfl, rfl⟩ := call
    obtain ⟨possible, final, held⟩ := (Bounded.tracks t ..).readOn_error h.window answer
    refine ⟨possible, final, unsummed, [], rest, rfl, ?_⟩
    rw [List.append_nil]
    exact h.withWindow held
  | case2 => simp at call
  | case3 p b bs window answer ih =>
    obtain ⟨left, rfl, held, _⟩ := (Bounded.tracks t ..).readOn_ok h.window answer
    obtain ⟨possible, final, opened, piece, left', rfl, after⟩ :=
      ih (h.take unsummed held) unsummed call
    refine ⟨possible, final, opened, b :: bs ++ piece, left', by rw [List.append_assoc], ?_⟩
    rwa [← List.append_assoc]

theorem settle_ok (t : Readable.Tracks I E)
    (h : Accounted I whole length block entity p taken rest) (call : p.settle = (.ok (), p')) :
    p'.summary = some (.of length block entity (whole.take length)) ∧
      Accounted I whole length block entity p' (taken ++ rest) [] ∧ (p.isClosed → p' = p) := by
  unfold settle at call
  split at call
  · rename_i closed
    simp only [Prod.mk.injEq, true_and] at call
    subst call
    obtain ⟨s, known⟩ := Option.isSome_iff_exists.mp closed
    obtain ⟨rfl, rfl⟩ := h.summary s known
    rw [h.content, List.append_nil]
    exact ⟨known, h, fun _ => rfl⟩
  · rename_i opened
    have unsummed : p.summary = none := by simpa [isClosed] using opened
    split at call <;> simp only [Prod.mk.injEq, reduceCtorEq, true_and, false_and] at call
    rename_i next answer
    subst call
    obtain ⟨after, _⟩ := h.drain_ok t unsummed answer
    obtain ⟨summed, known⟩ := after.finalize
    refine ⟨?_, summed, fun closed => absurd closed opened⟩
    rw [known, h.content]

theorem settle_error (t : Readable.Tracks I E)
    (h : Accounted I whole length block entity p taken rest) {e : StreamError}
    (call : p.settle = (.error e, p')) :
    E e ∧ ¬ e.isInterrupted ∧ p'.isClosed = false ∧ ∃ piece left, rest = piece ++ left ∧
      Accounted I whole length block entity p' (taken ++ piece) left := by
  unfold settle at call
  split at call
  · simp at call
  · rename_i opened
    have unsummed : p.summary = none := by simpa [isClosed] using opened
    split at call <;> simp only [Prod.mk.injEq, Except.error.injEq, reduceCtorEq, false_and] at call
    rename_i next answer
    obtain ⟨rfl, rfl⟩ := call
    obtain ⟨possible, final, still, after⟩ := h.drain_error t unsummed answer
    exact ⟨possible, final, isClosed_eq_false still, after⟩

/-- A close that succeeds has taken all that was left, and answers with the summary of the
whole. -/
theorem close_ok (t : Readable.Tracks I E)
    (h : Accounted I whole length block entity p taken rest) {s : Summary}
    (call : p.close = (.ok s, p')) :
    s = .of length block entity (whole.take length) ∧ p'.summary = some s ∧
      Accounted I whole length block entity p' (taken ++ rest) [] ∧ (p.isClosed → p' = p) := by
  obtain ⟨_, next, settled, call⟩ := Outcome.andThen_eq_ok.mp call
  obtain ⟨known, after, same⟩ := h.settle_ok t settled
  rw [known] at call
  simp only [Prod.mk.injEq, Except.ok.injEq] at call
  obtain ⟨rfl, rfl⟩ := call
  exact ⟨rfl, known, after, same⟩

/-- A close only fails with an error of the stream, never for want of a summary. -/
theorem close_error (t : Readable.Tracks I E)
    (h : Accounted I whole length block entity p taken rest) {e : StreamError}
    (call : p.close = (.error e, p')) :
    E e ∧ ¬ e.isInterrupted ∧ p'.isClosed = false ∧ ∃ piece left, rest = piece ++ left ∧
      Accounted I whole length block entity p' (taken ++ piece) left := by
  rcases settled : p.settle with ⟨e' | _, next⟩ <;> rw [close, settled] at call
  · simp only [Outcome.andThen, Prod.mk.injEq, Except.error.injEq] at call
    obtain ⟨rfl, rfl⟩ := call
    exact h.settle_error t settled
  · obtain ⟨known, _⟩ := h.settle_ok t settled
    simp [Outcome.andThen, known] at call

theorem close_eq (t : Readable.Tracks I E) (quiet : Quiet E)
    (h : Accounted I whole length block entity p taken rest) :
    ∃ p', p.close = (.ok (.of length block entity (whole.take length)), p') ∧
      Accounted I whole length block entity p' (taken ++ rest) [] := by
  rcases call : p.close with ⟨e | s, next⟩
  · obtain ⟨possible, final, _⟩ := h.close_error t call
    exact absurd (quiet e possible) final
  · obtain ⟨rfl, _, after, _⟩ := h.close_ok t call
    exact ⟨next, rfl, after⟩

end Accounted

variable [Readable σ]

theorem tracks (t : Readable.Tracks I E) (whole : Bytes) (length : Nat)
    (block entity : Option Digest.Algorithm) :
    Readable.Tracks (σ := Payload σ)
      (fun p rest => ∃ taken, Accounted I whole length block entity p taken rest) E where
  taken := by
    rintro p d n bs p' ⟨taken, h⟩ call
    obtain ⟨left, same, after, _⟩ := h.read_ok t call
    exact ⟨left, same, _, after⟩
  ended := by
    rintro p d n p' ⟨taken, h⟩ some call
    obtain ⟨left, rfl, after, _, closed⟩ := h.read_ok t call
    obtain ⟨s, known⟩ := Option.isSome_iff_exists.mp (closed some rfl)
    exact (after.summary s known).2
  failed := by
    rintro p d n e p' ⟨taken, h⟩ call
    obtain ⟨possible, after, _⟩ := h.read_error t call
    exact ⟨possible, taken, after⟩

/-! ### Runs of calls -/

inductive Call where
  | read (n : Nat)
  | close

inductive Reply where
  | bytes (bs : Bytes)
  | summary (s : Summary)

def perform (p : Payload σ) : Call → Answer (Payload σ) Reply
  | .read n => (p.read n).map .bytes
  | .close => p.close.map .summary

variable (source : Source) (length : Nat) (block entity : Option Digest.Algorithm)

/-- The accounts of a payload over a source of which it has taken `taken`. -/
structure Ledger (p : Payload Source) (taken : Bytes) : Prop where
  stream : source.bytes = taken ++ p.source.bytes
  consumed : p.consumed = taken.length
  remaining : p.consumed + p.remaining = length
  summary : ∀ s, p.summary = some s →
    s = .of length block entity taken ∧ taken = source.bytes.take length
  /-- once there are no failures any more but interruptions, a close succeeds -/
  recovers : (∀ e ∈ p.source.failures, e.isInterrupted) →
    p.close.1 = .ok (.of length block entity (source.bytes.take length))

structure Served (p : Payload Source) (call : Call) (piece : Bytes)
    (answer : Except StreamError Reply) (p' : Payload Source) : Prop where
  took : p.source.bytes = piece ++ p'.source.bytes
  closed : p.isClosed → p' = p
  read : ∀ n bs, call = .read n → answer = .ok (.bytes bs) →
    piece = bs ∧ bs.length ≤ n ∧ (0 < n → bs = [] → p'.isClosed)
  summed : ∀ s, answer = .ok (.summary s) → p'.summary = some s
  failed : ∀ e, answer = .error e →
    e ∈ source.failures ∧ p'.isClosed = false ∧ ∀ n, call = .read n → piece = []

/-- The accounts are right before and after every one of the calls, which begin with `taken` taken
already; every call takes up where the one before it stopped. -/
def Accounts : List Call → Bytes → Payload Source → Prop
  | [], taken, p => Ledger source length block entity p taken
  | call :: calls, taken, p =>
    Ledger source length block entity p taken ∧
      ∃ piece, Served source p call piece (p.perform call).1 (p.perform call).2 ∧
        Accounts calls (taken ++ piece) (p.perform call).2

variable {source length block entity} {p : Payload Source} {taken rest : Bytes}

theorem Accounted.ledger
    (h : Accounted (Source.Holds E) source.bytes length block entity p taken rest) :
    Ledger source length block entity p taken := by
  obtain ⟨⟨bytes, _⟩, room, fits⟩ := h.window
  have size := congrArg List.length h.content
  simp only [List.length_take, List.length_append] at size
  refine ⟨?_, h.consumed, ?_, fun s known => ?_, fun quiet => ?_⟩
  · have left : p.source.bytes = rest ++ source.bytes.drop length := bytes
    rw [left, ← List.append_assoc, ← h.content, List.take_append_drop]
  · have left : p.remaining = rest.length + (length - source.bytes.length) := room
    rw [h.consumed]
    omega
  · obtain ⟨same, rfl⟩ := h.summary s known
    exact ⟨same, by rw [h.content, List.append_nil]⟩
  · -- only the failures that are still to come matter from here on
    have calm : Accounted (Source.Holds (· ∈ p.source.failures)) source.bytes length block entity p
        taken rest :=
      h.withWindow ⟨⟨bytes, fun _ some => some⟩, room, fits⟩
    obtain ⟨p', closed, _⟩ := calm.close_eq (Source.tracks _).toTracks quiet
    rw [closed]

namespace Accounted
variable {p' : Payload Source} {piece left : Bytes}

theorem took (h : Accounted (Source.Holds E) source.bytes length block entity p taken rest)
    (after : Accounted (Source.Holds E) source.bytes length block entity p' (taken ++ piece) left) :
    p.source.bytes = piece ++ p'.source.bytes := by
  have same := h.ledger.stream.symm.trans after.ledger.stream
  rwa [List.append_assoc, List.append_cancel_left_eq] at same

theorem served_read (h : Accounted (Source.Holds (· ∈ source.failures)) source.bytes length
    block entity p taken rest) (n : Nat) :
    ∃ piece left, Served source p (.read n) piece (p.perform (.read n)).1 (p.perform (.read n)).2 ∧
      Accounted (Source.Holds (· ∈ source.failures)) source.bytes length block entity
        (p.perform (.read n)).2 (taken ++ piece) left := by
  have t := (Source.tracks (· ∈ source.failures)).toTracks
  rcases answer : p.read n with ⟨e | bs, p'⟩ <;>
    simp only [perform, answer, Outcome.map, Except.map]
  · obtain ⟨possible, after, opened⟩ := h.read_error t answer
    rw [← List.append_nil taken] at after
    refine ⟨[], rest, ⟨h.took after, ?_, by simp, by simp, ?_⟩, after⟩
    · intro closed
      simp [read_closed closed] at answer
    · intro e' same
      obtain rfl := Except.error.inj same
      exact ⟨possible, opened, fun _ _ => rfl⟩
  · obtain ⟨left, _, after, few, last⟩ := h.read_ok t answer
    refine ⟨bs, left, ⟨h.took after, ?_, ?_, by simp, by simp⟩, after⟩
    · intro closed
      rw [read_closed closed] at answer
      exact (Prod.mk.inj answer).2.symm
    · intro m bs' asked same
      obtain rfl := Call.read.inj asked
      obtain rfl := Reply.bytes.inj (Except.ok.inj same)
      exact ⟨rfl, few, last⟩

theorem served_close (h : Accounted (Source.Holds (· ∈ source.failures)) source.bytes length
    block entity p taken rest) :
    ∃ piece left, Served source p .close piece (p.perform .close).1 (p.perform .close).2 ∧
      Accounted (Source.Holds (· ∈ source.failures)) source.bytes length block entity
        (p.perform .close).2 (taken ++ piece) left := by
  have t := (Source.tracks (· ∈ source.failures)).toTracks
  rcases answer : p.close with ⟨e | s, p'⟩ <;>
    simp only [perform, answer, Outcome.map, Except.map]
  · obtain ⟨possible, _, opened, piece, left, _, after⟩ := h.close_error t answer
    refine ⟨piece, left, ⟨h.took after, ?_, by simp, by simp, ?_⟩, after⟩
    · intro closed
      obtain ⟨s, known⟩ := Option.isSome_iff_exists.mp closed
      simp [close_summary known] at answer
    · intro e' same
      obtain rfl := Except.error.inj same
      exact ⟨possible, opened, by simp⟩
  · obtain ⟨_, known, after, same⟩ := h.close_ok t answer
    refine ⟨rest, [], ⟨h.took after, same, by simp, ?_, by simp⟩, after⟩
    intro s' given
    obtain rfl := Reply.summary.inj (Except.ok.inj given)
    exact known

theorem served (h : Accounted (Source.Holds (· ∈ source.failures)) source.bytes length
    block entity p taken rest) (call : Call) :
    ∃ piece left, Served source p call piece (p.perform call).1 (p.perform call).2 ∧
      Accounted (Source.Holds (· ∈ source.failures)) source.bytes length block entity
        (p.perform call).2 (taken ++ piece) left := by
  cases call with
  | read n => exact h.served_read n
  | close => exact h.served_close

end Accounted

theorem Accounted.accounts (calls : List Call)
    (h : Accounted (Source.Holds (· ∈ source.failures)) source.bytes length block entity p taken
      rest) : Accounts source length block entity calls taken p := by
  induction calls generalizing p taken rest with
  | nil => exact h.ledger
  | cons call calls ih =>
    obtain ⟨piece, left, served, after⟩ := h.served call
    exact ⟨h.ledger, piece, served, ih after⟩

/-- Whatever a source does and however its content is read and closed, the accounts are right all
along, and the summary is the one that closing at once without any failure gives. -/
theorem run_accounted (source : Source) (length : Nat) (block entity : Option Digest.Algorithm)
    (calls : List Call) :
    Accounts source length block entity calls [] (start source length block entity) ∧
      (start source.undisturbed length block entity).close.1 =
        .ok (.of length block entity (source.bytes.take length)) := by
  refine ⟨(accounted_start source.holds_bytes).accounts calls, ?_⟩
  obtain ⟨p', closed, _⟩ := (accounted_start source.holds_undisturbed).close_eq
    (Source.tracks noError).toTracks quiet_noError
  rw [closed]

end Payload
end WebArchive
