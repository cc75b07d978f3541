import WebArchive.Bytes
import WebArchive.Stream.Error

/-!
Streams that bytes are read from, one call at a time. A call answers with bytes or an error and
always with the stream after it, so a failure keeps what the call had taken. A stream has a
weight that bounds the bytes and interruptions still to come; the loops below end by it.

Main facts: `weight_readOn`, `weight_fillOn`, a repeated call is paid for by the weight.
-/
namespace WebArchive

/-- What a call on a `σ` gives: a value or an error, and the `σ` after the call. -/
abbrev Outcome (ε σ α : Type) := Except ε α × σ

namespace Outcome
variable {ε δ σ τ α β : Type}

/-- Goes on with the value, unless there was an error. -/
def andThen (o : Outcome ε σ α) (next : α → σ → Outcome ε σ β) : Outcome ε σ β :=
  match o with
  | (.ok a, s) => next a s
  | (.error e, s) => (.error e, s)

def map (f : α → β) (o : Outcome ε σ α) : Outcome ε σ β := (o.1.map f, o.2)

def mapError (f : ε → δ) (o : Outcome ε σ α) : Outcome δ σ α := (o.1.mapError f, o.2)

/-- The same call, seen on a larger value that holds the `σ`. -/
def within (f : σ → τ) (o : Outcome ε σ α) : Outcome ε τ α := (o.1, f o.2)

theorem ok_inj {o : Outcome ε σ α} {a b : α} {s s' : σ} (h : o = (.ok a, s))
    (h' : o = (.ok b, s')) : a = b ∧ s = s' := by
  rw [h] at h'
  simpa using h'

theorem ne_error {o : Outcome ε σ α} {a : α} {e : ε} {s s' : σ} (h : o = (.ok a, s)) :
    o ≠ (.error e, s') := by
  simp [h]

theorem andThen_eq_ok {o : Outcome ε σ α} {next : α → σ → Outcome ε σ β} {b : β} {s' : σ} :
    o.andThen next = (.ok b, s') ↔ ∃ a s, o = (.ok a, s) ∧ next a s = (.ok b, s') := by
  rcases o with ⟨_ | a, s⟩
  · simp [andThen]
  · exact ⟨fun h => ⟨a, s, rfl, h⟩, fun ⟨_, _, same, h⟩ => by cases same; exact h⟩

theorem map_eq_ok {o : Outcome ε σ α} {f : α → β} {b : β} {s : σ} :
    o.map f = (.ok b, s) ↔ ∃ a, o = (.ok a, s) ∧ f a = b := by
  rcases o with ⟨_ | a, s'⟩
  · simp [map, Except.map]
  · simp only [map, Except.map, Prod.mk.injEq, Except.ok.injEq]
    exact ⟨fun ⟨h, same⟩ => ⟨a, ⟨rfl, same⟩, h⟩, fun ⟨_, ⟨rfl, same⟩, h⟩ => ⟨h, same⟩⟩

theorem map_eq_andThen (o : Outcome ε σ α) (f : α → β) :
    o.map f = o.andThen fun a s => (.ok (f a), s) := by
  rcases o with ⟨_ | _, _⟩ <;> rfl

theorem mapError_eq_ok {o : Outcome ε σ α} {f : ε → δ} {a : α} {s : σ} :
    o.mapError f = (.ok a, s) ↔ o = (.ok a, s) := by
  rcases o with ⟨e | b, s'⟩
  · show ((.error (f e) : Except δ α), s') = _ ↔ _
    simp
  · show ((.ok b : Except δ α), s') = _ ↔ _
    simp

end Outcome

abbrev Answer (σ α : Type) := Outcome StreamError σ α

class Readable (σ : Type) where
  /-- At most `n` bytes; none from a call with `0 < n` means that the stream has ended. -/
  read : σ → Nat → Answer σ Bytes
  weight : σ → Nat
  length_read : ∀ {s n bs s'}, read s n = (.ok bs, s') → bs.length ≤ n
  weight_read : ∀ {s n bs s'}, read s n = (.ok bs, s') → weight s' + bs.length ≤ weight s
  weight_error : ∀ {s n e s'}, read s n = (.error e, s') → weight s' ≤ weight s
  weight_interrupted : ∀ {s n e s'}, read s n = (.error e, s') → e.isInterrupted →
    weight s' < weight s

class Peekable (σ : Type) extends Readable σ where
  /-- The bytes at hand, none only at the end. -/
  fill : σ → Answer σ Bytes
  /-- Takes bytes that `fill` has shown. -/
  consume : σ → Nat → σ
  weight_fill : ∀ {s bs s'}, fill s = (.ok bs, s') → weight s' ≤ weight s
  weight_consume : ∀ {s bs s' k}, fill s = (.ok bs, s') → k ≤ bs.length →
    weight (consume s' k) + k ≤ weight s
  weight_fill_error : ∀ {s e s'}, fill s = (.error e, s') → weight s' ≤ weight s
  weight_fill_interrupted : ∀ {s e s'}, fill s = (.error e, s') → e.isInterrupted →
    weight s' < weight s

namespace Readable
variable {σ : Type} [Readable σ]

def readOn (s : σ) (n : Nat) : Answer σ Bytes :=
  match _call : read s n with
  | (.ok bs, s') => (.ok bs, s')
  | (.error e, s') => if _again : e.isInterrupted then readOn s' n else (.error e, s')
termination_by weight s
decreasing_by exact weight_interrupted _call _again

theorem weight_readOn {s : σ} {n : Nat} {bs : Bytes} {s' : σ} (h : readOn s n = (.ok bs, s')) :
    weight s' + bs.length ≤ weight s := by
  fun_induction readOn s n with
  | case1 s bs s' call => simp_all; exact weight_read call
  | case2 s e next call again ih =>
    have := weight_interrupted call again
    have := ih h
    omega
  | case3 => simp at h

theorem weight_readOn_lt {s : σ} {n : Nat} {b : UInt8} {bs : Bytes} {s' : σ}
    (h : readOn s n = (.ok (b :: bs), s')) : weight s' < weight s := by
  have := weight_readOn h
  simp only [List.length_cons] at this
  omega

theorem weight_readOn_error {s : σ} {n : Nat} {e : StreamError} {s' : σ}
    (h : readOn s n = (.error e, s')) : weight s' ≤ weight s ∧ ¬ e.isInterrupted := by
  fun_induction readOn s n with
  | case1 => simp at h
  | case2 s e next call again ih =>
    have := weight_interrupted call again
    exact ⟨by have := (ih h).1; omega, (ih h).2⟩
  | case3 s e next call final =>
    simp only [Prod.mk.injEq, Except.error.injEq] at h
    obtain ⟨rfl, rfl⟩ := h
    exact ⟨weight_error call, final⟩

def readByte (s : σ) : Answer σ (Option UInt8) :=
  match readOn s 1 with
  | (.ok bs, s') => (.ok bs.head?, s')
  | (.error e, s') => (.error e, s')

/-- Reads until `n` bytes have come or the stream has ended. -/
def readFull (s : σ) (n : Nat) : Answer σ Bytes :=
  match _call : readOn s n with
  | (.error e, s') => (.error e, s')
  | (.ok [], s') => (.ok [], s')
  | (.ok (b :: bs), s') =>
    if n ≤ bs.length + 1 then (.ok (b :: bs), s')
    else match readFull s' (n - (bs.length + 1)) with
      | (.ok more, s'') => (.ok (b :: bs ++ more), s'')
      | (.error e, s'') => (.error e, s'')
termination_by weight s
decreasing_by exact weight_readOn_lt _call

theorem weight_andThen_le {ε α β : Type} {o : Outcome ε σ α} {next : α → σ → Outcome ε σ β}
    {w : Nat} (first : weight o.2 ≤ w) (after : ∀ a s, weight s ≤ w → weight (next a s).2 ≤ w) :
    weight (o.andThen next).2 ≤ w := by
  rcases o with ⟨_ | a, s⟩
  · exact first
  · exact after a s first

theorem weight_readFull {s : σ} {n : Nat} {bs : Bytes} {s' : σ}
    (h : readFull s n = (.ok bs, s')) : weight s' + bs.length ≤ weight s := by
  fun_induction readFull s n generalizing bs s' with
  | case1 => simp at h
  | case2 s n next call =>
    simp only [Prod.mk.injEq, Except.ok.injEq] at h
    have := weight_readOn call
    rw [← h.1, ← h.2]; exact this
  | case3 s n b front next call full =>
    simp only [Prod.mk.injEq, Except.ok.injEq] at h
    have := weight_readOn call
    rw [← h.1, ← h.2]; exact this
  | case4 s n b front next call short more last rest ih =>
    simp only [Prod.mk.injEq, Except.ok.injEq] at h
    have := weight_readOn call
    have := ih rest
    rw [← h.1, ← h.2]; simp only [List.length_cons, List.length_append] at *; omega
  | case5 => simp at h

theorem weight_readFull_error {s : σ} {n : Nat} {e : StreamError} {s' : σ}
    (h : readFull s n = (.error e, s')) : weight s' ≤ weight s ∧ ¬ e.isInterrupted := by
  fun_induction readFull s n generalizing s' with
  | case1 s n e' next call =>
    simp only [Prod.mk.injEq, Except.error.injEq] at h
    obtain ⟨rfl, rfl⟩ := h
    exact weight_readOn_error call
  | case2 => simp at h
  | case3 => simp at h
  | case4 => simp at h
  | case5 s n b front next call short e' last rest ih =>
    simp only [Prod.mk.injEq, Except.error.injEq] at h
    obtain ⟨rfl, rfl⟩ := h
    have := weight_readOn call
    exact ⟨by have := (ih rest).1; omega, (ih rest).2⟩

theorem weight_readFull_le (s : σ) (n : Nat) : weight (readFull s n).2 ≤ weight s := by
  rcases h : readFull s n with ⟨e | bs, s'⟩
  · exact (weight_readFull_error h).1
  · have := weight_readFull h; simp only; omega

def readExact (s : σ) (n : Nat) : Answer σ Bytes :=
  match readFull s n with
  | (.ok bs, s') => if bs.length < n then (.error .shortRead, s') else (.ok bs, s')
  | (.error e, s') => (.error e, s')

theorem weight_readExact {s : σ} {n : Nat} {bs : Bytes} {s' : σ}
    (h : readExact s n = (.ok bs, s')) : weight s' + bs.length ≤ weight s ∧ n ≤ bs.length := by
  unfold readExact at h
  split at h
  · rename_i full
    split at h
    · simp at h
    · simp only [Prod.mk.injEq, Except.ok.injEq] at h
      obtain ⟨rfl, rfl⟩ := h
      exact ⟨weight_readFull full, by omega⟩
  · simp at h

theorem weight_readExact_error {s : σ} {n : Nat} {e : StreamError} {s' : σ}
    (h : readExact s n = (.error e, s')) : weight s' ≤ weight s ∧ ¬ e.isInterrupted := by
  unfold readExact at h
  split at h
  · rename_i full
    split at h
    · simp only [Prod.mk.injEq, Except.error.injEq] at h
      obtain ⟨rfl, rfl⟩ := h
      have := weight_readFull full
      exact ⟨by omega, by decide⟩
    · simp at h
  · rename_i failed
    simp only [Prod.mk.injEq, Except.error.injEq] at h
    obtain ⟨rfl, rfl⟩ := h
    exact weight_readFull_error failed

theorem weight_readExact_le (s : σ) (n : Nat) : weight (readExact s n).2 ≤ weight s := by
  rcases h : readExact s n with ⟨e | bs, s'⟩
  · exact (weight_readExact_error h).1
  · have := (weight_readExact h).1; simp only; omega

/-- Reads past everything up to the end, `n` bytes in a call. -/
def pass (s : σ) (n : Nat) : Answer σ Unit :=
  match _call : readOn s n with
  | (.error e, s') => (.error e, s')
  | (.ok [], s') => (.ok (), s')
  | (.ok (_ :: _), s') => pass s' n
termination_by weight s
decreasing_by exact weight_readOn_lt _call

theorem weight_pass_le (s : σ) (n : Nat) : weight (pass s n).2 ≤ weight s := by
  fun_induction pass s n with
  | case1 s e next call => exact (weight_readOn_error call).1
  | case2 s next call => have := weight_readOn call; simp at this; exact this
  | case3 s b bs next call ih => have := weight_readOn_lt call; omega

/-- Reads past up to `n` bytes in pieces of at most 1024; the number of bytes passed. -/
def skip (s : σ) (n : Nat) : Answer σ Nat :=
  if n = 0 then (.ok 0, s)
  else match _call : readOn s (min 1024 n) with
    | (.error e, s') => (.error e, s')
    | (.ok [], s') => (.ok 0, s')
    | (.ok (_ :: bs), s') =>
      match skip s' (n - (bs.length + 1)) with
      | (.ok more, s'') => (.ok (bs.length + 1 + more), s'')
      | (.error e, s'') => (.error e, s'')
termination_by weight s
decreasing_by exact weight_readOn_lt _call

/-- How much is asked for while reading to the end: the room left in a store that grows when it
is full, with a limit for one call that doubles when a call reaches it. -/
structure Demand where
  held : Nat := 0
  capacity : Nat := 0
  limit : Nat := 8192

namespace Demand

/-- The capacity for the next call: at least double when the store is full. -/
def grown (d : Demand) : Nat :=
  if d.held = d.capacity then max (2 * d.capacity) (d.held + 32) else d.capacity

/-- The first call only looks whether there is anything, and asks for 32 bytes. -/
def request (d : Demand) : Nat := min (d.grown - d.held) d.limit

def received (d : Demand) (n : Nat) : Demand :=
  if d.capacity = 0 then { d with held := n, capacity := max 8 n }
  else
    { held := d.held + n
      capacity := d.grown
      limit := if d.limit ≤ d.request ∧ n = d.request then 2 * d.limit else d.limit }

end Demand

/-- Everything up to the end; on an error the bytes that came before it are lost. -/
def readAll (s : σ) (d : Demand := {}) : Answer σ Bytes :=
  match _call : readOn s d.request with
  | (.error e, s') => (.error e, s')
  | (.ok [], s') => (.ok [], s')
  | (.ok (b :: bs), s') =>
    match readAll s' (d.received (bs.length + 1)) with
    | (.ok more, s'') => (.ok (b :: bs ++ more), s'')
    | (.error e, s'') => (.error e, s'')
termination_by weight s
decreasing_by exact weight_readOn_lt _call

theorem weight_readAll_le (s : σ) (d : Demand) : weight (readAll s d).2 ≤ weight s := by
  fun_induction readAll s d with
  | case1 s d e next call => exact (weight_readOn_error call).1
  | case2 s d next call => have := weight_readOn call; simp at this; exact this
  | case3 s d b bs next call more last rest ih =>
    have := weight_readOn_lt call
    rw [rest] at ih; simp only at *; omega
  | case4 s d b bs next call e last rest ih =>
    have := weight_readOn_lt call
    rw [rest] at ih; simp only at *; omega

end Readable

namespace Peekable
variable {σ : Type} [Peekable σ]
open Readable (weight)

def fillOn (s : σ) : Answer σ Bytes :=
  match _call : fill s with
  | (.ok bs, s') => (.ok bs, s')
  | (.error e, s') => if _again : e.isInterrupted then fillOn s' else (.error e, s')
termination_by weight s
decreasing_by exact weight_fill_interrupted _call _again

theorem weight_fillOn {s : σ} {bs : Bytes} {s' : σ} {k : Nat} (h : fillOn s = (.ok bs, s'))
    (bound : k ≤ bs.length) : weight (consume s' k) + k ≤ weight s := by
  fun_induction fillOn s with
  | case1 s bs s' call =>
    simp only [Prod.mk.injEq, Except.ok.injEq] at h
    obtain ⟨rfl, rfl⟩ := h
    exact weight_consume call bound
  | case2 s e next call again ih =>
    have := weight_fill_interrupted call again
    have := ih h
    omega
  | case3 => simp at h

theorem weight_fillOn_le (s : σ) : weight (fillOn s).2 ≤ weight s := by
  fun_induction fillOn s with
  | case1 s bs next call => exact weight_fill call
  | case2 s e next call again ih => have := weight_fill_interrupted call again; omega
  | case3 s e next call => exact weight_fill_error call

theorem weight_fillOn_error {s : σ} {e : StreamError} {s' : σ} (h : fillOn s = (.error e, s')) :
    weight s' ≤ weight s := by
  have := weight_fillOn_le s
  rwa [h] at this

theorem weight_fillOn_lt {s : σ} {bs : Bytes} {s' : σ} {k : Nat} (h : fillOn s = (.ok bs, s'))
    (bound : k ≤ bs.length) (some : 0 < k) : weight (consume s' k) < weight s := by
  have := weight_fillOn h bound
  omega

/-- The bytes through the first `stop`, or all that is left if there is none. -/
def readThrough (stop : UInt8) (s : σ) : Answer σ Bytes :=
  match _call : fillOn s with
  | (.error e, s') => (.error e, s')
  | (.ok [], s') => (.ok [], s')
  | (.ok (b :: bs), s') =>
    let before := (b :: bs).takeWhile (· ≠ stop)
    if before.length < bs.length + 1 then (.ok (before ++ [stop]), consume s' (before.length + 1))
    else match readThrough stop (consume s' (bs.length + 1)) with
      | (.ok more, s'') => (.ok (b :: bs ++ more), s'')
      | (.error e, s'') => (.error e, s'')
termination_by weight s
decreasing_by exact weight_fillOn_lt _call (by simp) (by omega)

theorem weight_readThrough_le (stop : UInt8) (s : σ) :
    weight (readThrough stop s).2 ≤ weight s := by
  fun_induction readThrough stop s with
  | case1 s e next call => exact weight_fillOn_error call
  | case2 s next call => have := weight_fillOn_le s; rwa [call] at this
  | case3 s b bs next call before found =>
    have := weight_fillOn call (k := before.length + 1) (by simp only [List.length_cons]; omega)
    simp only; omega
  | case4 s b bs next call before absent more last rest ih =>
    have := weight_fillOn call (k := bs.length + 1) (by simp)
    rw [rest] at ih; simp only at *; omega
  | case5 s b bs next call before absent e last rest ih =>
    have := weight_fillOn call (k := bs.length + 1) (by simp)
    rw [rest] at ih; simp only at *; omega

end Peekable
end WebArchive
