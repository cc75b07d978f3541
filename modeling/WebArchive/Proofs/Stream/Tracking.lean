import WebArchive.Stream.Readable

/-!
What a stream still holds. A relation between a stream and the bytes to come is tracked if every
call takes what it answers off the front of them and a failing call takes nothing. Only the errors
that are allowed for come up, so the loops over a stream that can only be interrupted never fail.
-/
namespace WebArchive

variable {σ : Type}

/-- Every error that may come up is an interruption. -/
def Quiet (E : StreamError → Prop) : Prop := ∀ e, E e → e.isInterrupted

def noError : StreamError → Prop := fun _ => False

theorem quiet_noError : Quiet noError := fun _ h => h.elim

theorem quiet_interrupted : Quiet (·.isInterrupted) := fun _ h => h

structure Readable.Tracks [Readable σ] (I : σ → Bytes → Prop) (E : StreamError → Prop) :
    Prop where
  taken : ∀ {s d n bs s'}, I s d → read s n = (.ok bs, s') → ∃ rest, d = bs ++ rest ∧ I s' rest
  ended : ∀ {s d n s'}, I s d → 0 < n → read s n = (.ok [], s') → d = []
  failed : ∀ {s d n e s'}, I s d → read s n = (.error e, s') → E e ∧ I s' d

structure Peekable.Tracks [Peekable σ] (I : σ → Bytes → Prop) (E : StreamError → Prop) : Prop
    extends Readable.Tracks I E where
  shown : ∀ {s d bs s'}, I s d → fill s = (.ok bs, s') →
    bs <+: d ∧ (bs = [] → d = []) ∧ I s' d ∧ ∀ k ≤ bs.length, I (consume s' k) (d.drop k)
  unseen : ∀ {s d e s'}, I s d → fill s = (.error e, s') → E e ∧ I s' d

namespace Readable
variable [Readable σ] {I : σ → Bytes → Prop} {E : StreamError → Prop}

theorem length_readOn {s s' : σ} {n : Nat} {bs : Bytes} (h : readOn s n = (.ok bs, s')) :
    bs.length ≤ n := by
  fun_induction readOn s n with
  | case1 s bs next call =>
    simp only [Prod.mk.injEq, Except.ok.injEq] at h
    rw [← h.1]
    exact length_read call
  | case2 s e next call again ih => exact ih h
  | case3 => simp at h

namespace Tracks

theorem readOn_ok (t : Tracks I E) {s s' : σ} {d bs : Bytes} {n : Nat} (h : I s d)
    (call : readOn s n = (.ok bs, s')) :
    ∃ rest, d = bs ++ rest ∧ I s' rest ∧ (0 < n → bs = [] → d = []) := by
  fun_induction readOn s n with
  | case1 s bs next answer =>
    simp only [Prod.mk.injEq, Except.ok.injEq] at call
    obtain ⟨rfl, rfl⟩ := call
    obtain ⟨rest, same, left⟩ := t.taken h answer
    exact ⟨rest, same, left, fun some none => t.ended h some (none ▸ answer)⟩
  | case2 s e next answer again ih => exact ih (t.failed h answer).2 call
  | case3 => simp at call

theorem readOn_error (t : Tracks I E) {s s' : σ} {d : Bytes} {n : Nat} {e : StreamError}
    (h : I s d) (call : readOn s n = (.error e, s')) : E e ∧ ¬ e.isInterrupted ∧ I s' d := by
  fun_induction readOn s n with
  | case1 => simp at call
  | case2 s e next answer again ih => exact ih (t.failed h answer).2 call
  | case3 s e next answer final =>
    simp only [Prod.mk.injEq, Except.error.injEq] at call
    obtain ⟨rfl, rfl⟩ := call
    exact ⟨(t.failed h answer).1, final, (t.failed h answer).2⟩

theorem not_readOn_error (t : Tracks I E) (quiet : Quiet E) {s s' : σ} {d : Bytes} {n : Nat}
    {e : StreamError} (h : I s d) : readOn s n ≠ (.error e, s') := by
  intro call
  obtain ⟨possible, final, _⟩ := t.readOn_error h call
  exact final (quiet e possible)

/-- Reading until the stream ends or all has come gives the front of what it holds. -/
theorem readFull_eq (t : Tracks I E) (quiet : Quiet E) {s : σ} {d : Bytes} {n : Nat}
    (h : I s d) : ∃ s', readFull s n = (.ok (d.take n), s') ∧ I s' (d.drop n) := by
  fun_induction readFull s n generalizing d with
  | case1 s n e next call => exact absurd call (t.not_readOn_error quiet h)
  | case2 s n next call =>
    obtain ⟨rest, rfl, left, none⟩ := t.readOn_ok h call
    cases n with
    | zero => exact ⟨next, rfl, left⟩
    | succ n =>
      obtain rfl := none (Nat.succ_pos n) rfl
      exact ⟨next, rfl, by simpa using left⟩
  | case3 s n b bs next call full =>
    obtain ⟨rest, rfl, left, _⟩ := t.readOn_ok h call
    have most := length_readOn call
    have whole : n = (b :: bs).length := by simp only [List.length_cons] at *; omega
    subst whole
    exact ⟨next, by rw [List.take_left], by rwa [List.drop_left]⟩
  | case4 s n b bs next call short more last answer ih =>
    -- the first call gave the bytes up to `bs`, the calls after it the rest of the `n`
    obtain ⟨rest, rfl, left, _⟩ := t.readOn_ok h call
    obtain ⟨s', gave, held⟩ := ih left
    obtain ⟨rfl, rfl⟩ := Outcome.ok_inj answer gave
    have split : n = (b :: bs).length + (n - (bs.length + 1)) := by
      simp only [List.length_cons]; omega
    refine ⟨last, ?_, ?_⟩
    · rw [split, List.take_length_add_append, ← split]
    · rw [split, List.drop_length_add_append]
      exact held
  | case5 s n b bs next call short e last answer ih =>
    obtain ⟨rest, rfl, left, _⟩ := t.readOn_ok h call
    obtain ⟨s', gave, _⟩ := ih left
    exact absurd answer (Outcome.ne_error gave)

theorem readExact_eq (t : Tracks I E) (quiet : Quiet E) {s : σ} {d : Bytes} {n : Nat} (h : I s d)
    (enough : n ≤ d.length) :
    ∃ s', readExact s n = (.ok (d.take n), s') ∧ I s' (d.drop n) := by
  obtain ⟨s', full, left⟩ := t.readFull_eq quiet h (n := n)
  refine ⟨s', ?_, left⟩
  simp only [readExact, full]
  rw [if_neg]
  simp only [List.length_take]
  omega

theorem readOn_last (t : Tracks I E) {s s' : σ} {d bs : Bytes} {n : Nat} (h : I s d)
    (call : readOn s n = (.ok bs, s')) : ∃ last, I last d ∧ read last n = (.ok bs, s') := by
  fun_induction readOn s n with
  | case1 s bs next answer =>
    simp only [Prod.mk.injEq, Except.ok.injEq] at call
    obtain ⟨rfl, rfl⟩ := call
    exact ⟨s, h, answer⟩
  | case2 s e next answer again ih => exact ih (t.failed h answer).2 call
  | case3 => simp at call

theorem pass_eq (t : Tracks I E) (quiet : Quiet E) {s : σ} {d : Bytes} {n : Nat} (h : I s d)
    (some : 0 < n) :
    ∃ last s', pass s n = (.ok (), s') ∧ I last [] ∧ read last n = (.ok [], s') := by
  fun_induction pass s n generalizing d with
  | case1 s e next call => exact absurd call (t.not_readOn_error quiet h)
  | case2 s next call =>
    obtain ⟨last, held, answer⟩ := t.readOn_last h call
    obtain rfl := t.ended held some answer
    exact ⟨last, next, rfl, held, answer⟩
  | case3 s b bs next call ih =>
    obtain ⟨rest, _, left, _⟩ := t.readOn_ok h call
    exact ih left

end Tracks

/-! ### Reading to the end -/

/-- There is always room for another byte, so no call asks for nothing. -/
def Demand.IsOpen (d : Demand) : Prop := d.held ≤ d.capacity ∧ 0 < d.limit

theorem Demand.isOpen_start : Demand.IsOpen {} := ⟨Nat.le_refl 0, by decide⟩

theorem Demand.request_pos {d : Demand} (h : d.IsOpen) : 0 < d.request := by
  obtain ⟨room, some⟩ := h
  unfold request grown
  split <;> omega

theorem Demand.isOpen_received {d : Demand} {n : Nat} (h : d.IsOpen) (few : n ≤ d.request) :
    (d.received n).IsOpen := by
  obtain ⟨room, some⟩ := h
  have least : d.held ≤ d.grown := by
    unfold grown
    split <;> omega
  have bound : n ≤ d.grown - d.held := Nat.le_trans few (Nat.min_le_left ..)
  unfold received
  split
  · exact ⟨Nat.le_max_right .., some⟩
  · refine ⟨?_, ?_⟩
    · show d.held + n ≤ d.grown
      omega
    · show 0 < if d.limit ≤ d.request ∧ n = d.request then 2 * d.limit else d.limit
      split <;> omega

theorem Tracks.readAll_eq (t : Tracks I E) (quiet : Quiet E) {s : σ} {d : Bytes} {demand : Demand}
    (h : I s d) (room : demand.IsOpen) :
    ∃ s', readAll s demand = (.ok d, s') ∧ I s' [] := by
  fun_induction readAll s demand generalizing d with
  | case1 s demand e next call => exact absurd call (t.not_readOn_error quiet h)
  | case2 s demand next call =>
    obtain ⟨rest, same, left, none⟩ := t.readOn_ok h call
    obtain rfl := none (Demand.request_pos room) rfl
    cases rest with
    | nil => exact ⟨next, rfl, left⟩
    | cons => simp at same
  | case3 s demand b bs next call more last answer ih =>
    obtain ⟨rest, rfl, left, _⟩ := t.readOn_ok h call
    obtain ⟨s', gave, after⟩ := ih left (Demand.isOpen_received room (length_readOn call))
    obtain ⟨rfl, rfl⟩ := Outcome.ok_inj answer gave
    exact ⟨last, rfl, after⟩
  | case4 s demand b bs next call e last answer ih =>
    obtain ⟨rest, rfl, left, _⟩ := t.readOn_ok h call
    obtain ⟨s', gave, _⟩ := ih left (Demand.isOpen_received room (length_readOn call))
    exact absurd answer (Outcome.ne_error gave)

end Readable

/-! ### Bytes in sight -/

theorem takeWhile_of_found {p : UInt8 → Bool} {front rest : Bytes}
    (found : (front.takeWhile p).length < front.length) :
    (front ++ rest).takeWhile p = front.takeWhile p := by
  rw [List.takeWhile_append, if_neg (Nat.ne_of_lt found)]

theorem takeWhile_of_absent {p : UInt8 → Bool} {front : Bytes} (rest : Bytes)
    (absent : ¬ (front.takeWhile p).length < front.length) :
    front.takeWhile p = front ∧ (front ++ rest).takeWhile p = front ++ rest.takeWhile p := by
  have whole : (front.takeWhile p).length = front.length :=
    Nat.le_antisymm (List.takeWhile_prefix p).length_le (Nat.not_lt.mp absent)
  refine ⟨(List.takeWhile_prefix p).eq_of_length whole, ?_⟩
  rw [List.takeWhile_append, if_pos whole]

theorem not_mem_takeWhile (stop : UInt8) (d : Bytes) : stop ∉ d.takeWhile (· ≠ stop) := by
  intro inside
  simpa using List.all_eq_true.mp (List.all_takeWhile (p := (· ≠ stop)) (l := d)) _ inside

/-- What comes before the first `stop` ends there. -/
theorem takeWhile_stopped {stop : UInt8} {d : Bytes} (clean : stop ∉ d) :
    (d ++ [stop]).takeWhile (· ≠ stop) = d ∧
      ((d ++ [stop]).takeWhile (· ≠ stop)).length < (d ++ [stop]).length := by
  have whole : (d ++ [stop]).takeWhile (· ≠ stop) = d := by
    have inside : ∀ b ∈ d, decide (b ≠ stop) = true := by
      intro b member
      simpa using fun same : b = stop => clean (same ▸ member)
    rw [List.takeWhile_append_of_pos inside]
    simp
  refine ⟨whole, ?_⟩
  rw [whole, List.length_append]
  exact Nat.lt_succ_self _

theorem drop_length_takeWhile (p : UInt8 → Bool) (d : Bytes) :
    d.drop (d.takeWhile p).length = d.dropWhile p :=
  calc
    d.drop (d.takeWhile p).length
      = (d.takeWhile p ++ d.dropWhile p).drop (d.takeWhile p).length := by
        rw [List.takeWhile_append_dropWhile]
    _ = d.dropWhile p := List.drop_left

theorem drop_length_take (n : Nat) (d : Bytes) : d.drop (d.take n).length = d.drop n := by
  rw [List.length_take]
  by_cases inside : n ≤ d.length
  · rw [Nat.min_eq_left inside]
  · rw [Nat.min_eq_right (by omega), List.drop_length, List.drop_eq_nil_of_le (by omega)]

theorem take_through {stop : UInt8} {front : Bytes} (rest : Bytes)
    (found : (front.takeWhile (· ≠ stop)).length < front.length) :
    (front ++ rest).take ((front.takeWhile (· ≠ stop)).length + 1) =
      front.takeWhile (· ≠ stop) ++ [stop] := by
  induction front with
  | nil => simp at found
  | cons b bs ih =>
    by_cases same : b = stop
    · simp [same]
    · simp only [List.takeWhile_cons, ne_eq, same, not_false_eq_true, decide_true, if_true,
        List.length_cons, Nat.add_lt_add_iff_right] at found ⊢
      rw [List.cons_append, List.take_succ_cons, ih found, List.cons_append]

namespace Peekable
variable [Peekable σ] {I : σ → Bytes → Prop} {E : StreamError → Prop}

/-- Behind `front` the bytes could not be seen, and the call that looked for them failed. -/
def Breaks (I : σ → Bytes → Prop) (d front : Bytes) (e : StreamError) (s' : σ) : Prop :=
  ∃ last rest, d = front ++ rest ∧ I last rest ∧ fillOn last = (.error e, s')

theorem Breaks.behind {d front : Bytes} {e : StreamError} {s' : σ} (taken : Bytes)
    (h : Breaks I d front e s') : Breaks I (taken ++ d) (taken ++ front) e s' := by
  obtain ⟨last, rest, rfl, held, call⟩ := h
  exact ⟨last, rest, (List.append_assoc ..).symm, held, call⟩

theorem breaks_here {s s' : σ} {d : Bytes} {e : StreamError} (h : I s d)
    (call : fillOn s = (.error e, s')) : Breaks I d [] e s' := ⟨s, d, rfl, h, call⟩

namespace Tracks

theorem fillOn_ok (t : Tracks I E) {s s' : σ} {d bs : Bytes} (h : I s d)
    (call : fillOn s = (.ok bs, s')) :
    bs <+: d ∧ (bs = [] → d = []) ∧ I s' d ∧ ∀ k ≤ bs.length, I (consume s' k) (d.drop k) := by
  fun_induction fillOn s with
  | case1 s bs next answer =>
    simp only [Prod.mk.injEq, Except.ok.injEq] at call
    obtain ⟨rfl, rfl⟩ := call
    exact t.shown h answer
  | case2 s e next answer again ih => exact ih (t.unseen h answer).2 call
  | case3 => simp at call

theorem fillOn_error (t : Tracks I E) {s s' : σ} {d : Bytes} {e : StreamError} (h : I s d)
    (call : fillOn s = (.error e, s')) : E e ∧ ¬ e.isInterrupted ∧ I s' d := by
  fun_induction fillOn s with
  | case1 => simp at call
  | case2 s e next answer again ih => exact ih (t.unseen h answer).2 call
  | case3 s e next answer final =>
    simp only [Prod.mk.injEq, Except.error.injEq] at call
    obtain ⟨rfl, rfl⟩ := call
    exact ⟨(t.unseen h answer).1, final, (t.unseen h answer).2⟩

theorem not_fillOn_error (t : Tracks I E) (quiet : Quiet E) {s s' : σ} {d : Bytes}
    {e : StreamError} (h : I s d) : fillOn s ≠ (.error e, s') := by
  intro call
  obtain ⟨possible, final, _⟩ := t.fillOn_error h call
  exact final (quiet e possible)

theorem breaks_error (t : Tracks I E) {d front : Bytes} {e : StreamError} {s' : σ}
    (h : Breaks I d front e s') : E e ∧ ¬ e.isInterrupted ∧ I s' (d.drop front.length) := by
  obtain ⟨last, rest, rfl, held, call⟩ := h
  rw [List.drop_left]
  exact t.fillOn_error held call

theorem not_breaks (t : Tracks I E) (quiet : Quiet E) {d front : Bytes} {e : StreamError}
    {s' : σ} : ¬ Breaks I d front e s' := by
  rintro ⟨last, rest, _, held, call⟩
  exact t.not_fillOn_error quiet held call

theorem readThrough_eq (t : Tracks I E) (quiet : Quiet E) {s : σ} {d : Bytes} (stop : UInt8)
    (h : I s d) :
    ∃ s', readThrough stop s = (.ok (d.take ((d.takeWhile (· ≠ stop)).length + 1)), s') ∧
      I s' (d.drop ((d.takeWhile (· ≠ stop)).length + 1)) := by
  fun_induction readThrough stop s generalizing d with
  | case1 s e next call => exact absurd call (t.not_fillOn_error quiet h)
  | case2 s next call =>
    obtain ⟨_, none, left, _⟩ := t.fillOn_ok h call
    obtain rfl := none rfl
    exact ⟨next, rfl, left⟩
  | case3 s b bs next call before =>
    rename_i found
    obtain ⟨⟨rest, rfl⟩, _, _, after⟩ := t.fillOn_ok h call
    refine ⟨consume next (before.length + 1), ?_, ?_⟩
    · rw [takeWhile_of_found found, take_through rest found]
    · rw [takeWhile_of_found found]
      exact after _ (by simp only [List.length_cons]; omega)
  | case4 s b bs next call before absent more last answer =>
    rename_i ih
    obtain ⟨⟨rest, rfl⟩, _, _, after⟩ := t.fillOn_ok h call
    have left : I (consume next (bs.length + 1)) rest := by
      simpa using after (bs.length + 1) (by simp)
    obtain ⟨s', gave, held⟩ := ih left
    obtain ⟨rfl, rfl⟩ := Outcome.ok_inj answer gave
    obtain ⟨_, whole⟩ := takeWhile_of_absent rest absent
    refine ⟨last, ?_, ?_⟩
    · rw [whole, List.length_append, Nat.add_assoc, List.take_length_add_append]
    · rw [whole, List.length_append, Nat.add_assoc, List.drop_length_add_append]
      exact held
  | case5 s b bs next call before absent e last answer =>
    rename_i ih
    obtain ⟨⟨rest, rfl⟩, _, _, after⟩ := t.fillOn_ok h call
    have left : I (consume next (bs.length + 1)) rest := by
      simpa using after (bs.length + 1) (by simp)
    obtain ⟨s', gave, _⟩ := ih left
    exact absurd answer (Outcome.ne_error gave)

end Tracks
end Peekable
end WebArchive
