import WebArchive.Proofs.Record.Use
import WebArchive.Proofs.Stream.Strikes

/-!
Calls that fail and are made again. A record over a stream with failures is set beside the same
record over a stream that never fails: a call that succeeds gives the same on both, and one that
fails has come as far as the other one on its way (`Repeatable`). Main fact: `Repeatable.insist_eq`,
a caller who repeats what fails sees no difference.
-/
namespace WebArchive

variable {σ : Type}

/-- Makes a call, and again if it fails, up to `n` times. -/
def insist {ε α : Type} (call : σ → Outcome ε σ α) : Nat → σ → Outcome ε σ α
  | 0, s => call s
  | n + 1, s =>
    match call s with
    | (.ok a, s') => (.ok a, s')
    | (.error _, s') => insist call n s'

theorem insist_keeps {ε α : Type} {call : σ → Outcome ε σ α} {P : σ → Prop}
    (step : ∀ s, P s → P (call s).2) (n : Nat) {s : σ} (h : P s) : P (insist call n s).2 := by
  induction n generalizing s with
  | zero => exact step s h
  | succ n ih =>
    have kept := step s h
    unfold insist
    split <;> rename_i answer <;> rw [answer] at kept
    · exact kept
    · exact ih kept

/-! ### Streams beside a stream that never fails -/

/-- Beside a stream with at most `k` failures to come, another one gives the same answers and never
fails. -/
structure Readable.Mirrors [Readable σ] (R : Nat → σ → σ → Prop) : Prop where
  weaken : ∀ {j k s u}, j ≤ k → R j s u → R k s u
  answered : ∀ {k s u n bs s'}, R k s u → read s n = (.ok bs, s') →
    ∃ u', read u n = (.ok bs, u') ∧ R k s' u'
  failed : ∀ {k s u n e s'}, R k s u → read s n = (.error e, s') → ∃ j < k, R j s' u

namespace Readable.Mirrors
variable [Readable σ] {R : Nat → σ → σ → Prop} {k : Nat} {s u s' : σ} {n : Nat}

theorem readOn_ok (m : Mirrors R) {bs : Bytes} (h : R k s u) (call : readOn s n = (.ok bs, s')) :
    ∃ u', readOn u n = (.ok bs, u') ∧ R k s' u' := by
  fun_induction readOn s n generalizing k with
  | case1 s bs next answer =>
    cases call
    obtain ⟨u', same, beside⟩ := m.answered h answer
    refine ⟨u', ?_, beside⟩
    rw [readOn]
    split <;> rename_i call <;> cases same.symm.trans call
    rfl
  | case2 s e next answer again ih =>
    obtain ⟨j, fewer, beside⟩ := m.failed h answer
    exact ih (m.weaken (Nat.le_of_lt fewer) beside) call
  | case3 => simp at call

theorem readOn_error (m : Mirrors R) {e : StreamError} (h : R k s u)
    (call : readOn s n = (.error e, s')) : ∃ j < k, R j s' u := by
  fun_induction readOn s n generalizing k with
  | case1 => simp at call
  | case2 s e next answer again ih =>
    obtain ⟨j, fewer, beside⟩ := m.failed h answer
    exact ih (m.weaken (Nat.le_of_lt fewer) beside) call
  | case3 s e next answer final =>
    cases call
    exact m.failed h answer

end Readable.Mirrors

/-- A cursor that stands where another one does, in the same chunks, with no failures. -/
structure Cursor.Beside (k : Nat) (c u : Cursor) : Prop where
  position : c.position = u.position
  ahead : c.ahead = u.ahead
  few : c.strikes.length ≤ k
  calm : u.strikes = []

theorem Cursor.mirrors : Readable.Mirrors Cursor.Beside where
  weaken le h := ⟨h.position, h.ahead, Nat.le_trans h.few le, h.calm⟩
  answered := by
    intro k c u n bs c' h call
    rcases read_shown call with ⟨rfl, rfl, rfl⟩ | ⟨shown, next, some, filled, rfl, rfl⟩
    · exact ⟨u, rfl, h⟩
    rcases fills : fill u with ⟨e | shown', u'⟩
    · have struck := (fill_failed fills).2.2
      rw [h.calm] at struck
      cases struck
    · obtain rfl : shown' = shown := by rw [fill_head fills, fill_head filled, h.ahead]
      obtain ⟨place, ahead, strikes⟩ := consume_shown filled (List.length_take_le' n shown')
      obtain ⟨place', ahead', strikes'⟩ := consume_shown fills (List.length_take_le' n shown')
      refine ⟨_, read_of_fill some fills, ?_, ?_, ?_, ?_⟩
      · rw [place, place', h.position]
      · rw [ahead, ahead', h.ahead]
      · rw [strikes]
        exact h.few
      · rw [strikes', h.calm]
  failed := by
    intro k c u n e c' h call
    obtain ⟨place, ahead, struck⟩ := fill_failed (read_failed call)
    have few := h.few
    rw [struck, List.length_cons] at few
    exact ⟨c'.strikes.length, few, place.trans h.position, ahead.trans h.ahead, Nat.le_refl _,
      h.calm⟩

theorem Bounded.mirrors [Readable σ] {R : Nat → σ → σ → Prop} (m : Readable.Mirrors R) :
    Readable.Mirrors (σ := Bounded σ)
      fun k w v => R k w.inner v.inner ∧ v.remaining = w.remaining where
  weaken le h := ⟨m.weaken le h.1, h.2⟩
  answered := by
    rintro k w ⟨u, _⟩ n bs w' ⟨h, rfl⟩ call
    have call : w.read n = (.ok bs, w') := call
    unfold Bounded.read at call
    split at call
    · rename_i idle
      cases call
      refine ⟨_, ?_, h, rfl⟩
      show Bounded.read _ n = _
      rw [Bounded.read, if_pos idle]
    · rename_i busy
      split at call <;> simp only [Prod.mk.injEq, Except.ok.injEq, reduceCtorEq, false_and] at call
      rename_i inner answer
      obtain ⟨rfl, rfl⟩ := call
      obtain ⟨u', same, beside⟩ := m.answered h answer
      refine ⟨⟨u', w.remaining - _⟩, ?_, beside, rfl⟩
      show Bounded.read _ n = _
      simp only [Bounded.read, if_neg busy, same]
  failed := by
    rintro k w ⟨u, _⟩ n e w' ⟨h, rfl⟩ call
    have call : w.read n = (.error e, w') := call
    unfold Bounded.read at call
    split at call
    · simp at call
    · split at call <;>
        simp only [Prod.mk.injEq, Except.error.injEq, reduceCtorEq, false_and] at call
      rename_i inner answer
      obtain ⟨rfl, rfl⟩ := call
      obtain ⟨j, fewer, beside⟩ := m.failed h answer
      exact ⟨j, fewer, beside, rfl⟩

/-! ### Calls beside a stream that never fails -/

/-- A call that gives the same over a stream without failures. If it fails, it has come to where
that call passes by on its way. -/
structure Repeatable {τ α : Type} (source : τ → σ) (onto : τ → σ → τ) (R : Nat → σ → σ → Prop)
    (call : τ → Answer τ α) : Prop where
  answered : ∀ {k s u a s'}, R k (source s) u → call s = (.ok a, s') →
    ∃ u', call (onto s u) = (.ok a, onto s' u') ∧ R k (source s') u'
  failed : ∀ {k s u e s'}, R k (source s) u → call s = (.error e, s') →
    ∃ u', call (onto s u) = call (onto s' u') ∧ ∃ j < k, R j (source s') u'

namespace Repeatable
variable {τ α β : Type} {source : τ → σ} {onto : τ → σ → τ} {R : Nat → σ → σ → Prop}
  {call : τ → Answer τ α}

theorem map (h : Repeatable source onto R call) (f : α → β) :
    Repeatable source onto R fun s => (call s).map f where
  answered := by
    intro k s u b s' beside gave
    obtain ⟨a, answer, rfl⟩ := Outcome.map_eq_ok.mp gave
    obtain ⟨u', same, after⟩ := h.answered beside answer
    exact ⟨u', Outcome.map_eq_ok.mpr ⟨a, same, rfl⟩, after⟩
  failed := by
    intro k s u e s' beside gave
    rcases answer : call s with ⟨e' | a, s''⟩ <;> rw [answer] at gave <;> cases gave
    obtain ⟨u', same, fewer⟩ := h.failed beside answer
    exact ⟨u', congrArg (Outcome.map f) same, fewer⟩

/-- A caller who repeats what fails comes to what happens without failures. -/
theorem insist_eq [Readable σ] (h : Repeatable source onto R call) (m : Readable.Mirrors R)
    {k n : Nat} {s : τ} {u : σ} (beside : R k (source s) u) (enough : k ≤ n) :
    ∃ a s' u', insist call n s = (.ok a, s') ∧ call (onto s u) = (.ok a, onto s' u') ∧
      R k (source s') u' := by
  induction n generalizing k s u with
  | zero =>
    rcases answer : call s with ⟨e | a, s'⟩
    · obtain ⟨_, _, j, fewer, _⟩ := h.failed beside answer
      omega
    · obtain ⟨u', same, after⟩ := h.answered beside answer
      exact ⟨a, s', u', answer, same, after⟩
  | succ n ih =>
    rcases answer : call s with ⟨e | a, s'⟩
    · obtain ⟨u', same, j, fewer, after⟩ := h.failed beside answer
      obtain ⟨a, s'', u'', repeated, gave, after⟩ := ih after (by omega)
      refine ⟨a, s'', u'', ?_, same.trans gave, m.weaken (Nat.le_of_lt fewer) after⟩
      simp only [insist, answer, repeated]
    · obtain ⟨u', same, after⟩ := h.answered beside answer
      exact ⟨a, s', u', by simp only [insist, answer], same, after⟩

end Repeatable

/-! ### Contents and records -/

namespace Payload
variable [Readable σ] {R : Nat → σ → σ → Prop} {k n : Nat} {p p' : Payload σ} {u : σ}

/-- The same payload over another stream. -/
def onto (p : Payload σ) (u : σ) : Payload σ := { p with window := ⟨u, p.window.remaining⟩ }

omit [Readable σ] in
@[simp] theorem isClosed_onto (p : Payload σ) (u : σ) : (p.onto u).isClosed = p.isClosed := rfl

omit [Readable σ] in
theorem onto_finalize (p : Payload σ) (u : σ) : p.finalize.onto u = (p.onto u).finalize := by
  unfold finalize
  rw [isClosed_onto]
  split <;> rfl

theorem window_mirrored (m : Readable.Mirrors R) (h : R k p.source u) {bs : Bytes}
    {window : Bounded σ} (call : Readable.read p.window n = (.ok bs, window)) :
    ∃ u', Readable.read (p.onto u).window n = (.ok bs, ⟨u', window.remaining⟩) ∧
      R k window.inner u' := by
  obtain ⟨⟨u', _⟩, answer, beside, rfl⟩ := (Bounded.mirrors m).answered
    (u := (p.onto u).window) ⟨h, rfl⟩ call
  exact ⟨u', answer, beside⟩

theorem repeatable_read (m : Readable.Mirrors R) (n : Nat) :
    Repeatable source onto R fun p : Payload σ => p.read n where
  answered := by
    intro k p u bs p' h call
    unfold read at call ⊢
    rw [isClosed_onto]
    split at call
    · rename_i idle
      cases call
      exact ⟨u, if_pos idle, h⟩
    · rename_i busy
      simp only [if_neg busy]
      split at call <;> cases call
      · rename_i window answer
        obtain ⟨u', answer, beside⟩ := window_mirrored m h answer
        refine ⟨u', ?_, ?_⟩
        · rw [onto_finalize, answer]
          rfl
        · rwa [source, window_finalize]
      · rename_i b bs window answer
        obtain ⟨u', answer, beside⟩ := window_mirrored m h answer
        exact ⟨u', by rw [answer]; rfl, beside⟩
  failed := by
    intro k p u e p' h call
    unfold read at call
    split at call
    · cases call
    · split at call <;> cases call
      rename_i window answer
      obtain ⟨j, fewer, beside, same⟩ := (Bounded.mirrors m).failed
        (u := (p.onto u).window) ⟨h, rfl⟩ answer
      have same : p.window.remaining = window.remaining := same
      refine ⟨u, ?_, j, fewer, beside⟩
      rw [onto, onto, same]

theorem drain_taken {b : UInt8} {bs : Bytes} {window : Bounded σ}
    (call : Readable.readOn p.window 4096 = (.ok (b :: bs), window)) :
    p.drain = ({ p with window }.take (b :: bs)).drain := by
  rw [drain]
  split <;> rename_i answer <;> cases call.symm.trans answer
  rfl

theorem drain_end {window : Bounded σ}
    (call : Readable.readOn p.window 4096 = (.ok [], window)) :
    p.drain = (.ok (), { p with window }) := by
  rw [drain]
  split <;> rename_i answer <;> cases call.symm.trans answer
  rfl

theorem windowOn_mirrored (m : Readable.Mirrors R) (h : R k p.source u) {bs : Bytes}
    {window : Bounded σ} (call : Readable.readOn p.window n = (.ok bs, window)) :
    ∃ u', Readable.readOn (p.onto u).window n = (.ok bs, ⟨u', window.remaining⟩) ∧
      R k window.inner u' := by
  obtain ⟨⟨u', _⟩, answer, beside, rfl⟩ := (Bounded.mirrors m).readOn_ok
    (u := (p.onto u).window) ⟨h, rfl⟩ call
  exact ⟨u', answer, beside⟩

theorem isClosed_drain_error {e : StreamError} (call : p.drain = (.error e, p')) :
    p'.isClosed = p.isClosed := by
  fun_induction drain p with
  | case1 => cases call; rfl
  | case2 => cases call
  | case3 p b bs window answer ih => exact ih call

theorem repeatable_drain (m : Readable.Mirrors R) :
    Repeatable source onto R fun p : Payload σ => p.drain where
  answered := by
    intro k p u _ p' h call
    fun_induction drain p generalizing u with
    | case1 => cases call
    | case2 p window answer =>
      cases call
      obtain ⟨u', same, beside⟩ := windowOn_mirrored m h answer
      exact ⟨u', drain_end same, beside⟩
    | case3 p b bs window answer ih =>
      obtain ⟨u', same, beside⟩ := windowOn_mirrored m h answer
      obtain ⟨u'', drained, beside⟩ := ih beside call
      exact ⟨u'', (drain_taken same).trans drained, beside⟩
  failed := by
    intro k p u e p' h call
    fun_induction drain p generalizing u with
    | case1 p e window answer =>
      cases call
      obtain ⟨j, fewer, beside, same⟩ := (Bounded.mirrors m).readOn_error
        (u := (p.onto u).window) ⟨h, rfl⟩ answer
      have same : p.window.remaining = window.remaining := same
      refine ⟨u, ?_, j, fewer, beside⟩
      rw [onto, onto, same]
    | case2 => cases call
    | case3 p b bs window answer ih =>
      obtain ⟨u', same, beside⟩ := windowOn_mirrored m h answer
      obtain ⟨u'', drained, fewer⟩ := ih beside call
      exact ⟨u'', (drain_taken same).trans drained, fewer⟩

theorem repeatable_settle (m : Readable.Mirrors R) :
    Repeatable source onto R fun p : Payload σ => p.settle where
  answered := by
    intro k p u _ p' h call
    unfold settle at call ⊢
    rw [isClosed_onto]
    split at call
    · rename_i closed
      cases call
      exact ⟨u, if_pos closed, h⟩
    · rename_i opened
      simp only [if_neg opened]
      split at call <;> cases call
      rename_i left drained
      obtain ⟨u', drained, beside⟩ := (repeatable_drain m).answered h drained
      refine ⟨u', by rw [onto_finalize, drained], ?_⟩
      rwa [source, window_finalize]
  failed := by
    intro k p u e p' h call
    unfold settle at call
    split at call
    · cases call
    rename_i opened
    split at call <;> cases call
    rename_i drained
    obtain ⟨u', same, fewer⟩ := (repeatable_drain m).failed h drained
    have opened' : ¬ p'.isClosed = true := isClosed_drain_error drained ▸ opened
    refine ⟨u', ?_, fewer⟩
    rw [settle, settle, isClosed_onto, isClosed_onto, if_neg opened, if_neg opened', same]

omit [Readable σ] in
theorem isClosed_finalize (p : Payload σ) : p.finalize.isClosed = true := by
  unfold finalize
  split
  · assumption
  · rfl

theorem isClosed_settle (call : p.settle = (.ok (), p')) : p'.isClosed = true := by
  unfold settle at call
  split at call
  · rename_i closed
    cases call
    exact closed
  · split at call <;> cases call
    exact isClosed_finalize _

theorem repeatable_close (m : Readable.Mirrors R) :
    Repeatable source onto R fun p : Payload σ => p.close where
  answered := by
    intro k p u summary p' h call
    obtain ⟨_, next, settled, summed⟩ := Outcome.andThen_eq_ok.mp call
    obtain ⟨u', settled, beside⟩ := (repeatable_settle m).answered h settled
    split at summed <;> cases summed
    rename_i known
    have kept : (p'.onto u').summary = some summary := known
    exact ⟨u', Outcome.andThen_eq_ok.mpr ⟨(), _, settled, by rw [kept]⟩, beside⟩
  failed := by
    intro k p u e p' h call
    rcases settled : p.settle with ⟨e' | _, next⟩ <;> rw [close, settled] at call
    · cases call
      obtain ⟨u', same, fewer⟩ := (repeatable_settle m).failed h settled
      exact ⟨u', by rw [close, close, same], fewer⟩
    · obtain ⟨summary, known⟩ := Option.isSome_iff_exists.mp (isClosed_settle settled)
      simp [Outcome.andThen, known] at call

end Payload

namespace ContentRecord
variable [Readable σ] {R : Nat → σ → σ → Prop} {r : ContentRecord σ}

/-- The same record over another stream. -/
def onto (r : ContentRecord σ) (u : σ) : ContentRecord σ :=
  { r with
    content :=
      match r.content with
      | .inl _ => .inl u
      | .inr p => .inr (p.onto u) }

omit [Readable σ] in
theorem onto_inr {p : Payload σ} (same : r.content = .inr p) (u : σ) :
    (r.onto u).content = .inr (p.onto u) := by
  simp only [onto, same]

omit [Readable σ] in
theorem stream_inr {p : Payload σ} (same : r.content = .inr p) : r.stream = p.source := by
  simp only [ContentRecord.stream, same]

theorem repeatable_close (m : Readable.Mirrors R) :
    Repeatable stream onto R fun r : ContentRecord σ => r.close where
  answered := by
    intro k r u _ r' h call
    have same : (r.onto u).isClosed = r.isClosed := rfl
    unfold close at call
    split at call
    · rename_i closed
      cases call
      exact ⟨u, close_closed (same.trans closed), h⟩
    rename_i opened
    simp only [close, same, if_neg opened]
    cases content : r.content with
    | inl stream =>
      simp only [content] at call
      cases call
      refine ⟨u, by simp only [onto, content], ?_⟩
      simpa only [ContentRecord.stream, content] using h
    | inr p =>
      rw [stream_inr content] at h
      simp only [content] at call
      split at call <;> cases call
      rename_i summary p' closed
      obtain ⟨u', closed, beside⟩ := (Payload.repeatable_close m).answered h closed
      refine ⟨u', ?_, beside⟩
      simp only [onto_inr content, closed]
      rfl
  failed := by
    intro k r u e r' h call
    unfold close at call
    split at call
    · cases call
    rename_i opened
    cases content : r.content with
    | inl stream =>
      simp only [content] at call
      cases call
    | inr p =>
      rw [stream_inr content] at h
      simp only [content] at call
      split at call <;> cases call
      rename_i p' failed
      obtain ⟨u', same, fewer⟩ := (Payload.repeatable_close m).failed h failed
      refine ⟨u', ?_, fewer⟩
      have before : (r.onto u).isClosed = r.isClosed := rfl
      have after : ((r.withPayload p').onto u').isClosed = r.isClosed := rfl
      simp only [close, before, after, if_neg opened, onto_inr content,
        onto_inr (r := r.withPayload p') rfl, same]
      rfl

/-- A call on the payload of a record, which does nothing where there is none. -/
def onPayload (call : Payload σ → Answer (Payload σ) Bytes) (r : ContentRecord σ) :
    Answer (ContentRecord σ) Bytes :=
  match r.content with
  | .inl _ => (.ok [], r)
  | .inr p => (call p).within r.withPayload

omit [Readable σ] in
theorem repeatable_onPayload {call : Payload σ → Answer (Payload σ) Bytes}
    (h : Repeatable Payload.source Payload.onto R call) :
    Repeatable stream onto R (onPayload call) where
  answered := by
    intro k r u bs r' beside gave
    cases content : r.content with
    | inl stream =>
      simp only [onPayload, content] at gave
      cases gave
      exact ⟨u, by simp only [onPayload, onto, content], beside⟩
    | inr p =>
      rw [stream_inr content] at beside
      simp only [onPayload, content] at gave
      rcases answer : call p with ⟨e | bs', p'⟩ <;> rw [answer] at gave <;> cases gave
      obtain ⟨u', answer, after⟩ := h.answered beside answer
      refine ⟨u', ?_, after⟩
      simp only [onPayload, onto_inr content, answer]
      rfl
  failed := by
    intro k r u e r' beside gave
    cases content : r.content with
    | inl stream =>
      simp only [onPayload, content] at gave
      cases gave
    | inr p =>
      rw [stream_inr content] at beside
      simp only [onPayload, content] at gave
      rcases answer : call p with ⟨e | bs, p'⟩ <;> rw [answer] at gave <;> cases gave
      obtain ⟨u', same, fewer⟩ := h.failed beside answer
      refine ⟨u', ?_, fewer⟩
      simp only [onPayload, onto_inr content, onto_inr (r := r.withPayload p') rfl, same]
      rfl

theorem perform_read (n : Nat) :
    (·.perform (.read n)) = onPayload (σ := σ) (·.read n) := by
  funext r
  cases content : r.content <;> simp only [perform, onPayload, content]

theorem perform_closeContent :
    (·.perform .closeContent) = onPayload (σ := σ) fun p => p.close.map fun _ => [] := by
  funext r
  cases content : r.content <;> simp only [perform, onPayload, content]

theorem repeatable_perform (m : Readable.Mirrors R) (action : Action) :
    Repeatable stream onto R fun r : ContentRecord σ => r.perform action := by
  cases action with
  | read n =>
    rw [perform_read]
    exact repeatable_onPayload (Payload.repeatable_read m n)
  | closeContent =>
    rw [perform_closeContent]
    exact repeatable_onPayload ((Payload.repeatable_close m).map _)
  | close => exact (repeatable_close m).map _

variable {I : σ → Bytes → Prop} {E : StreamError → Prop} {options : ReaderOptions}
  {heading : Heading} {data : Bytes}

omit [Readable σ] in
theorem Taking.onPayload (h : Taking I options heading data r)
    {call : Payload σ → Answer (Payload σ) Bytes}
    (kept : ∀ {p length block entity taken rest},
      p.Accounted I data length block entity taken rest →
      ∃ taken rest, (call p).2.Accounted I data length block entity taken rest) :
    Taking I options heading data (r.onPayload call).2 := by
  obtain ⟨s, content, held⟩ | ⟨p, length, taken, rest, content, known, accounts⟩ := h
  · simp only [ContentRecord.onPayload, content]
    exact Or.inl ⟨s, content, held⟩
  · obtain ⟨taken, rest, after⟩ := kept accounts
    simp only [ContentRecord.onPayload, content]
    exact Or.inr ⟨_, length, taken, rest, rfl, known, after⟩

theorem accounted_close (t : Readable.Tracks I E) {p : Payload σ} {length : Nat}
    {block entity : Option Digest.Algorithm} {taken rest : Bytes}
    (h : p.Accounted I data length block entity taken rest) :
    ∃ taken rest, p.close.2.Accounted I data length block entity taken rest := by
  rcases answer : p.close with ⟨e | summary, p'⟩
  · obtain ⟨_, _, _, piece, left, _, after⟩ := h.close_error t answer
    exact ⟨_, left, after⟩
  · obtain ⟨_, _, after, _⟩ := h.close_ok t answer
    exact ⟨_, [], after⟩

theorem Taking.close (t : Readable.Tracks I E) (h : Taking I options heading data r) :
    Taking I options heading data r.close.2 := by
  unfold ContentRecord.close
  split
  · exact h
  split
  · exact h
  rename_i p content
  obtain ⟨s, stream, _⟩ | ⟨p, length, taken, rest, payload, known, accounts⟩ := h
  · simp [stream] at content
  obtain rfl := Sum.inr.inj (payload.symm.trans content)
  obtain ⟨taken, rest, after⟩ := accounted_close t accounts
  split <;> rename_i answer <;> rw [answer] at after
  · exact Or.inr ⟨_, length, taken, rest, rfl, known, after⟩
  · exact Or.inr ⟨_, length, taken, rest, rfl, known, after⟩

/-- No call, failed or not, takes a record out of its content. -/
theorem Taking.perform (t : Readable.Tracks I E) (h : Taking I options heading data r)
    (action : Action) : Taking I options heading data (r.perform action).2 := by
  cases action with
  | read n =>
    rw [show r.perform (.read n) = r.onPayload (·.read n) from congrFun (perform_read n) r]
    refine h.onPayload fun {p _ _ _ taken rest} accounts => ?_
    rcases answer : p.read n with ⟨e | bs, p'⟩
    · obtain ⟨_, after, _⟩ := accounts.read_error t answer
      exact ⟨taken, rest, after⟩
    · obtain ⟨left, _, after, _⟩ := accounts.read_ok t answer
      exact ⟨_, left, after⟩
  | closeContent =>
    rw [show r.perform .closeContent = _ from congrFun perform_closeContent r]
    exact h.onPayload fun accounts => accounted_close t accounts
  | close => exact h.close t

end ContentRecord
end WebArchive
