import WebArchive.Archive.Dialect
import WebArchive.Proofs.Archive.Visits
import WebArchive.Stream.Buffered
import WebArchive.Stream.Chained

/-!
What reading leaves as it was. A property of a stream that no single call changes is kept by every
loop of calls, by the streams put on top of it, and by a record whose content is read from it,
whether the calls succeed or not.
-/
namespace WebArchive

variable {σ : Type}

theorem Outcome.andThen_keeps {ε α β : Type} {P : σ → Prop} {o : Outcome ε σ α}
    {next : α → σ → Outcome ε σ β} (first : P o.2) (after : ∀ a s, P s → P (next a s).2) :
    P (o.andThen next).2 := by
  rcases o with ⟨_ | a, s⟩
  · exact first
  · exact after a s first

structure Readable.Keeps [Readable σ] (P : σ → Prop) : Prop where
  read : ∀ {s} n, P s → P (read s n).2

structure Peekable.Keeps [Peekable σ] (P : σ → Prop) : Prop extends Readable.Keeps P where
  fill : ∀ {s}, P s → P (fill s).2
  consume : ∀ {s} k, P s → P (consume s k)

namespace Readable.Keeps
variable [Readable σ] {P : σ → Prop}

theorem read_of (k : Keeps P) {s s' : σ} {n : Nat} {answer : Except StreamError Bytes} (h : P s)
    (call : Readable.read s n = (answer, s')) : P s' := by
  have kept := k.read n h
  rwa [call] at kept

theorem readOn (k : Keeps P) {s : σ} {n : Nat} (h : P s) : P (Readable.readOn s n).2 := by
  fun_induction Readable.readOn s n with
  | case1 s bs next call => exact k.read_of h call
  | case2 s e next call again ih => exact ih (k.read_of h call)
  | case3 s e next call final => exact k.read_of h call

theorem readOn_of (k : Keeps P) {s s' : σ} {n : Nat} {answer : Except StreamError Bytes} (h : P s)
    (call : Readable.readOn s n = (answer, s')) : P s' := by
  have kept := k.readOn (n := n) h
  rwa [call] at kept

theorem pass (k : Keeps P) {s : σ} {n : Nat} (h : P s) : P (Readable.pass s n).2 := by
  fun_induction Readable.pass s n with
  | case1 s e next call => exact k.readOn_of h call
  | case2 s next call => exact k.readOn_of h call
  | case3 s b bs next call ih => exact ih (k.readOn_of h call)

theorem readOn_ok (k : Keeps P) {s s' : σ} {n : Nat} {bs : Bytes} (h : P s)
    (call : Readable.readOn s n = (.ok bs, s')) :
    ∃ last, P last ∧ Readable.read last n = (.ok bs, s') := by
  fun_induction Readable.readOn s n with
  | case1 s bs next answer =>
    simp only [Prod.mk.injEq, Except.ok.injEq] at call
    obtain ⟨rfl, rfl⟩ := call
    exact ⟨s, h, answer⟩
  | case2 s e next answer again ih => exact ih (k.read_of h answer) call
  | case3 => simp at call

/-- Passing over a stream succeeds with a call that gives nothing. -/
theorem pass_ok (k : Keeps P) {s s' : σ} {n : Nat} (h : P s)
    (call : Readable.pass s n = (.ok (), s')) :
    ∃ last, P last ∧ Readable.read last n = (.ok [], s') := by
  fun_induction Readable.pass s n with
  | case1 => simp at call
  | case2 s next answer =>
    simp only [Prod.mk.injEq, true_and] at call
    exact k.readOn_ok h (call ▸ answer)
  | case3 s b bs next answer ih => exact ih (k.readOn_of h answer) call

theorem readAll (k : Keeps P) {s : σ} {demand : Demand} (h : P s) :
    P (Readable.readAll s demand).2 := by
  fun_induction Readable.readAll s demand with
  | case1 s demand e next call => exact k.readOn_of h call
  | case2 s demand next call => exact k.readOn_of h call
  | case3 s demand b bs next call more last answer ih =>
    have kept := ih (k.readOn_of h call)
    rwa [answer] at kept
  | case4 s demand b bs next call e last answer ih =>
    have kept := ih (k.readOn_of h call)
    rwa [answer] at kept

end Readable.Keeps

/-! ### Lines and headings -/

namespace Peekable.Keeps
variable [Peekable σ] {P : σ → Prop}

theorem fill_of (k : Keeps P) {s s' : σ} {answer : Except StreamError Bytes} (h : P s)
    (call : Peekable.fill s = (answer, s')) : P s' := by
  have kept := k.fill h
  rwa [call] at kept

theorem fillOn (k : Keeps P) {s : σ} (h : P s) : P (Peekable.fillOn s).2 := by
  fun_induction Peekable.fillOn s with
  | case1 s bs next call => exact k.fill_of h call
  | case2 s e next call again ih => exact ih (k.fill_of h call)
  | case3 s e next call final => exact k.fill_of h call

theorem fillOn_of (k : Keeps P) {s s' : σ} {answer : Except StreamError Bytes} (h : P s)
    (call : Peekable.fillOn s = (answer, s')) : P s' := by
  have kept := k.fillOn h
  rwa [call] at kept

theorem readRest (k : Keeps P) {most : Nat} {kept : Option Line.Kept} {s : σ} (h : P s) :
    P (Line.readRest most kept s).2 := by
  fun_induction Line.readRest most kept s with
  | case1 kept s e next call => exact k.fillOn_of h call
  | case2 kept s next call => exact k.fillOn_of h call
  | case3 kept s b bs next call content more found => exact k.consume _ (k.fillOn_of h call)
  | case4 kept s b bs next call content more absent ih =>
    exact ih (k.consume _ (k.fillOn_of h call))

theorem readLine (k : Keeps P) {most : Nat} {s : σ} (h : P s) : P (Line.read most s).2 :=
  k.readRest h

theorem skipBlank (k : Keeps P) {s : σ} (h : P s) : P (Line.skipBlank s).2 := by
  fun_induction Line.skipBlank s with
  | case1 s e next call => exact k.fillOn_of h call
  | case2 s next call => exact k.fillOn_of h call
  | case3 s b bs next call blank found => exact k.consume _ (k.fillOn_of h call)
  | case4 s b bs next call blank absent more last answer ih =>
    have kept := ih (k.consume _ (k.fillOn_of h call))
    rwa [answer] at kept
  | case5 s b bs next call blank absent e last answer ih =>
    have kept := ih (k.consume _ (k.fillOn_of h call))
    rwa [answer] at kept

theorem readLines (k : Keeps P) {most : Nat} {taken : List Line} {s : σ} (h : P s) :
    P (Warc.HeaderBlock.readLines most taken s).2 := by
  have line {s s' : σ} {answer : Except StreamError (Option Line)} (h : P s)
      (call : Line.read most s = (answer, s')) : P s' := by
    have kept : P (Line.read most s).2 := k.readLine h
    rwa [call] at kept
  fun_induction Warc.HeaderBlock.readLines most taken s with
  | case1 taken s e next call => exact line h call
  | case2 taken s next call => exact line h call
  | case3 taken s version next call empty => exact line h call
  | case4 taken s version next call full ih => exact ih (line h call)

theorem readBlock (k : Keeps P) {most : Nat} {s : σ} (h : P s) :
    P (Warc.HeaderBlock.read most s).2 := by
  apply Outcome.andThen_keeps (k.readLine h)
  intro first s' h'
  cases first with
  | none => exact h'
  | some version => exact k.readLines h'

theorem readHeading (k : Keeps P) {dialect : Dialect} {options : ReaderOptions}
    {startOffset : Option Nat} {s : σ} (h : P s) :
    P (dialect.readHeading options startOffset s).2 := by
  cases dialect with
  | arc version => exact k.readLine h
  | warc => exact k.readBlock h

end Peekable.Keeps

/-! ### Streams on top of others -/

section Layers
variable [Readable σ] {P : σ → Prop}

theorem Bounded.keeps (k : Readable.Keeps P) :
    Readable.Keeps (σ := Bounded σ) fun w => P w.inner where
  read {w} n h := by
    show P (Bounded.read w n).2.inner
    unfold Bounded.read
    split
    · exact h
    · split <;> rename_i call <;> exact k.read_of h call

theorem Chained.keeps (k : Readable.Keeps P) :
    Readable.Keeps (σ := Chained σ) fun s => P s.inner where
  read {s} n h := by
    show P (Chained.read s n).2.inner
    unfold Chained.read
    split
    · exact h
    · split <;> rename_i call <;> exact k.read_of h call

theorem Buffered.fill_keeps (k : Readable.Keeps P) {s : Buffered σ} (h : P s.inner) :
    P s.fill.2.inner := by
  unfold Buffered.fill
  split
  · exact h
  · split <;> rename_i call <;> exact k.read_of h call

theorem Buffered.keeps (k : Readable.Keeps P) :
    Peekable.Keeps (σ := Buffered σ) fun s => P s.inner where
  read {s} n h := by
    show P (Buffered.read s n).2.inner
    have filled := Buffered.fill_keeps k h
    unfold Buffered.read
    split
    · split <;> rename_i call <;> exact k.read_of h call
    · split
      · exact h
      · split <;> rename_i call <;> rw [call] at filled <;> exact filled
  fill h := Buffered.fill_keeps k h
  consume _ h := h

end Layers

/-! ### Contents and records -/

section Records
variable [Readable σ] {P : σ → Prop}

namespace Payload

theorem read_keeps (k : Readable.Keeps P) {p : Payload σ} {n : Nat} (h : P p.source) :
    P (p.read n).2.source := by
  have window := (Bounded.keeps k).read (s := p.window) n h
  unfold Payload.read
  split
  · exact h
  · split <;> rename_i call <;> rw [call] at window
    · rwa [source, window_finalize]
    · exact window
    · exact window

theorem keeps (k : Readable.Keeps P) : Readable.Keeps (σ := Payload σ) fun p => P p.source where
  read _ h := read_keeps k h

theorem drain_keeps (k : Readable.Keeps P) {p : Payload σ} (h : P p.source) :
    P p.drain.2.source := by
  fun_induction drain p with
  | case1 p e window call => exact (Bounded.keeps k).readOn_of h call
  | case2 p window call => exact (Bounded.keeps k).readOn_of h call
  | case3 p b bs window call ih => exact ih ((Bounded.keeps k).readOn_of h call)

theorem close_keeps (k : Readable.Keeps P) {p : Payload σ} (h : P p.source) :
    P p.close.2.source := by
  have drained := drain_keeps k h
  rw [source, window_close, settle]
  split
  · exact h
  · split <;> rename_i call <;> rw [call] at drained
    · rwa [window_finalize]
    · exact drained

end Payload

namespace ContentRecord

theorem close_keeps (k : Readable.Keeps P) {r : ContentRecord σ} (h : P r.stream) :
    P r.close.2.stream := by
  unfold close
  split
  · exact h
  · split
    · exact h
    · rename_i p same
      have before : P p.source := by rwa [ContentRecord.stream, same] at h
      have closed := Payload.close_keeps k before
      split <;> rename_i call <;> rw [call] at closed <;> exact closed

theorem perform_keeps (k : Readable.Keeps P) {r : ContentRecord σ} {action : Action}
    (h : P r.stream) : P (r.perform action).2.stream := by
  cases content : r.content with
  | inl stream =>
    cases action with
    | read n => simpa [perform, content] using h
    | closeContent => simpa [perform, content] using h
    | close => exact close_keeps k h
  | inr p =>
    have before : P p.source := by rwa [ContentRecord.stream, content] at h
    cases action with
    | read n =>
      simp only [perform, content]
      exact Payload.read_keeps k before
    | closeContent =>
      simp only [perform, content]
      exact Payload.close_keeps k before
    | close => exact close_keeps k h

theorem use_keeps (k : Readable.Keeps P) {r : ContentRecord σ} {actions : List Action}
    (h : P r.stream) : P (r.use actions).2.stream := by
  induction actions generalizing r with
  | nil => exact h
  | cons action actions ih => exact ih (perform_keeps k h)

end ContentRecord

theorem Record.use_keeps (k : Readable.Keeps P) {r : Record σ} {actions : List Action}
    (h : P r.stream) : P (r.use actions).2.stream := by
  cases r with
  | versionBlock block stream => exact h
  | content r => exact ContentRecord.use_keeps k h

theorem Record.close_keeps (k : Readable.Keeps P) {r : Record σ} (h : P r.stream) :
    P r.close.2.stream := by
  cases r with
  | versionBlock block stream => exact h
  | content r => exact ContentRecord.close_keeps k h

theorem Dialect.openRecord_keeps (k : Readable.Keeps P) {dialect : Dialect}
    {options : ReaderOptions} {heading : Heading} {stream : σ} (h : P stream) :
    P (dialect.openRecord options heading stream).2 := by
  unfold openRecord
  split
  · rename_i header
    have begun : P (Payload.start stream (header.length.getD 0) options.blockDigest none).source :=
      h
    have kept : P (Arc.VersionBlock.read header
        (.start stream (header.length.getD 0) options.blockDigest none)).2.source := by
      apply Outcome.andThen_keeps (P := fun p : Payload σ => P p.source)
      · exact (Payload.keeps k).readAll begun
      · intro content p before
        exact Payload.close_keeps k before
    split <;> rename_i call <;> rw [call] at kept <;> exact kept
  · exact h

end Records
end WebArchive
