import WebArchive.Proofs.Payload.Accounting
import WebArchive.Record.Basic

/-!
What a caller sees of a record. Whatever is read of its content and whenever it is closed, a record
over a stream without failures shows the same heading, hands out the content from its beginning,
and closes with the same summary and diagnostics.
-/
namespace WebArchive

inductive Action where
  | read (n : Nat)
  | closeContent
  | close

def Action.isRead : Action → Bool
  | .read _ => true
  | _ => false

/-- The digest of the HTTP entity that is computed behind a heading. -/
def Heading.entityDigest (heading : Heading) (options : ReaderOptions) : Option Digest.Algorithm :=
  if heading.isHttp then options.payloadDigest else none

namespace ContentRecord
variable {σ : Type}

structure Sight where
  heading : Heading
  content : Bytes
  summary : Option Payload.Summary
  /-- once the record is closed -/
  diagnostics : Diagnostics

def Sight.of (options : ReaderOptions) (heading : Heading) (data : Bytes) : Sight :=
  let content := data.take (heading.length.getD 0)
  let summary := heading.length.map fun length =>
    Payload.Summary.of length options.blockDigest (heading.entityDigest options) content
  { heading
    content
    summary
    diagnostics :=
      heading.diagnostics ++ summary.elim [] fun s => s.diagnostics heading.recordField }

section Actions
variable [Readable σ]

/-- One action, and the bytes it hands out. -/
def perform (r : ContentRecord σ) (action : Action) : Answer (ContentRecord σ) Bytes :=
  match action, r.content with
  | .read n, .inr p => (p.read n).within r.withPayload
  | .closeContent, .inr p => (p.close.map fun _ => []).within r.withPayload
  | .close, _ => r.close.map fun _ => []
  | _, .inl _ => (.ok [], r)

def use (r : ContentRecord σ) : List Action → Bytes × ContentRecord σ
  | [] => ([], r)
  | action :: actions =>
    let (answer, r') := r.perform action
    let (more, r'') := r'.use actions
    (answer.toOption.getD [] ++ more, r'')

/-- However it is used, a record shows just this. -/
structure Shows (r : ContentRecord σ) (sight : Sight) : Prop where
  begun : r.diagnostics = sight.heading.diagnostics
  heading : ∀ actions, (r.use actions).2.heading = sight.heading
  served : ∀ actions action, ∃ bs, ((r.use actions).2.perform action).1 = .ok bs
  delivered : ∀ actions, (r.use actions).1 <+: sight.content
  /-- reading to the end gives the whole content -/
  complete : ∀ actions n, actions.all (·.isRead) → 0 < n →
    ((r.use actions).2.perform (.read n)).1 = .ok [] → (r.use actions).1 = sight.content
  closed : ∀ actions, (r.use actions).2.close.1 = .ok () ∧
    (r.use actions).2.close.2.summary = sight.summary ∧
    (r.use actions).2.close.2.diagnostics = sight.diagnostics

theorem use_append (r : ContentRecord σ) (actions more : List Action) :
    (r.use (actions ++ more)).2 = ((r.use actions).2.use more).2 := by
  induction actions generalizing r with
  | nil => rfl
  | cons action actions ih => exact ih (r.perform action).2

theorem delivered_append (r : ContentRecord σ) (actions more : List Action) :
    (r.use (actions ++ more)).1 = (r.use actions).1 ++ ((r.use actions).2.use more).1 := by
  induction actions generalizing r with
  | nil => rfl
  | cons action actions ih =>
    have rest := ih (r.perform action).2
    simp only [List.cons_append, use, rest, List.append_assoc]

theorem isClosed_perform {r : ContentRecord σ} (done : r.isClosed) (action : Action) :
    (r.perform action).2.isClosed := by
  cases action with
  | read n => rcases held : r.content with s | p <;> simpa only [perform, held]
  | closeContent => rcases held : r.content with s | p <;> simpa only [perform, held]
  | close => simpa only [perform, close_closed done]

theorem isClosed_use {r : ContentRecord σ} (done : r.isClosed) (actions : List Action) :
    (r.use actions).2.isClosed := by
  induction actions generalizing r with
  | nil => exact done
  | cons action actions ih => exact ih (isClosed_perform done action)

variable {r : ContentRecord σ} {sight sight' : Sight}

/-- Reading on comes to the end, for what is delivered is a front of the content. -/
theorem Shows.exists_end (h : r.Shows sight) (actions : List Action)
    (reads : actions.all (·.isRead)) :
    ∃ actions', actions'.all (·.isRead) ∧ ((r.use actions').2.perform (.read 1)).1 = .ok [] := by
  obtain ⟨bs, answer⟩ := h.served actions (.read 1)
  by_cases none : bs = []
  · exact ⟨actions, reads, none ▸ answer⟩
  · have further : (r.use (actions ++ [.read 1])).1 = (r.use actions).1 ++ bs := by
      rw [delivered_append]
      simp [use, answer, Except.toOption]
    have within := (h.delivered (actions ++ [.read 1])).length_le
    have nearer : sight.content.length - (r.use (actions ++ [.read 1])).1.length <
        sight.content.length - (r.use actions).1.length := by
      have some := List.length_pos_iff.mpr none
      rw [further, List.length_append] at within ⊢
      omega
    exact h.exists_end (actions ++ [.read 1]) (by rw [List.all_append, reads]; rfl)
termination_by sight.content.length - (r.use actions).1.length

/-- There is only one thing that a record shows. -/
theorem Shows.unique (h : r.Shows sight) (h' : r.Shows sight') : sight = sight' := by
  obtain ⟨actions, reads, last⟩ := h.exists_end [] rfl
  have heading := (h.heading []).symm.trans (h'.heading [])
  have content := (h.complete actions 1 reads Nat.one_pos last).symm.trans
    (h'.complete actions 1 reads Nat.one_pos last)
  obtain ⟨_, summary, diagnostics⟩ := h.closed []
  obtain ⟨_, summary', diagnostics'⟩ := h'.closed []
  cases sight
  cases sight'
  simp_all

end Actions

/-! ### A record in use -/

/-- A record in front of `data` that has taken some of its content, if it has any. -/
def Taking (I : σ → Bytes → Prop) (options : ReaderOptions) (heading : Heading) (data : Bytes)
    (r : ContentRecord σ) : Prop :=
  (∃ s, r.content = .inl s ∧ I s data) ∨
  ∃ p length taken rest, r.content = .inr p ∧ heading.length = some length ∧
    p.Accounted I data length options.blockDigest (heading.entityDigest options) taken rest

/-- A record in front of `data` that has handed out `delivered`, by reading alone or not. -/
structure InUse (I : σ → Bytes → Prop) (options : ReaderOptions) (heading : Heading)
    (data : Bytes) (reading : Prop) (delivered : Bytes) (r : ContentRecord σ) : Prop where
  headed : r.heading = heading
  content :
    (∃ s, r.content = .inl s ∧ heading.length = none ∧ I s data ∧ delivered = []) ∨
    ∃ p length taken rest, r.content = .inr p ∧ heading.length = some length ∧
      p.Accounted I data length options.blockDigest (heading.entityDigest options) taken rest ∧
      delivered <+: taken ∧ (reading ∨ p.isClosed = false → delivered = taken)
  opened : r.isClosed = false → r.diagnostics = heading.diagnostics
  closed : r.isClosed → r.summary = (Sight.of options heading data).summary ∧
    r.diagnostics = (Sight.of options heading data).diagnostics

variable {I : σ → Bytes → Prop} {options : ReaderOptions} {heading : Heading} {data : Bytes}
  {delivered : Bytes} {reading : Prop} {r : ContentRecord σ}

/-- Wherever its use has led, the stream of a record is inside the content or at its end. -/
theorem Taking.stream (h : Taking I options heading data r) :
    ∃ k ≤ heading.length.getD 0, I r.stream (data.drop k) := by
  rcases h with ⟨s, stream, held⟩ | ⟨p, length, taken, rest, payload, known, accounts⟩
  · exact ⟨0, Nat.zero_le _, by simpa [ContentRecord.stream, stream] using held⟩
  · have size := congrArg List.length accounts.content
    simp only [List.length_take, List.length_append] at size
    refine ⟨taken.length, by rw [known, Option.getD_some]; omega, ?_⟩
    have whole : data = taken ++ (rest ++ data.drop length) := by
      rw [← List.append_assoc, ← accounts.content, List.take_append_drop]
    have held : I p.source (rest ++ data.drop length) := accounts.window.1
    rw [whole, List.drop_left]
    simpa [ContentRecord.stream, payload] using held

theorem inUse_start (options : ReaderOptions) (heading : Heading) {s : σ} (h : I s data) :
    InUse I options heading data True [] (start heading s options) := by
  refine ⟨rfl, ?_, fun _ => rfl, by simp [start]⟩
  cases known : heading.length with
  | none => exact Or.inl ⟨s, by simp [start, known], rfl, h, rfl⟩
  | some length =>
    exact Or.inr ⟨_, length, [], data.take length, by simp only [start, known]; rfl, rfl,
      Payload.accounted_start h, List.nil_prefix, fun _ => rfl⟩

namespace InUse

theorem weaken {reading' : Prop} (h : InUse I options heading data reading delivered r)
    (less : reading' → reading) : InUse I options heading data reading' delivered r := by
  refine ⟨h.headed, h.content.imp_right ?_, h.opened, h.closed⟩
  rintro ⟨p, length, taken, rest, payload, known, accounts, part, same⟩
  refine ⟨p, length, taken, rest, payload, known, accounts, part, ?_⟩
  intro going
  exact same (going.imp_left less)

theorem taking (h : InUse I options heading data reading delivered r) :
    Taking I options heading data r := by
  rcases h.content with ⟨s, stream, _, held, _⟩ |
    ⟨p, length, taken, rest, payload, known, accounts, _⟩
  · exact Or.inl ⟨s, stream, held⟩
  · exact Or.inr ⟨p, length, taken, rest, payload, known, accounts⟩

theorem stream (h : InUse I options heading data reading delivered r) :
    ∃ k ≤ heading.length.getD 0, I r.stream (data.drop k) := h.taking.stream

theorem ofClosed {p : Payload σ} {length : Nat} {taken : Bytes} (headed : r.heading = heading)
    (known : heading.length = some length)
    (accounts : p.Accounted I data length options.blockDigest (heading.entityDigest options)
      taken []) (part : delivered <+: taken) (payload : r.content = .inr p)
    (summed : p.summary = (Sight.of options heading data).summary)
    (opened : r.isClosed = false → r.diagnostics = heading.diagnostics)
    (closed : r.isClosed → r.diagnostics = (Sight.of options heading data).diagnostics) :
    InUse I options heading data False delivered r where
  headed := headed
  content := by
    refine Or.inr ⟨p, length, taken, [], payload, known, accounts, part, ?_⟩
    rintro (none | opened)
    · exact none.elim
    · simp [Payload.isClosed, summed, Sight.of, known] at opened
  opened := opened
  closed done := ⟨by simp [summary, payload?, payload, summed], closed done⟩

theorem delivered_isPrefix (h : InUse I options heading data reading delivered r) :
    delivered <+: (Sight.of options heading data).content := by
  rcases h.content with ⟨_, _, _, _, rfl⟩ | ⟨p, length, taken, rest, _, known, accounts, part, _⟩
  · exact List.nil_prefix
  · rw [Sight.of, known, Option.getD_some, accounts.content]
    exact part.trans (List.prefix_append ..)

theorem payload_isClosed {p : Payload σ} {length : Nat}
    (h : InUse I options heading data reading delivered r) (payload : r.content = .inr p)
    (known : heading.length = some length) (done : r.isClosed) : p.isClosed := by
  have summed : p.summary = (Sight.of options heading data).summary := by
    simpa [summary, payload?, payload] using (h.closed done).1
  simp [Payload.isClosed, summed, Sight.of, known]

/-- A record that is closed has taken its whole content. -/
theorem stream_closed (h : InUse I options heading data reading delivered r) (done : r.isClosed) :
    I r.stream (data.drop (heading.length.getD 0)) := by
  rcases h.content with ⟨s, stream, known, held, _⟩ |
    ⟨p, length, taken, rest, payload, known, accounts, _⟩
  · simpa [ContentRecord.stream, stream, known] using held
  · obtain ⟨s, summed⟩ := Option.isSome_iff_exists.mp (h.payload_isClosed payload known done)
    obtain ⟨_, rfl⟩ := accounts.summary s summed
    have held : I p.source (data.drop length) := accounts.window.1
    simpa [ContentRecord.stream, payload, known] using held

variable [Readable σ]

theorem perform_read (t : Readable.Tracks I noError)
    (h : InUse I options heading data reading delivered r) (n : Nat) :
    ∃ bs r', r.perform (.read n) = (.ok bs, r') ∧
      InUse I options heading data reading (delivered ++ bs) r' ∧
      (0 < n → bs = [] → reading → delivered = (Sight.of options heading data).content) := by
  rcases h.content with ⟨s, stream, known, held, rfl⟩ |
    ⟨p, length, taken, rest, payload, known, accounts, part, same⟩
  · refine ⟨[], r, ?_, h, ?_⟩
    · simp [ContentRecord.perform, stream]
    · intro _ _ _
      simp [Sight.of, known]
  rcases answer : p.read n with ⟨e | bs, p'⟩
  · exact absurd (accounts.read_error t answer).1 id
  obtain ⟨left, rfl, after, _, last⟩ := accounts.read_ok t answer
  -- a close takes bytes that nobody was handed, so only an open payload has handed out all it took
  have still (done : p.isClosed) : bs = [] ∧ p' = p := by
    rw [Payload.Accounted.read_closed done] at answer
    simp only [Prod.mk.injEq, Except.ok.injEq] at answer
    exact ⟨answer.1.symm, answer.2.symm⟩
  have together (going : reading ∨ p'.isClosed = false) : delivered = taken := by
    apply same
    apply going.imp_right
    intro opened
    cases done : p.isClosed with
    | false => rfl
    | true =>
      rw [(still done).2, done] at opened
      exact opened
  refine ⟨bs, r.withPayload p', ?_, ⟨h.headed, ?_, h.opened, ?_⟩, ?_⟩
  · simp [ContentRecord.perform, payload, answer, Outcome.within]
  · refine Or.inr ⟨p', length, taken ++ bs, left, rfl, known, after, ?_, ?_⟩
    · cases done : p.isClosed with
      | true => simpa [(still done).1] using part
      | false => exact same (Or.inr done) ▸ List.prefix_rfl
    · intro going
      rw [together going]
  · intro done
    have summed := (h.closed done).1
    refine ⟨?_, (h.closed done).2⟩
    rw [(still (h.payload_isClosed payload known done)).2]
    simpa [summary, payload?, payload, withPayload] using summed
  · rintro some rfl going
    obtain ⟨s, summed⟩ := Option.isSome_iff_exists.mp (last some rfl)
    obtain ⟨_, rfl⟩ := after.summary s summed
    rw [same (Or.inl going), Sight.of, known, Option.getD_some, accounts.content]
    simp

theorem perform_closeContent {E : StreamError → Prop} (t : Readable.Tracks I E) (quiet : Quiet E)
    (h : InUse I options heading data reading delivered r) :
    ∃ r', r.perform .closeContent = (.ok [], r') ∧
      InUse I options heading data False delivered r' := by
  rcases h.content with ⟨s, stream, known, held, rfl⟩ |
    ⟨p, length, taken, rest, payload, known, accounts, part, same⟩
  · exact ⟨r, by simp [ContentRecord.perform, stream], h.weaken False.elim⟩
  · obtain ⟨p', answer, _⟩ := accounts.close_eq t quiet
    obtain ⟨_, summed, after, _⟩ := accounts.close_ok t answer
    refine ⟨r.withPayload p', ?_, ofClosed h.headed known after (part.trans (List.prefix_append ..))
      rfl (by simp [summed, Sight.of, known]) h.opened fun done => (h.closed done).2⟩
    simp [ContentRecord.perform, payload, answer, Outcome.within, Outcome.map, Except.map]

theorem perform_close {E : StreamError → Prop} (t : Readable.Tracks I E) (quiet : Quiet E)
    (h : InUse I options heading data reading delivered r) :
    ∃ r', r.close = (.ok (), r') ∧ InUse I options heading data False delivered r' ∧
      r'.isClosed := by
  cases done : r.isClosed with
  | true => exact ⟨r, close_closed done, h.weaken False.elim, done⟩
  | false =>
    rcases h.content with ⟨s, stream, known, held, rfl⟩ |
      ⟨p, length, taken, rest, payload, known, accounts, part, same⟩
    · refine ⟨{ r with isClosed := true }, by simp [close, done, stream], ⟨h.headed,
        Or.inl ⟨s, stream, known, held, rfl⟩, by simp, fun _ => ?_⟩, rfl⟩
      simp [summary, payload?, stream, Sight.of, known, h.opened done]
    · obtain ⟨p', answer, _⟩ := accounts.close_eq t quiet
      obtain ⟨_, summed, after, _⟩ := accounts.close_ok t answer
      let s := Payload.Summary.of length options.blockDigest (heading.entityDigest options)
        (data.take length)
      have called : r.close = (.ok (), { r with
          content := .inr p'
          isClosed := true
          diagnostics := r.diagnostics ++ s.diagnostics r.heading.recordField }) := by
        rw [close, if_neg (by simp [done])]
        simp only [payload, answer]
        rfl
      refine ⟨_, called, ofClosed h.headed known after (part.trans (List.prefix_append ..)) rfl
        (by simp [summed, Sight.of, known]) (by simp) fun _ => ?_, rfl⟩
      simp [s, Sight.of, known, h.opened done, h.headed]

/-- Every action succeeds, and the record stays in use. A read that asks for something and gets
nothing has come to the end of the content. -/
theorem perform (t : Readable.Tracks I noError)
    (h : InUse I options heading data reading delivered r) (action : Action) :
    ∃ bs r', r.perform action = (.ok bs, r') ∧
      InUse I options heading data (reading ∧ action.isRead) (delivered ++ bs) r' := by
  cases action with
  | read n =>
    obtain ⟨bs, r', answer, after, _⟩ := h.perform_read t n
    exact ⟨bs, r', answer, after.weaken And.left⟩
  | closeContent =>
    obtain ⟨r', answer, after⟩ := h.perform_closeContent t quiet_noError
    refine ⟨[], r', answer, ?_⟩
    rw [List.append_nil]
    apply after.weaken
    simp [Action.isRead]
  | close =>
    obtain ⟨r', answer, after, _⟩ := h.perform_close t quiet_noError
    refine ⟨[], r', ?_, ?_⟩
    · simp [ContentRecord.perform, answer, Outcome.map, Except.map]
    · rw [List.append_nil]
      apply after.weaken
      simp [Action.isRead]

theorem use (t : Readable.Tracks I noError)
    (h : InUse I options heading data reading delivered r) (actions : List Action) :
    InUse I options heading data (reading ∧ actions.all (·.isRead))
      (delivered ++ (r.use actions).1) (r.use actions).2 := by
  induction actions generalizing reading delivered r with
  | nil => simpa [ContentRecord.use] using h
  | cons action actions ih =>
    obtain ⟨bs, r', answer, after⟩ := h.perform t action
    have rest := ih after
    rw [List.append_assoc] at rest
    simp only [ContentRecord.use, answer]
    exact rest.weaken fun both => by simpa [and_assoc] using both

theorem use_closed (t : Readable.Tracks I noError)
    (h : InUse I options heading data reading delivered r) {actions : List Action}
    (closes : .close ∈ actions) : (r.use actions).2.isClosed := by
  obtain ⟨before, after, rfl⟩ := List.append_of_mem closes
  obtain ⟨r', answer, _, done⟩ := (h.use t before).perform_close t quiet_noError
  rw [use_append]
  refine isClosed_use ?_ after
  show (r.use before).2.close.2.isClosed
  rw [answer]
  exact done

/-- A use leaves the stream inside the content, and at its end if it closes the record. -/
theorem use_stream (t : Readable.Tracks I noError)
    (h : InUse I options heading data reading delivered r) (actions : List Action) :
    ∃ k ≤ heading.length.getD 0, I (r.use actions).2.stream (data.drop k) ∧
      (.close ∈ actions → k = heading.length.getD 0) := by
  have used := h.use t actions
  by_cases closes : .close ∈ actions
  · exact ⟨_, Nat.le_refl _, used.stream_closed (h.use_closed t closes), fun _ => rfl⟩
  · obtain ⟨k, inside, held⟩ := used.stream
    exact ⟨k, inside, held, fun closed => absurd closed closes⟩

theorem shows (t : Readable.Tracks I noError)
    (h : InUse I options heading data True [] r) (begun : r.isClosed = false) :
    r.Shows (.of options heading data) where
  begun := h.opened begun
  heading actions := (h.use t actions).headed
  served actions action := by
    obtain ⟨bs, _, answer, _⟩ := (h.use t actions).perform t action
    exact ⟨bs, by rw [answer]⟩
  delivered actions := (h.use t actions).delivered_isPrefix
  complete actions n reads some none := by
    have used := h.use t actions
    obtain ⟨bs, _, answer, _, last⟩ := used.perform_read t n
    rw [answer] at none
    exact last some (Except.ok.inj none) ⟨trivial, reads⟩
  closed actions := by
    have used := h.use t actions
    obtain ⟨r', answer, after, done⟩ := used.perform_close t quiet_noError
    rw [answer]
    exact ⟨rfl, after.closed done⟩

end InUse
end ContentRecord
end WebArchive
