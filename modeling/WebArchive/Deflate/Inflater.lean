import WebArchive.Deflate.Inflate

/-!
Inflating by calls: a call is shown some input, takes as much of it as it needs and hands out a
limited number of bytes. Bytes are decided ahead of the demand, until the next one does not fit
into the window, so an error that far ahead comes before them. Main facts: `decode_eq`, what is
taken goes through the machine bit after bit, and `pending_step_le`, the bytes a call hands out
were pending before it or come from the input it took.
-/
namespace WebArchive.Deflate

namespace State

/-- The next byte has no room before `limit`, or is there already and reaches past it. A stored
byte is seen before it is taken, the others only when the bits that say it have been taken. -/
def isFull (limit : Nat) (s : State) : Bool :=
  match s.mode with
  | .stored _ => limit ≤ s.output.size
  | _ => limit < s.output.size

/-- Takes bits until the output reaches past `limit`; the machine after them, and the bits that
are left. -/
def takeBits (limit : Nat) : State → List Bool → State × List Bool
  | s, [] => (s, [])
  | s, b :: bs => if limit < s.output.size then (s, b :: bs) else takeBits limit (s.bit b) bs

/-- Takes a byte, or those of its bits that come before the output reaches past `limit`. -/
def takeByte (limit : Nat) (s : State) (b : UInt8) : State × List Bool :=
  match s.mode with
  | .storedHeader _ | .stored _ => (s.byte b, [])
  | _ => takeBits limit s (bits b)

/-- Takes bytes until there is no room before `limit` or the machine takes no more; the machine
after them, the bits left of the last one, and the bytes that are left. -/
def takeBytes (limit : Nat) : State → Bytes → State × List Bool × Bytes
  | s, [] => (s, [], [])
  | s, b :: bs =>
    if s.isHalted || s.isFull limit then (s, [], b :: bs)
    else match takeByte limit s b with
      | (s, []) => takeBytes limit s bs
      | (s, left) => (s, left, bs)

def decode (limit : Nat) (s : State) (bits : List Bool) (input : Bytes) :
    State × List Bool × Bytes :=
  match takeBits limit s bits with
  | (s, []) => takeBytes limit s input
  | (s, left) => (s, left, input)

/-! ### What is taken -/

theorem takeBits_eq {limit : Nat} {s s' : State} {bs left : List Bool}
    (h : takeBits limit s bs = (s', left)) : left.foldl bit s' = bs.foldl bit s := by
  fun_induction takeBits limit s bs with
  | case1 => simp_all
  | case2 => simp only [Prod.mk.injEq] at h; rw [← h.1, ← h.2]
  | case3 s b bs room ih => exact ih h

theorem takeByte_eq {limit : Nat} {s s' : State} {b : UInt8} {left : List Bool}
    (h : takeByte limit s b = (s', left)) : left.foldl bit s' = s.byte b := by
  unfold takeByte at h
  split at h
  · simp only [Prod.mk.injEq] at h; rw [← h.1, ← h.2]; rfl
  · simp only [Prod.mk.injEq] at h; rw [← h.1, ← h.2]; rfl
  · rw [takeBits_eq h]
    unfold byte
    split
    · simp_all
    · simp_all
    · rename_i mode; exact foldl_bit_of_stays (fun _ => by simp [bit, mode]) _
    · rename_i mode; exact foldl_bit_of_stays (fun _ => by simp [bit, mode]) _
    · rfl

theorem takeBytes_eq {limit : Nat} {s s' : State} {bs rest : Bytes} {left : List Bool}
    (h : takeBytes limit s bs = (s', left, rest)) :
    ∃ front, bs = front ++ rest ∧ left.foldl bit s' = front.foldl byte s := by
  fun_induction takeBytes limit s bs with
  | case1 =>
    simp only [Prod.mk.injEq] at h
    obtain ⟨rfl, rfl, rfl⟩ := h
    exact ⟨[], rfl, rfl⟩
  | case2 =>
    simp only [Prod.mk.injEq] at h
    obtain ⟨rfl, rfl, rfl⟩ := h
    exact ⟨[], rfl, rfl⟩
  | case3 s b bs room next taken ih =>
    obtain ⟨front, same, after⟩ := ih h
    have one : next = s.byte b := takeByte_eq taken
    exact ⟨b :: front, by rw [same]; rfl, by rw [after, one]; rfl⟩
  | case4 s b bs room next left' _ taken =>
    simp only [Prod.mk.injEq] at h
    obtain ⟨rfl, rfl, rfl⟩ := h
    exact ⟨[b], rfl, takeByte_eq taken⟩

/-- The bits and bytes taken, and the bits left, go through the machine one after the other. -/
theorem decode_eq {limit : Nat} {s s' : State} {bits left : List Bool} {input rest : Bytes}
    (h : decode limit s bits input = (s', left, rest)) :
    ∃ front, input = front ++ rest ∧
      left.foldl bit s' = front.foldl byte (bits.foldl bit s) := by
  unfold decode at h
  split at h
  · rename_i next taken
    obtain ⟨front, same, after⟩ := takeBytes_eq h
    have caught : next = bits.foldl bit s := takeBits_eq taken
    exact ⟨front, same, by rw [after, caught]⟩
  · rename_i next left' taken
    simp only [Prod.mk.injEq] at h
    obtain ⟨rfl, rfl, rfl⟩ := h
    exact ⟨[], rfl, takeBits_eq taken⟩

/-! ### Where decoding stops -/

theorem takeBits_stopped {limit : Nat} {s s' : State} {bs left : List Bool}
    (h : takeBits limit s bs = (s', left)) : left = [] ∨ limit < s'.output.size := by
  fun_induction takeBits limit s bs with
  | case1 => simp only [Prod.mk.injEq] at h; exact Or.inl h.2.symm
  | case2 s b bs past => simp only [Prod.mk.injEq] at h; exact Or.inr (h.1 ▸ past)
  | case3 s b bs room ih => exact ih h

theorem takeByte_stopped {limit : Nat} {s s' : State} {b : UInt8} {left : List Bool}
    (h : takeByte limit s b = (s', left)) : left = [] ∨ limit < s'.output.size := by
  unfold takeByte at h
  split at h
  · simp only [Prod.mk.injEq] at h; exact Or.inl h.2.symm
  · simp only [Prod.mk.injEq] at h; exact Or.inl h.2.symm
  · exact takeBits_stopped h

theorem le_of_isFull {limit : Nat} {s : State} (h : s.isFull limit) : limit ≤ s.output.size := by
  unfold isFull at h
  split at h <;> simp only [decide_eq_true_eq] at h <;> omega

theorem takeBytes_stopped {limit : Nat} {s s' : State} {bs rest : Bytes} {left : List Bool}
    (h : takeBytes limit s bs = (s', left, rest)) :
    rest = [] ∨ s'.isHalted ∨ limit ≤ s'.output.size := by
  fun_induction takeBytes limit s bs with
  | case1 => simp only [Prod.mk.injEq] at h; exact Or.inl h.2.2.symm
  | case2 s b bs stop =>
    simp only [Prod.mk.injEq] at h
    obtain ⟨rfl, rfl, rfl⟩ := h
    rw [Bool.or_eq_true] at stop
    exact Or.inr (stop.imp id le_of_isFull)
  | case3 s b bs room next taken ih => exact ih h
  | case4 s b bs room next left' some taken =>
    simp only [Prod.mk.injEq] at h
    obtain ⟨rfl, rfl, rfl⟩ := h
    exact Or.inr (Or.inr (Nat.le_of_lt ((takeByte_stopped taken).resolve_left some)))

/-- Decoding stops for want of input, at the limit, or in a machine that takes no more. -/
theorem decode_stopped {limit : Nat} {s s' : State} {bits left : List Bool} {input rest : Bytes}
    (h : decode limit s bits input = (s', left, rest)) :
    rest = [] ∨ s'.isHalted ∨ limit ≤ s'.output.size := by
  unfold decode at h
  split at h
  · exact takeBytes_stopped h
  · rename_i next left' some taken
    simp only [Prod.mk.injEq] at h
    obtain ⟨rfl, rfl, rfl⟩ := h
    exact Or.inr (Or.inr (Nat.le_of_lt ((takeBits_stopped taken).resolve_left some)))

/-! ### How much is decided -/

theorem size_takeBits_le {limit : Nat} {s s' : State} {bs left : List Bool} (place : Nat)
    (h : takeBits limit s bs = (s', left)) :
    s'.output.size - place + maxMatch * left.length ≤
      s.output.size - place + maxMatch * bs.length := by
  fun_induction takeBits limit s bs with
  | case1 => simp only [Prod.mk.injEq] at h; obtain ⟨rfl, rfl⟩ := h; exact Nat.le_refl _
  | case2 => simp only [Prod.mk.injEq] at h; obtain ⟨rfl, rfl⟩ := h; exact Nat.le_refl _
  | case3 s b bs room ih =>
    have := ih h
    have := size_bit_le s b
    simp only [List.length_cons, Nat.mul_succ]
    omega

theorem size_takeByte_le {limit : Nat} {s s' : State} {b : UInt8} {left : List Bool} (place : Nat)
    (h : takeByte limit s b = (s', left)) :
    s'.output.size - place + maxMatch * left.length ≤ s.output.size - place + maxGrowth := by
  have whole : (s.byte b).output.size - place ≤ s.output.size - place + maxGrowth := by
    have := size_byte_le s b
    omega
  unfold takeByte at h
  split at h
  · simp only [Prod.mk.injEq] at h; rw [← h.1, ← h.2]; exact whole
  · simp only [Prod.mk.injEq] at h; rw [← h.1, ← h.2]; exact whole
  · have := size_takeBits_le place h
    simpa [bits, maxGrowth, Nat.mul_comm] using this

theorem size_takeBytes_le {limit : Nat} {s s' : State} {bs rest : Bytes} {left : List Bool}
    (place : Nat) (h : takeBytes limit s bs = (s', left, rest)) :
    rest.length ≤ bs.length ∧ s'.output.size - place + maxMatch * left.length ≤
      s.output.size - place + maxGrowth * (bs.length - rest.length) := by
  fun_induction takeBytes limit s bs with
  | case1 => simp only [Prod.mk.injEq] at h; obtain ⟨rfl, rfl, rfl⟩ := h; simp
  | case2 => simp only [Prod.mk.injEq] at h; obtain ⟨rfl, rfl, rfl⟩ := h; simp
  | case3 s b bs room next taken ih =>
    obtain ⟨used, grown⟩ := ih h
    have one := size_takeByte_le place taken
    have count : bs.length + 1 - rest.length = bs.length - rest.length + 1 := by omega
    simp only [List.length_cons, List.length_nil, Nat.mul_zero, count, Nat.mul_succ] at one ⊢
    omega
  | case4 s b bs room next left' some taken =>
    simp only [Prod.mk.injEq] at h
    obtain ⟨rfl, rfl, rfl⟩ := h
    have one := size_takeByte_le place taken
    have count : bs.length + 1 - bs.length = 1 := by omega
    simp only [List.length_cons, count, Nat.mul_one]
    exact ⟨Nat.le_succ _, one⟩

/-- What is decided behind a place, and what the bits left can still decide, comes from the bits
and bytes that were there. -/
theorem size_decode_le {limit : Nat} {s s' : State} {bits left : List Bool} {input rest : Bytes}
    (place : Nat) (h : decode limit s bits input = (s', left, rest)) :
    rest.length ≤ input.length ∧ s'.output.size - place + maxMatch * left.length ≤
      s.output.size - place + maxMatch * bits.length +
        maxGrowth * (input.length - rest.length) := by
  unfold decode at h
  split at h
  · rename_i next taken
    have first := size_takeBits_le place taken
    obtain ⟨used, grown⟩ := size_takeBytes_le place h
    simp only [List.length_nil, Nat.mul_zero] at first
    exact ⟨used, by omega⟩
  · rename_i next left' some taken
    simp only [Prod.mk.injEq] at h
    obtain ⟨rfl, rfl, rfl⟩ := h
    have := size_takeBits_le place taken
    exact ⟨Nat.le_refl _, by omega⟩

end State

structure Inflater where
  state : State := {}
  /-- the bits of the last byte that have not been taken yet -/
  bits : List Bool := []
  /-- bytes at the end of the output for which there was no room in the window -/
  held : Nat := 0
  /-- bytes of the output that have been handed out -/
  delivered : Nat := 0
  /-- bytes of input that have been taken -/
  taken : Nat := 0
  /-- the input came to its end before the data did -/
  isCutOff : Bool := false

namespace Inflater

structure Step where
  produced : Bytes
  consumed : Nat
  inflater : Inflater

def ready (i : Inflater) : Nat := i.state.output.size - i.held - i.delivered

def isCorrupt (i : Inflater) : Bool := i.state.isCorrupt

/-- The compressed data have come to their end and all bytes are handed out. -/
def isEnded (i : Inflater) : Bool := i.state.isFinished && i.state.output.size ≤ i.delivered

/-- The window is filled up to its end and then from its beginning again. -/
def window : Nat := 32768

def windowEnd (place : Nat) : Nat := (place / window + 1) * window

theorem lt_windowEnd (place : Nat) : place < windowEnd place := by
  simp only [windowEnd, window]; omega

def idle (i : Inflater) : Step := ⟨[], 0, i⟩

/-- A call that meets corrupt data fails as a whole and takes no input, and so do all after it. -/
def failure : Step := idle { state := { mode := .corrupt } }

/-- Hands out at most `most` of the bytes that are ready, after taking `consumed` bytes. -/
def deliver (i : Inflater) (consumed most : Nat) : Step :=
  match i with
  | ⟨state, bits, held, delivered, taken, isCutOff⟩ =>
    let n := min most (state.output.size - held - delivered)
    { produced := (state.output.extract delivered (delivered + n)).toList
      consumed
      inflater := ⟨state, bits, held, delivered + n, taken + consumed, isCutOff⟩ }

def Step.after (s : Step) (produced : Bytes) (consumed : Nat) : Step :=
  if s.inflater.isCorrupt then failure
  else ⟨produced ++ s.produced, consumed + s.consumed, s.inflater⟩

/-- Fills the window and hands out at most `most` bytes of it; then the next one, while there is
demand and input. -/
def advance : Inflater → Bytes → Nat → Step
  | ⟨state, bits, _, delivered, taken, _⟩, input, most =>
    let limit := windowEnd delivered
    match state.decode limit bits input with
    | (state, bits, rest) =>
      if state.isCorrupt then failure
      else
        let held := state.output.size - limit
        let isCutOff := input.isEmpty && !state.isFinished
        match deliver ⟨state, bits, held, delivered, taken, isCutOff⟩
          (input.length - rest.length) most with
        | ⟨produced, consumed, next⟩ =>
          let wanted := most - produced.length
          if _more : rest ≠ [] ∧ ¬ next.state.isFinished ∧ produced ≠ [] ∧ 0 < wanted then
            (advance next rest wanted).after produced consumed
          else ⟨produced, consumed, next⟩
termination_by _ _ most => most
decreasing_by
  have := List.length_pos_iff.mpr _more.2.2.1
  omega

/-- One call with `input` in sight that asks for `most` bytes. Input is only taken when nothing
is ready. When there is none left, only one call decides what can still be decided, and what it
does not hand out is never handed out. -/
def step (i : Inflater) (input : Bytes) (most : Nat) : Step :=
  if i.isCorrupt then failure
  else if i.isCutOff && input.isEmpty then idle i
  else if 0 < i.ready then deliver i 0 most
  else advance i input most

/-! ### What a call takes and hands out -/

/-- Bytes that were inflated and not handed out, and those that the bits left can still say. -/
def pending (i : Inflater) : Nat :=
  i.state.output.size - i.delivered + State.maxMatch * i.bits.length

theorem length_deliver (i : Inflater) (consumed most : Nat) :
    (i.deliver consumed most).produced.length = min most i.ready := by
  simp only [deliver, ready, Array.length_toList, Array.size_extract]
  omega

theorem pending_deliver (i : Inflater) (consumed most : Nat) :
    (i.deliver consumed most).inflater.pending + (i.deliver consumed most).produced.length =
      i.pending := by
  rw [length_deliver]
  simp only [deliver, pending, ready]
  omega

structure Fair (i : Inflater) (input : Bytes) (most : Nat) (s : Step) : Prop where
  consumed_le : s.consumed ≤ input.length
  length_le : s.produced.length ≤ most
  pending_le : s.inflater.pending + s.produced.length ≤ i.pending + State.maxGrowth * s.consumed

theorem fair_failure (i : Inflater) (input : Bytes) (most : Nat) : Fair i input most failure where
  consumed_le := Nat.zero_le _
  length_le := Nat.zero_le _
  pending_le := Nat.zero_le _

theorem fair_deliver (i : Inflater) (input : Bytes) (most : Nat) :
    Fair i input most (i.deliver 0 most) where
  consumed_le := Nat.zero_le _
  length_le := by rw [length_deliver]; exact Nat.min_le_left ..
  pending_le := by rw [pending_deliver]; exact Nat.le_add_right ..

theorem fair_after {i next : Inflater} {input rest produced : Bytes} {most : Nat}
    (first : Fair i input most ⟨produced, input.length - rest.length, next⟩)
    (used : rest.length ≤ input.length) {s : Step}
    (second : Fair next rest (most - produced.length) s) :
    Fair i input most (s.after produced (input.length - rest.length)) := by
  unfold Step.after
  split
  · exact fair_failure ..
  · have consumed := second.consumed_le
    have length := second.length_le
    have pending := second.pending_le
    have length' := first.length_le
    have pending' := first.pending_le
    simp only at length' pending'
    refine ⟨by simp only; omega, by simp only [List.length_append]; omega, ?_⟩
    simp only [List.length_append, Nat.mul_add]
    omega

theorem fair_advance (i : Inflater) (input : Bytes) (most : Nat) :
    Fair i input most (i.advance input most) := by
  have first {state next : State} {bits left : List Bool} {held held' delivered taken : Nat}
      {isCutOff isCutOff' : Bool} {input rest : Bytes} {most : Nat} {s : Step}
      (decoded : state.decode (windowEnd delivered) bits input = (next, left, rest))
      (h : deliver ⟨next, left, held', delivered, taken, isCutOff'⟩ (input.length - rest.length)
        most = s) :
      s.consumed = input.length - rest.length ∧ rest.length ≤ input.length ∧
        Fair ⟨state, bits, held, delivered, taken, isCutOff⟩ input most s := by
    obtain ⟨used, grown⟩ := State.size_decode_le delivered decoded
    subst h
    refine ⟨rfl, used, ⟨Nat.sub_le .., ?_, ?_⟩⟩
    · rw [length_deliver]; exact Nat.min_le_left ..
    · rw [pending_deliver]; exact grown
  fun_induction advance i input most with
  | case1 => exact fair_failure ..
  | case2 _ _ _ _ _ _ _ _ _ _ _ _ decoded _ _ _ _ _ _ delivered _ _ ih =>
    obtain ⟨consumed, used, fair⟩ := first decoded delivered
    simp only at consumed
    subst consumed
    exact fair_after fair used ih
  | case3 _ _ _ _ _ _ _ _ _ _ _ _ decoded _ _ _ _ _ _ delivered =>
    exact (first decoded delivered).2.2

theorem fair_step (i : Inflater) (input : Bytes) (most : Nat) :
    Fair i input most (i.step input most) := by
  unfold step
  split
  · exact fair_failure ..
  · split
    · exact ⟨Nat.zero_le _, Nat.zero_le _, Nat.le_add_right ..⟩
    · split
      · exact fair_deliver ..
      · exact fair_advance ..

theorem consumed_step_le (i : Inflater) (input : Bytes) (most : Nat) :
    (i.step input most).consumed ≤ input.length := (fair_step i input most).consumed_le

theorem length_step_le (i : Inflater) (input : Bytes) (most : Nat) :
    (i.step input most).produced.length ≤ most := (fair_step i input most).length_le

theorem pending_step_le (i : Inflater) (input : Bytes) (most : Nat) :
    (i.step input most).inflater.pending + (i.step input most).produced.length ≤
      i.pending + State.maxGrowth * (i.step input most).consumed :=
  (fair_step i input most).pending_le

/-! ### A call that hands out nothing has taken input -/

theorem after_sound {s : Step} {produced : Bytes} {consumed : Nat}
    (sound : (s.after produced consumed).inflater.isCorrupt = false) :
    (s.after produced consumed).produced = produced ++ s.produced := by
  unfold Step.after at sound ⊢
  split at sound
  · exact absurd sound (by decide)
  · rename_i h; rw [if_neg h]

/-- Decoding that took nothing has stopped at the end of the window, or of the data, and there is
something to hand out. -/
theorem consumed_deliver_pos {state next : State} {bits left : List Bool} {delivered taken : Nat}
    {isCutOff : Bool} {input rest : Bytes} {most : Nat} {s : Step} (asked : 0 < most)
    (shown : input ≠ [])
    (decoded : state.decode (windowEnd delivered) bits input = (next, left, rest))
    (h : deliver ⟨next, left, next.output.size - windowEnd delivered, delivered, taken, isCutOff⟩
      (input.length - rest.length) most = s)
    (sound : s.inflater.isCorrupt = false) (going : s.inflater.isEnded = false)
    (nothing : s.produced = []) : 0 < s.consumed := by
  have place := lt_windowEnd delivered
  have length := congrArg List.length nothing
  subst h
  rw [length_deliver, List.length_nil] at length
  simp only [deliver, isCorrupt, isEnded, Bool.and_eq_false_imp] at sound going ⊢
  simp only [ready] at length
  have shown := List.length_pos_iff.mpr shown
  rcases State.decode_stopped decoded with rfl | halted | full
  · exact shown
  · simp only [State.isHalted, sound, Bool.or_false] at halted
    have := of_decide_eq_false (going halted)
    omega
  · omega

theorem consumed_advance_pos {i : Inflater} {input : Bytes} {most : Nat} (asked : 0 < most)
    (shown : input ≠ []) (sound : (i.advance input most).inflater.isCorrupt = false)
    (going : (i.advance input most).inflater.isEnded = false)
    (nothing : (i.advance input most).produced = []) : 0 < (i.advance input most).consumed := by
  revert sound going nothing
  fun_cases advance i input most with
  | case1 => exact fun sound => absurd sound (by decide)
  | case2 _ _ _ _ _ _ _ _ _ _ _ _ _ _ _ _ _ _ _ _ _ more =>
    intro sound _ nothing
    rw [after_sound sound, List.append_eq_nil_iff] at nothing
    exact absurd nothing.1 more.2.2.1
  | case3 =>
    rename_i decoded _ _ _ delivered
    exact consumed_deliver_pos asked shown decoded delivered

theorem consumed_step_pos (i : Inflater) (input : Bytes) (most : Nat) (asked : 0 < most)
    (shown : input ≠ []) (sound : (i.step input most).inflater.isCorrupt = false)
    (going : (i.step input most).inflater.isEnded = false)
    (nothing : (i.step input most).produced = []) : 0 < (i.step input most).consumed := by
  unfold step at sound going nothing ⊢
  split at sound
  · exact absurd sound (by decide)
  · rename_i corrupt
    rw [if_neg corrupt] at going nothing ⊢
    have away : ¬ (i.isCutOff && input.isEmpty) := by simp [shown]
    rw [if_neg away] at sound going nothing ⊢
    split at nothing
    · have := length_deliver i 0 most
      rw [nothing] at this
      simp only [List.length_nil] at this
      omega
    · rename_i ready
      rw [if_neg ready] at sound going ⊢
      exact consumed_advance_pos asked shown sound going nothing

end Inflater
end WebArchive.Deflate
