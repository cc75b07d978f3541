import WebArchive.Proofs.Deflate.Delivery
import WebArchive.Proofs.Deflate.Taking

/-!
An inflater whose input ends before its data. Decoding stays close to the end of the window, so
that only a few bytes are decided and not ready then, and one call decides all of them. Main facts:
`Roomy.step` and `Owes.step_nil`.
-/
namespace WebArchive.Deflate

namespace State
variable {limit : Nat} {s s' : State} {left : List Bool}

@[simp] theorem output_storedHeader (s : State) (read : Bytes) :
    (s.storedHeader read).output = s.output := by
  unfold storedHeader
  dsimp only
  split
  · rfl
  · split
    · rfl
    · split <;> rfl

@[simp] theorem size_storedByte (s : State) (left : Nat) (b : UInt8) :
    (s.storedByte left b).output.size = s.output.size + 1 := by
  unfold storedByte
  dsimp only
  split <;> simp

theorem exists_bits (b : UInt8) : ∃ first rest, bits b = first :: rest ∧ rest.length = 7 :=
  ⟨_, _, rfl, rfl⟩

/-- Decoding from `s` has come to `s'`, past `limit` by one match at most. Bits are left only if it
is past it. -/
structure Stops (limit : Nat) (s s' : State) (left : List Bool) : Prop where
  grown : s.output.size ≤ s'.output.size
  size : s'.output.size ≤ limit + maxMatch
  few : left.length ≤ 7
  full : left = [] ∨ limit < s'.output.size

theorem stops_takeBits {bs : List Bool} (size : s.output.size ≤ limit + maxMatch)
    (few : bs.length ≤ 7) (h : takeBits limit s bs = (s', left)) : Stops limit s s' left := by
  fun_induction takeBits limit s bs with
  | case1 =>
    cases h
    exact ⟨Nat.le_refl _, size, few, Or.inl rfl⟩
  | case2 s b bs past =>
    cases h
    exact ⟨Nat.le_refl _, size, few, Or.inr past⟩
  | case3 s b bs room ih =>
    have one := size_bit_le s b
    have grown := (output_bit s b).length_le
    have rest := ih (by omega) (by simp only [List.length_cons] at few; omega) h
    simp only [Array.length_toList] at grown
    exact { rest with grown := Nat.le_trans grown rest.grown }

theorem stops_takeByte {b : UInt8} (room : s.output.size ≤ limit)
    (h : takeByte limit s b = (s', left)) : Stops limit s s' left := by
  unfold takeByte at h
  split at h
  · rename_i read mode
    cases h
    simp only [byte, mode]
    exact ⟨by simp, by simp only [output_storedHeader]; omega, Nat.zero_le _, Or.inl rfl⟩
  · rename_i count mode
    cases h
    simp only [byte, mode]
    exact ⟨by simp, by simp only [size_storedByte, maxMatch]; omega, Nat.zero_le _, Or.inl rfl⟩
  · obtain ⟨first, rest, same, seven⟩ := exists_bits b
    have one := size_bit_le s first
    have grown := (output_bit s first).length_le
    simp only [Array.length_toList] at grown
    rw [same, takeBits, if_neg (by omega)] at h
    have stops := stops_takeBits (by omega) (Nat.le_of_eq seven) h
    exact { stops with grown := Nat.le_trans grown stops.grown }

theorem size_le_of_not_isFull (room : s.isFull limit = false) : s.output.size ≤ limit := by
  unfold isFull at room
  split at room <;> simp only [decide_eq_false_iff_not] at room <;> omega

theorem stops_takeBytes {bs rest : Bytes} (size : s.output.size ≤ limit + maxMatch)
    (h : takeBytes limit s bs = (s', left, rest)) : Stops limit s s' left := by
  fun_induction takeBytes limit s bs with
  | case1 =>
    cases h
    exact ⟨Nat.le_refl _, size, Nat.zero_le _, Or.inl rfl⟩
  | case2 =>
    cases h
    exact ⟨Nat.le_refl _, size, Nat.zero_le _, Or.inl rfl⟩
  | case3 s b bs going next taken ih =>
    have room : s.isFull limit = false := by simp_all
    have one := stops_takeByte (size_le_of_not_isFull room) taken
    have rest := ih one.size h
    exact { rest with grown := Nat.le_trans one.grown rest.grown }
  | case4 s b bs going next left' some taken =>
    cases h
    have room : s.isFull limit = false := by simp_all
    exact stops_takeByte (size_le_of_not_isFull room) taken

theorem stops_decode {bits : List Bool} {input rest : Bytes}
    (size : s.output.size ≤ limit + maxMatch) (few : bits.length ≤ 7)
    (h : decode limit s bits input = (s', left, rest)) : Stops limit s s' left := by
  unfold decode at h
  split at h
  · rename_i next taken
    have first := stops_takeBits size few taken
    have rest := stops_takeBytes first.size h
    exact { rest with grown := Nat.le_trans first.grown rest.grown }
  · rename_i next left' some taken
    cases h
    exact stops_takeBits size few taken

/-- With room for all that the bits can say, they are all taken. -/
theorem decode_nil {bits : List Bool} (room : s.output.size + maxMatch * bits.length ≤ limit) :
    decode limit s bits [] = (bits.foldl bit s, [], []) := by
  have all : takeBits limit s bits = (bits.foldl bit s, []) := by
    induction bits generalizing s with
    | nil => rfl
    | cons b bs ih =>
      have one := size_bit_le s b
      rw [List.length_cons, Nat.mul_succ] at room
      rw [takeBits, if_neg (by omega), ih (by omega)]
      rfl
  simp only [decode, all]
  rfl

end State

namespace Inflater

/-- What is ready has been handed out or is counted right, and what did not fit into the window is
a part of one match. -/
structure Roomy (i : Inflater) : Prop where
  inside : i.delivered + i.held ≤ i.state.output.size
  held : i.held ≤ State.maxMatch
  few : i.bits.length ≤ 7
  full : (i.held = 0 ∧ i.bits = []) ∨
    0 < i.held ∧ ∃ windows, i.state.output.size = (windows + 1) * window + i.held

theorem roomy_start : Roomy {} := ⟨Nat.le_refl _, Nat.zero_le _, Nat.zero_le _, Or.inl ⟨rfl, rfl⟩⟩

theorem roomy_failure : failure.inflater.Roomy :=
  ⟨Nat.le_refl _, Nat.zero_le _, Nat.zero_le _, Or.inl ⟨rfl, rfl⟩⟩

namespace Roomy
variable {i : Inflater}

theorem deliver (h : i.Roomy) (consumed most : Nat) : (i.deliver consumed most).inflater.Roomy where
  inside := by
    have inside := h.inside
    simp only [Inflater.deliver]
    omega
  held := h.held
  few := h.few
  full := h.full

theorem decoded {state next : State} {bits left : List Bool} {held delivered taken taken' : Nat}
    {isCutOff isCutOff' : Bool} {input rest : Bytes}
    (h : Roomy ⟨state, bits, held, delivered, taken, isCutOff⟩)
    (spent : state.output.size - held - delivered = 0)
    (decoded : state.decode (windowEnd delivered) bits input = (next, left, rest)) :
    Roomy ⟨next, left, next.output.size - windowEnd delivered, delivered, taken', isCutOff'⟩ := by
  have place := lt_windowEnd delivered
  obtain ⟨inside, small, few, _⟩ := h
  simp only at inside small few
  obtain ⟨grown, size, few', full⟩ := State.stops_decode (by omega) few decoded
  refine ⟨by simp only; omega, by simp only; omega, few', ?_⟩
  simp only
  by_cases past : windowEnd delivered < next.output.size
  · refine Or.inr ⟨by omega, delivered / window, ?_⟩
    rw [← windowEnd]
    omega
  · exact Or.inl ⟨by omega, full.resolve_right past⟩

theorem handOut {state next : State} {bits left : List Bool} {held delivered taken taken' : Nat}
    {isCutOff isCutOff' : Bool} {input rest : Bytes} {consumed most : Nat} {s : Step}
    (h : Roomy ⟨state, bits, held, delivered, taken, isCutOff⟩)
    (spent : state.output.size - held - delivered = 0)
    (decoded : state.decode (windowEnd delivered) bits input = (next, left, rest))
    (call : Inflater.deliver ⟨next, left, next.output.size - windowEnd delivered, delivered, taken',
      isCutOff'⟩ consumed most = s) :
    s.inflater.Roomy ∧ (s.produced.length < most → s.inflater.ready = 0) := by
  subst call
  refine ⟨(h.decoded spent decoded).deliver consumed most, ?_⟩
  rw [length_deliver]
  simp only [ready, Inflater.deliver]
  omega

theorem after {s : Step} (h : s.inflater.Roomy) (produced : Bytes) (consumed : Nat) :
    (s.after produced consumed).inflater.Roomy := by
  unfold Step.after
  split
  · exact roomy_failure
  · exact h

theorem advance (h : i.Roomy) (spent : i.ready = 0) (input : Bytes) (most : Nat) :
    (i.advance input most).inflater.Roomy := by
  fun_induction Inflater.advance i input most with
  | case1 => exact roomy_failure
  | case2 =>
    rename_i decoded _ _ _ _ _ _ call _ more ih
    obtain ⟨roomy, none⟩ := h.handOut spent decoded call
    exact (ih roomy (none (Nat.lt_of_sub_pos more.2.2.2))).after ..
  | case3 =>
    rename_i decoded _ _ _ _ _ _ call _ _
    exact (h.handOut spent decoded call).1

theorem step (h : i.Roomy) (input : Bytes) (most : Nat) : (i.step input most).inflater.Roomy := by
  unfold Inflater.step
  split
  · exact roomy_failure
  · split
    · exact h
    · split
      · exact h.deliver 0 most
      · rename_i none
        exact h.advance (Nat.eq_zero_of_not_pos none) input most

end Roomy

/-! ### Calls without input -/

variable {i : Inflater} {z d : Bytes} {most : Nat}

/-- Without input, all that can be decided fits into the window. -/
theorem Roomy.room (h : i.Roomy) (spent : i.ready = 0) :
    i.state.output.size + State.maxMatch * i.bits.length ≤ windowEnd i.delivered := by
  obtain ⟨inside, held, few, full⟩ := h
  have place := lt_windowEnd i.delivered
  have said := Nat.mul_le_mul_left State.maxMatch few
  simp only [ready] at spent
  rcases full with ⟨none, empty⟩ | ⟨some, windows, size⟩
  · rw [empty, List.length_nil]
    omega
  · have whole : i.delivered = (windows + 1) * window := by omega
    have next : windowEnd i.delivered = i.delivered + window := by
      rw [windowEnd, whole, Nat.mul_div_cancel _ (show 0 < window by decide), Nat.succ_mul]
    rw [next]
    simp only [State.maxMatch, window] at *
    omega

/-- Only a few bytes are decided without input. -/
theorem Roomy.size_machine_le (h : i.Roomy) (spent : i.ready = 0) :
    i.machine.output.size ≤ i.delivered + State.maxGrowth := by
  have grown := State.size_decode_le i.delivered (State.decode_nil (h.room spent))
  have said := Nat.mul_le_mul_left State.maxMatch h.few
  have inside := h.inside
  have held := h.held
  simp only [ready, List.length_nil, Nat.sub_zero, Nat.mul_zero, Nat.add_zero] at grown spent
  show (i.bits.foldl State.bit i.state).output.size ≤ _
  simp only [State.maxGrowth, State.maxMatch] at *
  omega

/-- Within the first window, nothing is. -/
theorem Roomy.size_machine_early (h : i.Roomy) (spent : i.ready = 0)
    (small : i.machine.output.size ≤ window) : i.machine.output.size ≤ i.delivered := by
  have inside := h.inside
  simp only [ready] at spent
  rcases h.full with ⟨none, empty⟩ | ⟨some, windows, size⟩
  · rw [machine, empty, List.foldl_nil]
    omega
  · -- a match that did not fit has filled a window
    have grown := (State.output_foldl_bit i.bits i.state).length_le
    have small : (i.bits.foldl State.bit i.state).output.size ≤ window := small
    simp only [Array.length_toList, Nat.succ_mul] at grown size
    omega

theorem advance_nil (room : i.state.output.size + State.maxMatch * i.bits.length ≤
    windowEnd i.delivered) (sound : i.machine.isCorrupt = false) :
    i.advance [] most = deliver ⟨i.machine, [], 0, i.delivered, i.taken,
      !i.machine.isFinished⟩ 0 most := by
  obtain ⟨state, bits, held, delivered, taken, isCutOff⟩ := i
  have decoded := State.decode_nil room
  have sound : (bits.foldl State.bit state).isCorrupt = false := sound
  have grown := State.size_decode_le 0 decoded
  simp only [List.length_nil, Nat.sub_zero, Nat.mul_zero, Nat.add_zero] at grown room
  have none : (bits.foldl State.bit state).output.size - windowEnd delivered = 0 := by omega
  simp only [advance, decoded, sound, none, List.isEmpty_nil, Bool.true_and, machine]
  simp

/-- A call that decides all that the input said has left the inflater at its end. Of the bytes that
were not handed out before, it hands out `most`. -/
structure CutsOff (i : Inflater) (most : Nat) (s : Step) : Prop where
  off : s.inflater.isCutOff
  sound : s.inflater.isCorrupt = false
  going : s.inflater.isEnded = false
  produced : s.produced = (i.machine.output.toList.drop i.delivered).take most
  /-- only a few bytes are decided that late -/
  few : i.machine.output.size ≤ i.delivered + State.maxGrowth
  /-- and only behind the first window -/
  late : i.machine.output.size ≤ window → i.machine.output.size ≤ i.delivered

theorem Roomy.cutsOff (h : i.Roomy) (spent : i.ready = 0) (sound : i.machine.isCorrupt = false)
    (going : i.machine.isFinished = false) :
    CutsOff i most (Inflater.deliver ⟨i.machine, [], 0, i.delivered, i.taken, true⟩ 0 most) where
  off := rfl
  sound := sound
  going := by simp only [isEnded, Inflater.deliver, going, Bool.false_and]
  produced := by
    simp only [Inflater.deliver, Array.toList_extract, List.extract_eq_take_drop,
      Nat.add_sub_cancel_left, Nat.sub_zero]
    rw [← Array.length_toList, ← List.length_drop, ← List.take_eq_take_min]
  few := h.size_machine_le spent
  late := h.size_machine_early spent

/-- At the end of the data, a call that hands out nothing has found it. -/
theorem produced_or_isEnded (finished : i.state.isFinished) (none : i.held = 0) (asked : 0 < most) :
    (i.deliver 0 most).produced ≠ [] ∨ (i.deliver 0 most).inflater.isEnded := by
  by_cases nothing : (i.deliver 0 most).produced = []
  · have length := length_deliver i 0 most
    rw [nothing, List.length_nil] at length
    simp only [ready] at length
    refine Or.inr ?_
    simp only [isEnded, Inflater.deliver, finished, Bool.true_and]
    exact decide_eq_true (by omega)
  · exact Or.inl nothing

theorem Owes.step_nil (h : i.Owes z d) (roomy : i.Roomy) (asked : 0 < most) :
    (Delivers i z d (i.step [] most) ∧
      ((i.step [] most).produced ≠ [] ∨ (i.step [] most).inflater.isEnded)) ∨
    (z ≠ [] ∧ CutsOff i most (i.step [] most)) := by
  rw [Inflater.step, if_neg (by rw [h.sound]; decide), if_neg (by rw [h.going]; decide)]
  split
  · rename_i ready
    refine Or.inl ⟨h.delivers most, Or.inl fun none => ?_⟩
    have length := length_deliver i 0 most
    rw [none, List.length_nil] at length
    omega
  · rename_i none
    have spent := Nat.eq_zero_of_not_pos none
    obtain ⟨output, needs, same⟩ := h.needs
    have needs : State.Needs i.machine z output := needs
    rw [advance_nil (roomy.room spent) needs.sound]
    cases finished : i.machine.isFinished with
    | true =>
      have owed : Owes ⟨i.machine, [], 0, i.delivered, i.taken, false⟩ z d :=
        ⟨rfl, output, needs, same⟩
      have paid := owed.delivers most
      exact Or.inl ⟨⟨paid.inside, paid.handed, paid.taken, paid.delivered⟩,
        produced_or_isEnded finished rfl asked⟩
    | false =>
      refine Or.inr ⟨?_, roomy.cutsOff spent needs.sound finished⟩
      rintro rfl
      exact absurd needs.finished (by rw [List.foldl_nil, finished]; decide)

end Inflater
end WebArchive.Deflate
