import WebArchive.Proofs.Deflate.Machine

/-!
Inflating by calls gives the data back. An inflater owes the data that its machine has not handed
out; whatever is in sight and however much is asked for, a call pays some of them off and takes no
byte behind the end of the compressed data.
-/
namespace WebArchive.Deflate.Inflater

/-- The inflater needs exactly `z` more to hand out `d`. -/
structure Owes (i : Inflater) (z d : Bytes) : Prop where
  going : i.isCutOff = false
  needs : ∃ output, State.Needs (i.bits.foldl State.bit i.state) z output ∧
    d = output.drop i.delivered

/-- What one call pays off. -/
structure Delivers (i : Inflater) (z d : Bytes) (s : Step) : Prop where
  inside : s.consumed ≤ z.length
  handed : ∃ left, d = s.produced ++ left ∧ s.inflater.Owes (z.drop s.consumed) left
  taken : s.inflater.taken = i.taken + s.consumed
  delivered : s.inflater.delivered = i.delivered + s.produced.length

variable {i : Inflater} {z d : Bytes}

theorem owes_start (h : Encodes z d) : Owes {} z d := ⟨rfl, d, h, rfl⟩

namespace Owes

theorem sound (h : i.Owes z d) : i.isCorrupt = false := by
  obtain ⟨output, needs, _⟩ := h.needs
  cases corrupt : i.isCorrupt with
  | false => rfl
  | true =>
    have sound := needs.sound
    rw [State.foldl_bit_of_isCorrupt corrupt] at sound
    exact absurd (corrupt.symm.trans sound) (by decide)

theorem ended (h : i.Owes z d) (ended : i.isEnded) : z = [] ∧ d = [] := by
  obtain ⟨output, needs, rfl⟩ := h.needs
  simp only [isEnded, Bool.and_eq_true, decide_eq_true_eq] at ended
  rw [State.foldl_bit_of_isFinished ended.1] at needs
  obtain rfl := needs.eq_nil ended.1
  refine ⟨rfl, ?_⟩
  rw [← needs.output]
  exact List.drop_eq_nil_of_le (by simpa using ended.2)

theorem deliver (h : i.Owes z d) (consumed most : Nat) :
    ∃ left, d = (i.deliver consumed most).produced ++ left ∧
      (i.deliver consumed most).inflater.Owes z left := by
  obtain ⟨going, output, needs, rfl⟩ := h
  obtain ⟨state, bits, held, delivered, taken, isCutOff⟩ := i
  have few : min most (state.output.size - held - delivered) ≤ state.output.size - delivered := by
    omega
  generalize count : min most (state.output.size - held - delivered) = n at few
  have grown : state.output.toList <+: output :=
    (State.output_foldl_bit bits state).trans needs.output_isPrefix
  have front : (state.output.toList.drop delivered).take n = (output.drop delivered).take n := by
    obtain ⟨more, rfl⟩ := grown
    -- nothing is ready if more is delivered than there is
    by_cases inside : delivered ≤ state.output.size
    · rw [List.drop_append_of_le_length (by simpa using inside),
        List.take_append_of_le_length (by simpa using few)]
    · obtain rfl : n = 0 := by omega
      rfl
  refine ⟨output.drop (delivered + n), ?_, going, output, needs, ?_⟩
  · show output.drop delivered =
      (state.output.extract delivered (delivered + min most _)).toList ++ _
    rw [count, Array.toList_extract, List.extract_eq_take_drop, Nat.add_sub_cancel_left, front,
      ← List.drop_drop, List.take_append_drop]
  · simp only [Inflater.deliver, count]

theorem decoded {state next : State} {bits left : List Bool} {held delivered taken limit : Nat}
    {z behind rest input : Bytes} (held' : Nat)
    (h : Owes ⟨state, bits, held, delivered, taken, false⟩ z d) (near : input <+: z ++ behind)
    (decoded : state.decode limit bits input = (next, left, rest)) :
    ∃ front, input = front ++ rest ∧ front <+: z ∧
      Owes ⟨next, left, held', delivered, taken, false⟩ (z.drop front.length) d := by
  obtain ⟨_, output, needs, same⟩ := h
  obtain ⟨front, rfl, after, live⟩ := State.decode_live decoded
  obtain ⟨more, near⟩ := near
  have whole : z ++ behind = front ++ (rest ++ more) := by rw [← List.append_assoc, near]
  have inside : front <+: z := needs.front_isPrefix whole live
  obtain ⟨back, rfl⟩ := inside
  refine ⟨front, rfl, List.prefix_append front back, rfl, output, ?_, same⟩
  rw [List.drop_left]
  show State.Needs (left.foldl State.bit next) back output
  rw [after]
  exact needs.rest

theorem handOut {state next : State} {bits left : List Bool} {held held' delivered taken most : Nat}
    {isCutOff : Bool} {z behind input rest : Bytes} {limit : Nat} {s : Step}
    (h : Owes ⟨state, bits, held, delivered, taken, isCutOff⟩ z d) (near : input <+: z ++ behind)
    (shown : input ≠ []) (decoded : state.decode limit bits input = (next, left, rest))
    (call : Inflater.deliver ⟨next, left, held', delivered, taken,
      input.isEmpty && !next.isFinished⟩ (input.length - rest.length) most = s) :
    Delivers ⟨state, bits, held, delivered, taken, isCutOff⟩ z d s ∧
      rest <+: z.drop s.consumed ++ behind := by
  obtain rfl : isCutOff = false := h.going
  obtain ⟨front, rfl, inside, owed⟩ := h.decoded held' near decoded
  have open' : ((front ++ rest).isEmpty && !next.isFinished) = false := by
    rw [List.isEmpty_eq_false_iff.mpr shown, Bool.false_and]
  have count : (front ++ rest).length - rest.length = front.length := by
    rw [List.length_append, Nat.add_sub_cancel]
  rw [open', count] at call
  obtain ⟨more, same, after⟩ := owed.deliver front.length most
  have handed := congrArg List.length same
  subst call
  refine ⟨⟨inside.length_le, ⟨more, same, after⟩, rfl, ?_⟩, ?_⟩
  · rw [length_deliver]
    rfl
  · show rest <+: z.drop front.length ++ behind
    obtain ⟨back, rfl⟩ := inside
    rw [List.append_assoc, List.prefix_append_right_inj] at near
    rwa [List.drop_left]

end Owes

namespace Delivers

theorem after {produced : Bytes} {consumed : Nat} {next : Inflater} {s : Step}
    (first : Delivers i z d ⟨produced, consumed, next⟩)
    (second : ∀ left, next.Owes (z.drop consumed) left → Delivers next (z.drop consumed) left s) :
    Delivers i z d (s.after produced consumed) := by
  obtain ⟨left, rfl, owed⟩ := first.handed
  obtain ⟨inside, ⟨rest, rfl, still⟩, taken, delivered⟩ := second left owed
  rw [Step.after, if_neg (by rw [still.sound]; decide)]
  have begun := first.inside
  have one := first.taken
  have two := first.delivered
  simp only [List.length_drop, List.drop_drop] at inside begun one two still
  refine ⟨?_, ⟨rest, (List.append_assoc ..).symm, still⟩, ?_, ?_⟩
  · show consumed + s.consumed ≤ z.length
    omega
  · show s.inflater.taken = i.taken + (consumed + s.consumed)
    omega
  · show s.inflater.delivered = i.delivered + (produced ++ s.produced).length
    rw [List.length_append]
    omega

end Delivers

theorem Owes.advance (h : i.Owes z d) {behind input : Bytes} (near : input <+: z ++ behind)
    (shown : input ≠ []) (most : Nat) : Delivers i z d (i.advance input most) := by
  -- one case for corrupt data, one for a window with more to come behind it, one for the last
  fun_induction Inflater.advance i input most generalizing z d with
  | case1 =>
    rename_i held _ isCutOff _ _ _ _ _ _ decoded corrupt
    obtain rfl : isCutOff = false := h.going
    obtain ⟨_, _, _, owed⟩ := h.decoded held near decoded
    exact absurd (owed.sound.symm.trans corrupt) (by decide)
  | case2 =>
    rename_i decoded _ _ _ _ _ _ call _ more ih
    obtain ⟨first, near'⟩ := h.handOut near shown decoded call
    exact first.after fun left owed => ih owed near' more.1
  | case3 =>
    rename_i decoded _ _ _ _ _ _ call _ _
    exact (h.handOut near shown decoded call).1

/-- Handing out what is ready takes nothing. -/
theorem Owes.delivers (h : i.Owes z d) (most : Nat) : Delivers i z d (i.deliver 0 most) := by
  obtain ⟨left, same, owed⟩ := h.deliver 0 most
  refine ⟨Nat.zero_le _, ⟨left, same, owed⟩, rfl, ?_⟩
  rw [length_deliver]
  rfl

/-- A call with input in sight, of which the owed part comes first. -/
theorem Owes.step (h : i.Owes z d) {behind input : Bytes} (near : input <+: z ++ behind)
    (shown : input ≠ []) (most : Nat) : Delivers i z d (i.step input most) := by
  rw [Inflater.step, if_neg (by rw [h.sound]; decide), if_neg (by simp [shown])]
  split
  · exact h.delivers most
  · exact h.advance near shown most

end WebArchive.Deflate.Inflater
