import WebArchive.Proofs.Deflate.Machine

/-!
What an inflater takes goes through its machine, whether the data are sound or not. Main fact:
`takes_step`.
-/
namespace WebArchive.Deflate.Inflater

/-- The machine behind all the bits that were taken. -/
def machine (i : Inflater) : State := i.bits.foldl State.bit i.state

/-- After a call the machine stands behind the bytes that the call took, or the data are corrupt. -/
def Takes (i : Inflater) (input : Bytes) (s : Step) : Prop :=
  s.inflater.isCorrupt ∨
    s.inflater.machine = (input.take s.consumed).foldl State.byte i.machine

variable {i : Inflater} {input : Bytes}

theorem takes_failure : Takes i input failure := Or.inl rfl

theorem takes_nothing {s : Step} (none : s.consumed = 0) (same : s.inflater.machine = i.machine) :
    Takes i input s := by
  rw [Takes, none]
  exact Or.inr same

theorem Takes.after {next : Inflater} {produced : Bytes} {consumed : Nat} {s : Step}
    (first : next.machine = (input.take consumed).foldl State.byte i.machine)
    (second : Takes next (input.drop consumed) s) : Takes i input (s.after produced consumed) := by
  rw [Step.after]
  split
  · exact takes_failure
  · rename_i sound
    refine Or.inr ((second.resolve_left sound).trans ?_)
    rw [first, ← List.foldl_append, ← List.take_add]

theorem takes_advance (i : Inflater) (input : Bytes) (most : Nat) :
    Takes i input (i.advance input most) := by
  have handed {state next : State} {bits left : List Bool} {held held' delivered taken most : Nat}
      {isCutOff isCutOff' : Bool} {input rest : Bytes} {limit : Nat} {s : Step}
      (decoded : state.decode limit bits input = (next, left, rest))
      (call : deliver ⟨next, left, held', delivered, taken, isCutOff'⟩
        (input.length - rest.length) most = s) :
      s.inflater.machine = (input.take s.consumed).foldl State.byte
        (machine ⟨state, bits, held, delivered, taken, isCutOff⟩) ∧
        input.drop s.consumed = rest := by
    obtain ⟨front, rfl, after⟩ := State.decode_eq decoded
    rw [List.length_append, Nat.add_sub_cancel] at call
    subst call
    exact ⟨after.trans (by rw [deliver, List.take_left]; rfl), List.drop_left⟩
  fun_induction advance i input most with
  | case1 => exact takes_failure
  | case2 =>
    rename_i decoded _ _ _ _ _ _ call _ _ ih
    obtain ⟨first, left⟩ := handed decoded call
    refine Takes.after first ?_
    simp only at left
    rwa [left]
  | case3 =>
    rename_i decoded _ _ _ _ _ _ call _ _
    exact Or.inr (handed decoded call).1

theorem isCorrupt_step {i : Inflater} (h : i.isCorrupt) (input : Bytes) (most : Nat) :
    (i.step input most).inflater.isCorrupt := by
  rw [step, if_pos h]
  rfl

theorem takes_step (i : Inflater) (input : Bytes) (most : Nat) :
    Takes i input (i.step input most) := by
  unfold step
  split
  · exact takes_failure
  · split
    · exact takes_nothing rfl rfl
    · split
      · exact takes_nothing rfl rfl
      · exact takes_advance i input most

end WebArchive.Deflate.Inflater
