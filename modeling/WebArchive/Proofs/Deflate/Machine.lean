import WebArchive.Deflate.Bits
import WebArchive.Deflate.Inflater

/-!
The inflating machine on data that it accepts. Its output only grows, it stays finished or corrupt
once it is, and it takes no byte behind the end. `Encodes` says that bytes are the whole of some
compressed data.
-/
namespace WebArchive.Deflate

namespace State

/-! ### The output only grows -/

theorem output_copyMatch (length distance : Nat) (output : Array UInt8) :
    output.toList <+: (copyMatch length distance output).toList := by
  have pushed : ∀ n, output.toList <+: (Nat.repeat (fun out => out.push (out.getD (out.size -
      distance) 0)) n output).toList := by
    intro n
    induction n with
    | zero => exact List.prefix_rfl
    | succ n ih =>
      rw [Nat.repeat, Array.toList_push]
      exact ih.trans (List.prefix_append ..)
  exact pushed _

theorem output_emitMatch (s : State) (codes : Codes) (length distance : Nat) :
    s.output.toList <+: (s.emitMatch codes length distance).output.toList := by
  unfold emitMatch
  split
  · exact List.prefix_rfl
  · exact output_copyMatch length distance s.output

theorem output_literalSymbol (s : State) (codes : Codes) (symbol : Nat) :
    s.output.toList <+: (s.literalSymbol codes symbol).output.toList := by
  unfold literalSymbol
  split
  · show s.output.toList <+: (s.output.push _).toList
    rw [Array.toList_push]
    exact List.prefix_append ..
  · split
    · exact List.prefix_rfl
    · split <;> exact List.prefix_rfl

theorem output_distanceSymbol (s : State) (codes : Codes) (length symbol : Nat) :
    s.output.toList <+: (s.distanceSymbol codes length symbol).output.toList := by
  unfold distanceSymbol
  split
  · exact output_emitMatch ..
  · exact List.prefix_rfl
  · exact List.prefix_rfl

theorem output_reachedNumber (s : State) (goal : Goal) (value : Nat) :
    s.output.toList <+: (s.reachedNumber goal value).output.toList := by
  cases goal with
  | blockHeader =>
    simp only [reachedNumber]
    split
    · exact List.prefix_rfl
    · split
      · exact (output_beginCompressed ..).symm ▸ List.prefix_rfl
      · split <;> exact List.prefix_rfl
  | sizes =>
    simp only [reachedNumber]
    split <;> exact List.prefix_rfl
  | lengthCode sizes read =>
    simp only [reachedNumber]
    split
    · exact List.prefix_rfl
    · split <;> exact List.prefix_rfl
  | repetition sizes code lengths length least =>
    exact (output_withLengths ..).symm ▸ List.prefix_rfl
  | matchLength codes base => exact List.prefix_rfl
  | matchDistance codes length base => exact output_emitMatch ..

theorem output_bit (s : State) (b : Bool) : s.output.toList <+: (s.bit b).output.toList := by
  unfold bit
  split
  · dsimp only
    split
    · exact output_reachedNumber ..
    · exact List.prefix_rfl
  · split
    · exact (output_lengthSymbol ..).symm ▸ List.prefix_rfl
    · exact List.prefix_rfl
    · exact List.prefix_rfl
  · split
    · exact output_literalSymbol ..
    · exact List.prefix_rfl
    · exact List.prefix_rfl
  · split
    · exact output_distanceSymbol ..
    · exact List.prefix_rfl
    · exact List.prefix_rfl
  all_goals exact List.prefix_rfl

theorem output_foldl_bit (bs : List Bool) (s : State) :
    s.output.toList <+: (bs.foldl bit s).output.toList := by
  induction bs generalizing s with
  | nil => exact List.prefix_rfl
  | cons b bs ih => exact (output_bit s b).trans (ih (s.bit b))

theorem output_byte (s : State) (b : UInt8) : s.output.toList <+: (s.byte b).output.toList := by
  unfold byte
  split
  · unfold storedHeader
    dsimp only
    split
    · exact List.prefix_rfl
    · split
      · exact List.prefix_rfl
      · split <;> exact List.prefix_rfl
  · rename_i left _
    have grown : s.output.toList <+: (s.output.push b).toList := by
      rw [Array.toList_push]
      exact List.prefix_append ..
    unfold storedByte
    dsimp only
    split <;> exact grown
  · exact List.prefix_rfl
  · exact List.prefix_rfl
  · exact output_foldl_bit (bits b) s

theorem output_foldl_byte (bs : Bytes) (s : State) :
    s.output.toList <+: (bs.foldl byte s).output.toList := by
  induction bs generalizing s with
  | nil => exact List.prefix_rfl
  | cons b bs ih => exact (output_byte s b).trans (ih (s.byte b))

/-! ### The end is final -/

theorem mode_of_isFinished {s : State} (h : s.isFinished) : s.mode = .finished := by
  unfold isFinished at h
  split at h
  · assumption
  · simp at h

theorem mode_of_isCorrupt {s : State} (h : s.isCorrupt) : s.mode = .corrupt := by
  unfold isCorrupt at h
  split at h
  · assumption
  · simp at h

theorem foldl_bit_of_isFinished {s : State} (h : s.isFinished) (bs : List Bool) :
    bs.foldl bit s = s :=
  foldl_bit_of_stays (bit_of_finished (mode_of_isFinished h)) bs

theorem foldl_bit_of_isCorrupt {s : State} (h : s.isCorrupt) (bs : List Bool) :
    bs.foldl bit s = s :=
  foldl_bit_of_stays (fun _ => by simp [bit, mode_of_isCorrupt h]) bs

theorem foldl_byte_of_isFinished {s : State} (h : s.isFinished) (bs : Bytes) :
    bs.foldl byte s = s := by
  induction bs with
  | nil => rfl
  | cons b bs ih =>
    have same : s.byte b = s := by simp [byte, mode_of_isFinished h]
    rw [List.foldl_cons, same, ih]

theorem foldl_byte_of_isCorrupt {s : State} (h : s.isCorrupt) (bs : Bytes) :
    bs.foldl byte s = s := by
  induction bs with
  | nil => rfl
  | cons b bs ih =>
    have same : s.byte b = s := by simp [byte, mode_of_isCorrupt h]
    rw [List.foldl_cons, same, ih]

theorem not_isCorrupt_of_isFinished {s : State} (h : s.isFinished) : s.isCorrupt = false := by
  simp [isCorrupt, mode_of_isFinished h]

/-! ### What the machine takes -/

theorem isHalted_of_room {s : State} {limit : Nat}
    (room : ¬ (s.isHalted || s.isFull limit) = true) :
    s.isHalted = false := by
  rw [Bool.or_eq_true, not_or] at room
  exact Bool.eq_false_iff.mpr room.1

theorem takeBytes_live {limit : Nat} {s s' : State} {bs rest : Bytes} {left : List Bool}
    (h : takeBytes limit s bs = (s', left, rest)) :
    ∃ front, bs = front ++ rest ∧ left.foldl bit s' = front.foldl byte s ∧
      ∀ p, p <+: front → p ≠ front → (p.foldl byte s).isHalted = false := by
  fun_induction takeBytes limit s bs with
  | case1 =>
    simp only [Prod.mk.injEq] at h
    obtain ⟨rfl, rfl, rfl⟩ := h
    exact ⟨[], rfl, rfl, fun p part other => absurd (List.prefix_nil.mp part) other⟩
  | case2 =>
    simp only [Prod.mk.injEq] at h
    obtain ⟨rfl, rfl, rfl⟩ := h
    exact ⟨[], rfl, rfl, fun p part other => absurd (List.prefix_nil.mp part) other⟩
  | case3 s b bs room next taken ih =>
    obtain ⟨front, same, after, live⟩ := ih h
    have one : next = s.byte b := takeByte_eq taken
    refine ⟨b :: front, by rw [same]; rfl, by rw [after, one]; rfl, fun p part other => ?_⟩
    rcases List.prefix_cons_iff.mp part with rfl | ⟨q, rfl, inner⟩
    · exact isHalted_of_room room
    · rw [List.foldl_cons, ← one]
      exact live q inner fun whole => other (by rw [whole])
  | case4 s b bs room next left' some taken =>
    simp only [Prod.mk.injEq] at h
    obtain ⟨rfl, rfl, rfl⟩ := h
    refine ⟨[b], rfl, takeByte_eq taken, fun p part other => ?_⟩
    rcases List.prefix_cons_iff.mp part with rfl | ⟨q, rfl, inner⟩
    · exact isHalted_of_room room
    · exact absurd (by rw [List.prefix_nil.mp inner]) other

theorem decode_live {limit : Nat} {s s' : State} {bits left : List Bool} {input rest : Bytes}
    (h : decode limit s bits input = (s', left, rest)) :
    ∃ front, input = front ++ rest ∧ left.foldl bit s' = front.foldl byte (bits.foldl bit s) ∧
      ∀ p, p <+: front → p ≠ front → (p.foldl byte (bits.foldl bit s)).isHalted = false := by
  unfold decode at h
  split at h
  · rename_i next taken
    have caught : next = bits.foldl bit s := takeBits_eq taken
    rw [← caught]
    exact takeBytes_live h
  · rename_i next left' _ taken
    simp only [Prod.mk.injEq] at h
    obtain ⟨rfl, rfl, rfl⟩ := h
    exact ⟨[], rfl, takeBits_eq taken, fun p part other => absurd (List.prefix_nil.mp part) other⟩

/-- From `s` on, `z` is exactly what the machine needs to finish, and it has `output` then. -/
structure Needs (s : State) (z output : Bytes) : Prop where
  finished : (z.foldl byte s).isFinished
  output : (z.foldl byte s).output.toList = output
  whole : ∀ p, p <+: z → p ≠ z → (p.foldl byte s).isFinished = false

namespace Needs
variable {s : State} {z output : Bytes}

theorem eq_nil (h : Needs s z output) (done : s.isFinished) : z = [] := by
  cases z with
  | nil => rfl
  | cons b bs =>
    have going : s.isFinished = false := h.whole [] List.nil_prefix (by simp)
    rw [done] at going
    exact absurd going (by decide)

theorem output_isPrefix (h : Needs s z output) : s.output.toList <+: output := by
  rw [← h.output]
  exact output_foldl_byte z s

theorem sound (h : Needs s z output) : s.isCorrupt = false := by
  cases corrupt : s.isCorrupt with
  | false => rfl
  | true =>
    have finished := h.finished
    rw [foldl_byte_of_isCorrupt corrupt] at finished
    rw [← corrupt, not_isCorrupt_of_isFinished finished]

theorem rest {front left : Bytes} (h : Needs s (front ++ left) output) :
    Needs (front.foldl byte s) left output where
  finished := by
    rw [← List.foldl_append]
    exact h.finished
  output := by
    rw [← List.foldl_append]
    exact h.output
  whole p part other := by
    rw [← List.foldl_append]
    exact h.whole (front ++ p) ((List.prefix_append_right_inj front).mpr part)
      fun same => other (List.append_cancel_left same)

theorem front_isPrefix {front behind left : Bytes} (h : Needs s z output)
    (same : z ++ behind = front ++ left)
    (live : ∀ p, p <+: front → p ≠ front → (p.foldl byte s).isHalted = false) : front <+: z := by
  by_cases short : front.length ≤ z.length
  · exact List.prefix_of_prefix_length_le ⟨left, same.symm⟩ (List.prefix_append z behind) short
  · have part : z <+: front :=
      List.prefix_of_prefix_length_le (List.prefix_append z behind) ⟨left, same.symm⟩ (by omega)
    have going := live z part fun whole => short (Nat.le_of_eq (congrArg _ whole.symm))
    simp [isHalted, h.finished] at going

/-- A machine that finishes on some bytes has finished on a front of them that it needs whole. -/
theorem exists_front {s : State} {bs : Bytes} (h : (bs.foldl byte s).isFinished) :
    ∃ front left output, bs = front ++ left ∧ Needs s front output := by
  induction bs generalizing s with
  | nil =>
    exact ⟨[], [], _, rfl, h, rfl, fun p part other => absurd (List.prefix_nil.mp part) other⟩
  | cons b bs ih =>
    by_cases done : s.isFinished
    · exact ⟨[], b :: bs, _, rfl, done, rfl,
        fun p part other => absurd (List.prefix_nil.mp part) other⟩
    · obtain ⟨front, left, output, rfl, needs⟩ := ih h
      refine ⟨b :: front, left, output, rfl, needs.finished, needs.output, fun p part other => ?_⟩
      rcases List.prefix_cons_iff.mp part with rfl | ⟨q, rfl, inner⟩
      · exact Bool.eq_false_iff.mpr done
      · exact needs.whole q inner fun whole => other (by rw [whole])

end Needs
end State

/-- The bytes are the whole of some compressed data, which inflate to `d`. -/
def Encodes (z d : Bytes) : Prop := State.Needs {} z d

end WebArchive.Deflate
