import WebArchive.Archive.Packed
import WebArchive.Archive.Plain

/-!
What a call for the next record comes to. A heading that is found counts as a record, also when the
record behind it cannot be opened then, which happens to version blocks alone. Main facts:
`PlainArchive.call_next`, `PackedArchive.call_next` and `Dialect.openRecord_error`.
-/
namespace WebArchive

variable {σ : Type} [Readable σ]

theorem Dialect.openRecord_error {dialect : Dialect} {options : ReaderOptions} {heading : Heading}
    {stream s : σ} {e : StreamError}
    (h : dialect.openRecord options heading stream = (.error e, s)) : dialect = .arc none := by
  unfold openRecord at h
  split at h
  · rfl
  · simp at h

/-- What a call does to the dialect and the count of an archive, with the answer that it gives.
It stumbles if it finds a heading and cannot open the record behind it. -/
inductive Archive.Call (options : ReaderOptions) (dialect : Dialect) (count : Nat) :
    Bool → Except ArchiveError (Option (Record σ)) → Dialect → Nat → Prop
  | failed (e : ArchiveError) : Call options dialect count false (.error e) dialect count
  | ended : Call options dialect count false (.ok none) dialect count
  | opened {heading : Heading} {stream s : σ} {record : Record σ}
      (call : dialect.openRecord options heading stream = (.ok record, s)) :
      Call options dialect count false (.ok (some record)) (dialect.after record) (count + 1)
  | stumbled {heading : Heading} {stream s : σ} {e : StreamError}
      (call : dialect.openRecord options heading stream = (.error e, s)) :
      Call options dialect count true (.error (.stream e)) dialect (count + 1)

namespace Archive.Call
variable {options : ReaderOptions} {dialect dialect' : Dialect} {count count' : Nat}
  {stumbles : Bool} {answer : Except ArchiveError (Option (Record σ))}

theorem count_eq (h : Call options dialect count stumbles answer dialect' count') :
    count' = count + answer.toOption.join.isSome.toNat + stumbles.toNat := by
  cases h <;> rfl

/-- Once the version of an archive is settled, every heading that is found gives a record. -/
theorem settled (h : Call options dialect count stumbles answer dialect' count')
    (settled : dialect ≠ .arc none) : stumbles = false ∧ dialect' ≠ .arc none := by
  cases h with
  | failed e => exact ⟨rfl, settled⟩
  | ended => exact ⟨rfl, settled⟩
  | opened call =>
    refine ⟨rfl, ?_⟩
    unfold Dialect.after
    split
    · simp
    · exact settled
  | stumbled call => exact absurd (Dialect.openRecord_error call) settled

end Archive.Call

namespace PlainArchive

/-- The next call finds a heading, and cannot open the record behind it. -/
def stumbles (a : PlainArchive) : Bool :=
  match a.seek with
  | (.ok (some heading), input) => (a.dialect.openRecord a.options heading input).1.toOption.isNone
  | _ => false

theorem call_next (a : PlainArchive) :
    Archive.Call a.options a.dialect a.count a.stumbles a.next.1 a.next.2.dialect
      a.next.2.count := by
  unfold next stumbles
  rcases a.seek with ⟨e | _ | heading, input⟩
  · exact .failed _
  · exact .ended
  · rcases call : a.dialect.openRecord a.options heading input with ⟨e | record, s⟩ <;>
      simp only [enter, call]
    · exact .stumbled call
    · exact .opened call

end PlainArchive

namespace PackedArchive

/-- The next call finds a heading, and cannot open the record behind it. -/
def stumbles (a : PackedArchive) : Bool :=
  match a.packed.seek (look a.dialect a.options) with
  | (.ok (some (heading, peek)), _) =>
    (a.dialect.openRecord a.options heading (rejoin peek)).1.toOption.isNone
  | _ => false

theorem call_next (a : PackedArchive) :
    Archive.Call a.options a.dialect a.count a.stumbles a.next.1 a.next.2.dialect
      a.next.2.count := by
  unfold next stumbles
  rcases a.packed.seek (look a.dialect a.options) with ⟨e | _ | ⟨heading, peek⟩, packed⟩
  · exact .failed _
  · exact .ended
  · rcases call : a.dialect.openRecord a.options heading (rejoin peek) with ⟨e | record, s⟩ <;>
      simp only [enter, call]
    · exact .stumbled call
    · exact .opened call

end PackedArchive
end WebArchive
