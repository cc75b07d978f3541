import WebArchive.Proofs.Archive.Opening
import WebArchive.Proofs.Archive.Visits

/-!
The count of records that an archive keeps, over any source and any number of calls. It is the
number of records returned, and one more for each call that finds the heading of a version block
and fails in its content. Main fact: `counts_records`.
-/
namespace WebArchive

namespace Archive
variable {ρ σ : Type} [Readable σ] [Archive ρ σ]

/-- Asks for the next record. One that comes is used and left. -/
def visit (a : ρ) (actions : List Action) : ρ :=
  match next a with
  | (.ok (some record), a) => resume a (record.use actions).2.stream
  | (_, a) => a

def visits (a : ρ) (uses : List (List Action)) : ρ := uses.foldl visit a

/-- How many calls of a run are made when `p` holds. -/
def tally (p : ρ → Bool) (a : ρ) : List (List Action) → Nat
  | [] => 0
  | actions :: uses => (p a).toNat + tally p (visit a actions) uses

/-- The next call returns a record. -/
def returns (a : ρ) : Bool := (next a).1.toOption.join.isSome

def returned (a : ρ) (uses : List (List Action)) : Nat := tally returns a uses

/-- The calls on an archive touch its dialect and its count as calls do, and nothing else does. -/
structure Counts (dialect : ρ → Dialect) (stumbles : ρ → Bool) : Prop where
  next : ∀ a : ρ, ∃ options, Call options (dialect a) (count a) (stumbles a) (next a).1
    (dialect (next a).2) (count (next a).2)
  dialect_resume : ∀ (a : ρ) (s : σ), dialect (resume a s) = dialect a
  count_resume : ∀ (a : ρ) (s : σ), count (resume a s) = count a

namespace Counts
variable {dialect : ρ → Dialect} {stumbles : ρ → Bool} {a : ρ}

theorem visit_eq (h : Counts dialect stumbles) (a : ρ) (actions : List Action) :
    dialect (visit a actions) = dialect (Archive.next a).2 ∧
      count (visit a actions) = count (Archive.next a).2 := by
  unfold visit
  split <;> rename_i call <;> rw [call]
  · exact ⟨h.dialect_resume .., h.count_resume ..⟩
  · exact ⟨rfl, rfl⟩

theorem count_visits (h : Counts dialect stumbles) (a : ρ) (uses : List (List Action)) :
    count (visits a uses) = count a + returned a uses + tally stumbles a uses := by
  induction uses generalizing a with
  | nil => rfl
  | cons actions uses ih =>
    obtain ⟨options, call⟩ := h.next a
    have one : count (visit a actions) = count a + (returns a).toNat + (stumbles a).toNat :=
      (h.visit_eq a actions).2.trans call.count_eq
    have run := ih (visit a actions)
    simp only [visits, returned, tally, List.foldl_cons] at run ⊢
    rw [run, one]
    omega

theorem tally_settled (h : Counts dialect stumbles) (settled : dialect a ≠ .arc none)
    (uses : List (List Action)) : tally stumbles a uses = 0 := by
  induction uses generalizing a with
  | nil => rfl
  | cons actions uses ih =>
    obtain ⟨options, call⟩ := h.next a
    obtain ⟨never, after⟩ := call.settled settled
    rw [tally, never, ih ((h.visit_eq a actions).1 ▸ after)]
    rfl

end Counts
end Archive

open Archive

theorem PlainArchive.counts : Counts PlainArchive.dialect stumbles where
  next a := ⟨a.options, a.call_next⟩
  dialect_resume _ _ := rfl
  count_resume _ _ := rfl

theorem PackedArchive.counts : Counts PackedArchive.dialect stumbles where
  next a := ⟨a.options, a.call_next⟩
  dialect_resume _ _ := rfl
  count_resume _ _ := rfl

/-- A WARC archive counts the records it has returned, whatever fails. An ARC archive also counts
the calls that find its version block and cannot read it to the end; there are none any more once
its version is known. -/
theorem counts_records (source : Source) (options : ReaderOptions) (uses : List (List Action)) :
    (visits (PlainArchive.warc source options) uses).count =
        returned (PlainArchive.warc source options) uses ∧
    (visits (PackedArchive.warc source options) uses).count =
        returned (PackedArchive.warc source options) uses ∧
    ((visits (PlainArchive.arc source options) uses).count =
        returned (PlainArchive.arc source options) uses +
          tally PlainArchive.stumbles (PlainArchive.arc source options) uses ∧
      ∀ more, (visits (PlainArchive.arc source options) uses).dialect = .arc none ∨
        tally PlainArchive.stumbles (visits (PlainArchive.arc source options) uses) more = 0) ∧
    ((visits (PackedArchive.arc source options) uses).count =
        returned (PackedArchive.arc source options) uses +
          tally PackedArchive.stumbles (PackedArchive.arc source options) uses ∧
      ∀ more, (visits (PackedArchive.arc source options) uses).dialect = .arc none ∨
        tally PackedArchive.stumbles (visits (PackedArchive.arc source options) uses)
          more = 0) := by
  have plain := PlainArchive.counts
  have packed := PackedArchive.counts
  refine ⟨?_, ?_, ⟨?_, fun more => ?_⟩, ?_, fun more => ?_⟩
  · have run := plain.count_visits (.warc source options) uses
    rw [plain.tally_settled (by simp [PlainArchive.warc])] at run
    exact run.trans (Nat.zero_add _)
  · have run := packed.count_visits (.warc source options) uses
    rw [packed.tally_settled (by simp [PackedArchive.warc])] at run
    exact run.trans (Nat.zero_add _)
  · have run := plain.count_visits (.arc source options) uses
    exact run.trans (congrArg (· + _) (Nat.zero_add _))
  · exact Decidable.or_iff_not_imp_left.mpr fun settled => plain.tally_settled settled more
  · have run := packed.count_visits (.arc source options) uses
    exact run.trans (congrArg (· + _) (Nat.zero_add _))
  · exact Decidable.or_iff_not_imp_left.mpr fun settled => packed.tally_settled settled more

/-- The header of a version block, and a failure in front of its content. -/
def unreadBlock : Source where
  events :=
    [.chunk [0x66, 0x69, 0x6C, 0x65, 0x64, 0x65, 0x73, 0x63, 0x3A, 0x2F, 0x2F, 0x61, 0x20, 0x30,
        0x2E, 0x30, 0x2E, 0x30, 0x2E, 0x30, 0x20, 0x32, 0x30, 0x30, 0x38, 0x30, 0x34, 0x33, 0x30,
        0x32, 0x30, 0x34, 0x38, 0x32, 0x35, 0x20, 0x74, 0x65, 0x78, 0x74, 0x2F, 0x70, 0x6C, 0x61,
        0x69, 0x6E, 0x20, 0x31, 0x30, 0x0A],
      .failure (.device .other "injected Other")]

/-- One call that fails, and one record in the count. -/
theorem count_unreadBlock :
    (visits (PlainArchive.arc unreadBlock) [[]]).count = 1 ∧
      returned (PlainArchive.arc unreadBlock) [[]] = 0 := by
  decide +kernel

end WebArchive
