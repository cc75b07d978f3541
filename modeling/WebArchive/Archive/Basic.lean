import WebArchive.Archive.Error
import WebArchive.Gzip.Member
import WebArchive.Record.Basic

/-!
What archives have in common: they hand out one record after the other. A record is read on its
own, and its stream is given back before the next one is asked for. Each record uses up some of
the weight of the archive, so there is an end.
-/
namespace WebArchive

class Archive (ρ : Type) (σ : outParam Type) [Readable σ] where
  /-- The next record, behind the one before; none at the end. -/
  next : ρ → Outcome ArchiveError ρ (Option (Record σ))
  /-- Goes on behind what a record has read of its stream. -/
  resume : ρ → σ → ρ
  count : ρ → Nat
  /-- Collects what is known of the members that are over. -/
  takeCompleted : ρ → List Gzip.Member × ρ
  /-- Collects the mismatches noticed in members. -/
  takeNotices : ρ → List Gzip.Notice × ρ
  weight : ρ → Nat
  weight_next : ∀ {a a' record}, next a = (.ok (some record), a') →
    Readable.weight record.stream < weight a
  weight_resume_le : ∀ {a s}, weight (resume a s) ≤ Readable.weight s
  weight_takeCompleted : ∀ {a}, weight (takeCompleted a).2 = weight a
  weight_takeNotices : ∀ {a}, weight (takeNotices a).2 = weight a

end WebArchive
