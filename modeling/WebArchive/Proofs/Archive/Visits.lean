import WebArchive.Archive.Basic
import WebArchive.Archive.Dialect
import WebArchive.Proofs.Arc.VersionBlock
import WebArchive.Proofs.Record.Use

/-!
Runs over an archive: the next record is asked for, used in some way, and left. `Archive.Yields`
says what all the answers of a run are, and `openRecord_eq` that a record shows what its heading
and the bytes behind it determine, whatever happens to it.
-/
namespace WebArchive

namespace Record
variable {σ : Type}

/-- What there is to see of a record; a version block has been read already. -/
inductive Sight where
  | versionBlock (block : Arc.VersionBlock)
  | content (sight : ContentRecord.Sight)

variable [Readable σ]

def use (r : Record σ) (actions : List Action) : Bytes × Record σ :=
  match r with
  | .versionBlock block stream => ([], .versionBlock block stream)
  | .content r => ((r.use actions).1, .content (r.use actions).2)

def Shows : Record σ → Sight → Prop
  | .versionBlock block _, .versionBlock block' => block = block'
  | .content r, .content sight => r.Shows sight
  | _, _ => False

theorem Shows.unique {r : Record σ} {sight sight' : Sight} (h : r.Shows sight)
    (h' : r.Shows sight') : sight = sight' := by
  cases r with
  | versionBlock block stream => cases sight <;> cases sight' <;> simp_all [Shows]
  | content r =>
    cases sight with
    | versionBlock block => exact h.elim
    | content sight =>
      cases sight' with
      | versionBlock block => exact h'.elim
      | content sight' => exact congrArg Sight.content (ContentRecord.Shows.unique h h')

end Record

/-- A run over an archive, in which each record is used and left, gives records that show all of
the sights in order, and then none, again and again. -/
def Archive.Yields {ρ σ : Type} [Readable σ] [Archive ρ σ] (ended : ρ → Prop) :
    List Record.Sight → ρ → List (List Action) → Prop
  | _, _, [] => True
  | [], a, _ :: uses =>
    ∃ a', next a = (.ok none, a') ∧ ended a' ∧ Archive.Yields ended [] a' uses
  | sight :: sights, a, actions :: uses =>
    ∃ record a', next a = (.ok (some record), a') ∧ record.Shows sight ∧
      Archive.Yields ended sights (resume a' (record.use actions).2.stream) uses

namespace ContentRecord.Sight

theorem of_take (options : ReaderOptions) (heading : Heading) (data : Bytes) :
    of options heading (data.take (heading.length.getD 0)) = of options heading data := by
  simp only [of, List.take_take, Nat.min_self]

end ContentRecord.Sight

namespace Dialect

def sight (dialect : Dialect) (options : ReaderOptions) (heading : Heading) (content : Bytes) :
    Record.Sight :=
  match dialect, heading with
  | .arc none, .arc header =>
    .versionBlock (.ofContent header content
      (.of (header.length.getD 0) options.blockDigest none content))
  | _, heading => .content (.of options heading content)

def behind (dialect : Dialect) (sight : Record.Sight) : Dialect :=
  match dialect, sight with
  | .arc none, .versionBlock block => .arc (some block.version)
  | dialect, _ => dialect

variable {σ : Type} [Readable σ] {I : σ → Bytes → Prop}

theorem versionBlock_eq {E : StreamError → Prop} (t : Readable.Tracks I E) (quiet : Quiet E)
    (options : ReaderOptions) (header : Arc.Header) {s : σ} {data : Bytes} (h : I s data) :
    ∃ p, Arc.VersionBlock.read header
          (.start s (header.length.getD 0) options.blockDigest none) =
        (.ok (.ofContent header (data.take (header.length.getD 0))
          (.of (header.length.getD 0) options.blockDigest none
            (data.take (header.length.getD 0)))), p) ∧
      I p.source (data.drop (header.length.getD 0)) := by
  obtain ⟨p, answer, _, held⟩ :=
    Arc.VersionBlock.read_start t quiet header h (header.length.getD 0) options.blockDigest none
  exact ⟨p, answer, held⟩

/-- Opening a record succeeds. The record shows its content whatever is done with it, and never
reads on behind it; closing it reads up to there. -/
theorem openRecord_eq (t : Readable.Tracks I noError) (dialect : Dialect)
    (options : ReaderOptions) (heading : Heading) {s : σ} {data : Bytes} (h : I s data) :
    ∃ record s', dialect.openRecord options heading s = (.ok record, s') ∧
      record.Shows (dialect.sight options heading (data.take (heading.length.getD 0))) ∧
      dialect.after record =
        dialect.behind (dialect.sight options heading (data.take (heading.length.getD 0))) ∧
      ∀ actions, ∃ k ≤ heading.length.getD 0, I (record.use actions).2.stream (data.drop k) ∧
        (.close ∈ actions → k = heading.length.getD 0) := by
  have content : ∃ record, record = Record.content (ContentRecord.start heading s options) ∧
      record.Shows (.content (.of options heading (data.take (heading.length.getD 0)))) ∧
      ∀ actions, ∃ k ≤ heading.length.getD 0, I (record.use actions).2.stream (data.drop k) ∧
        (.close ∈ actions → k = heading.length.getD 0) := by
    have begun := ContentRecord.inUse_start options heading h
    refine ⟨_, rfl, ?_, begun.use_stream t⟩
    rw [ContentRecord.Sight.of_take]
    exact begun.shows t rfl
  obtain ⟨record, rfl, shows, streams⟩ := content
  match dialect, heading with
  | .arc none, .arc header =>
    obtain ⟨p, answer, held⟩ := versionBlock_eq t quiet_noError options header h
    refine ⟨.versionBlock _ p.source, p.source, ?_, rfl, rfl,
      fun _ => ⟨header.length.getD 0, Nat.le_refl _, held, fun _ => rfl⟩⟩
    simp only [openRecord, answer]
    rfl
  | .arc none, .warc header => exact ⟨_, s, rfl, shows, rfl, streams⟩
  | .arc (some version), heading => exact ⟨_, s, rfl, shows, rfl, streams⟩
  | .warc, heading => exact ⟨_, s, rfl, shows, rfl, streams⟩

end Dialect
end WebArchive
