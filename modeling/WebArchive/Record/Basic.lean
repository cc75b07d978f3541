import WebArchive.Arc.VersionBlock
import WebArchive.Options
import WebArchive.Record.Heading

/-!
Records as they come out of an archive. A record carries the stream that its content is read
from. Closing it reads the rest of the content and adds what is wrong with it to the diagnostics.
Main facts: `close_closed`, a closed record does not change any more, and `weight_close_le`.
-/
namespace WebArchive

structure ContentRecord (σ : Type) where
  heading : Heading
  /-- the content, or only the stream behind the heading if the length is not known -/
  content : σ ⊕ Payload σ
  isClosed : Bool := false
  diagnostics : Diagnostics

namespace ContentRecord
variable {σ : Type}

def start (heading : Heading) (stream : σ) (options : ReaderOptions) : ContentRecord σ :=
  { heading
    content :=
      match heading.length with
      | some length =>
        .inr (.start stream length options.blockDigest
          (if heading.isHttp then options.payloadDigest else none))
      | none => .inl stream
    diagnostics := heading.diagnostics }

def payload? (r : ContentRecord σ) : Option (Payload σ) := r.content.getRight?

def withPayload (r : ContentRecord σ) (p : Payload σ) : ContentRecord σ :=
  { r with content := .inr p }

def stream (r : ContentRecord σ) : σ :=
  match r.content with
  | .inl stream => stream
  | .inr p => p.source

def summary (r : ContentRecord σ) : Option Payload.Summary := r.payload?.bind (·.summary)

variable [Readable σ]

/-- Reads the rest of the content and reports what is wrong with it, once. -/
def close (r : ContentRecord σ) : Answer (ContentRecord σ) Unit :=
  if r.isClosed then (.ok (), r)
  else match r.content with
    | .inl _ => (.ok (), { r with isClosed := true })
    | .inr p =>
      match p.close with
      | (.error e, p) => (.error e, r.withPayload p)
      | (.ok summary, p) =>
        (.ok (),
          { r with
            content := .inr p
            isClosed := true
            diagnostics := r.diagnostics ++ summary.diagnostics r.heading.recordField })

theorem close_closed {r : ContentRecord σ} (h : r.isClosed) : r.close = (.ok (), r) := by
  simp [close, h]

open Readable (weight) in
theorem weight_close_le (r : ContentRecord σ) : weight r.close.2.stream ≤ weight r.stream := by
  unfold close
  split
  · exact Nat.le_refl _
  · split
    · rename_i stream same
      simp [ContentRecord.stream, same]
    · rename_i p same
      have le := Payload.weight_close_le p
      have before : r.stream = p.source := by simp [ContentRecord.stream, same]
      rw [before]
      split <;> rename_i call <;> rw [call] at le <;> exact le

end ContentRecord

inductive Record (σ : Type) where
  /-- the block at the beginning of an ARC file, read to its end, and the stream behind it -/
  | versionBlock (block : Arc.VersionBlock) (stream : σ)
  | content (r : ContentRecord σ)

namespace Record
variable {σ : Type}

def kind : Record σ → String
  | .versionBlock .. => "version-block"
  | .content r => r.heading.kind

def startOffset : Record σ → Option Nat
  | .versionBlock block _ => block.header.startOffset
  | .content r => r.heading.startOffset

def blockDigest : Record σ → Option Digest.Value
  | .versionBlock block _ => block.blockDigest
  | .content r => r.summary.bind (·.blockDigest)

def payloadDigest : Record σ → Option Digest.Value
  | .versionBlock .. => none
  | .content r => r.summary.bind (·.payloadDigest)

def diagnostics : Record σ → Diagnostics
  | .versionBlock block _ => block.diagnostics
  | .content r => r.diagnostics

def isCompliant : Record σ → Bool
  | .versionBlock block _ => block.isCompliant
  | .content r => r.heading.isCompliant

def isValid (r : Record σ) : Bool := r.isCompliant && r.diagnostics.isEmpty

def stream : Record σ → σ
  | .versionBlock _ stream => stream
  | .content r => r.stream

variable [Readable σ]

/-- A version block is read to its end already. -/
def close : Record σ → Answer (Record σ) Unit
  | .versionBlock block stream => (.ok (), .versionBlock block stream)
  | .content r => r.close.within .content

open Readable (weight) in
theorem weight_close_le (r : Record σ) : weight r.close.2.stream ≤ weight r.stream := by
  cases r with
  | versionBlock block stream => exact Nat.le_refl _
  | content r => exact ContentRecord.weight_close_le r

end Record
end WebArchive
