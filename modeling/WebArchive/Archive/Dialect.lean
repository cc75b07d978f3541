import WebArchive.Record.Basic
import WebArchive.Warc.HeaderBlock

/-!
What ARC and WARC archives differ in: how a record is headed, and that an ARC file begins with a
version block that settles the version of all its headers. Main facts: `weight_readHeading_lt`, a
heading takes bytes, and `weight_openRecord_le`.
-/
namespace WebArchive

inductive Dialect where
  /-- ARC with the version of its version block; none until that has been read -/
  | arc (version : Option Arc.Version)
  | warc
  deriving DecidableEq

namespace Dialect

variable {σ : Type}

section Headings
variable [Peekable σ]

/-- Reads the next heading; none at the end of the stream. -/
def readHeading (d : Dialect) (options : ReaderOptions) (startOffset : Option Nat) (s : σ) :
    Answer σ (Option Heading) :=
  match d with
  | .arc version =>
    (Line.read options.maxHeaderLine s).map
      (·.map fun line => .arc (.ofLine line (version.getD .v1) startOffset))
  | .warc =>
    (Warc.HeaderBlock.read options.maxHeaderLine s).map
      (·.map fun block => .warc (block.header options.maxHeaderLines startOffset))

open Readable (weight)

theorem weight_readHeading_le (d : Dialect) (options : ReaderOptions) (startOffset : Option Nat)
    (s : σ) : weight (d.readHeading options startOffset s).2 ≤ weight s := by
  cases d with
  | arc version => exact Line.weight_read_le options.maxHeaderLine s
  | warc => exact Warc.HeaderBlock.weight_read_le options.maxHeaderLine s

theorem weight_readHeading_lt {d : Dialect} {options : ReaderOptions} {startOffset : Option Nat}
    {s s' : σ} {heading : Heading}
    (h : d.readHeading options startOffset s = (.ok (some heading), s')) :
    weight s' < weight s := by
  cases d with
  | arc version =>
    obtain ⟨line, called, found⟩ := Outcome.map_eq_ok.mp h
    obtain ⟨line, rfl, _⟩ := Option.map_eq_some_iff.mp found
    exact Line.weight_read_lt called
  | warc =>
    obtain ⟨block, called, found⟩ := Outcome.map_eq_ok.mp h
    obtain ⟨block, rfl, _⟩ := Option.map_eq_some_iff.mp found
    exact Warc.HeaderBlock.weight_read_lt called

end Headings

section Records
variable [Readable σ]

/-- The record behind a heading. The content of a version block is read at once. -/
def openRecord (d : Dialect) (options : ReaderOptions) (heading : Heading) (stream : σ) :
    Answer σ (Record σ) :=
  match d, heading with
  | .arc none, .arc header =>
    match Arc.VersionBlock.read header
        (.start stream (header.length.getD 0) options.blockDigest none) with
    | (.error e, payload) => (.error e, payload.source)
    | (.ok block, payload) => (.ok (.versionBlock block payload.source), payload.source)
  | _, heading => (.ok (.content (.start heading stream options)), stream)

def after (d : Dialect) (record : Record σ) : Dialect :=
  match d, record with
  | .arc none, .versionBlock block _ => .arc (some block.version)
  | d, _ => d

open Readable (weight)

omit [Readable σ] in
theorem stream_start (heading : Heading) (stream : σ) (options : ReaderOptions) :
    (ContentRecord.start heading stream options).stream = stream := by
  unfold ContentRecord.start ContentRecord.stream
  cases heading.length <;> rfl

theorem weight_versionBlock_le (header : Arc.Header) (payload : Payload σ) :
    weight (Arc.VersionBlock.read header payload).2.source ≤ weight payload.source :=
  Readable.weight_andThen_le (σ := Payload σ) (Readable.weight_readAll_le payload {})
    fun _ p le => Nat.le_trans (Payload.weight_close_le p) le

theorem weight_openRecord_le (d : Dialect) (options : ReaderOptions) (heading : Heading)
    (stream : σ) :
    weight (d.openRecord options heading stream).2 ≤ weight stream ∧
      ∀ record, (d.openRecord options heading stream).1 = .ok record →
        record.stream = (d.openRecord options heading stream).2 := by
  unfold openRecord
  split
  · rename_i header
    have le := weight_versionBlock_le header
      (.start stream (header.length.getD 0) options.blockDigest none)
    split <;> rename_i called <;> rw [called] at le
    · exact ⟨le, by simp⟩
    · exact ⟨le, fun record same => by cases same; rfl⟩
  · exact ⟨Nat.le_refl _, fun record same => by cases same; exact stream_start ..⟩

end Records
end Dialect
end WebArchive
