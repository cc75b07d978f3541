import WebArchive.Archive.Basic
import WebArchive.Archive.Dialect
import WebArchive.Gzip.Packed
import WebArchive.Stream.Chained

/-!
Compressed archives, one record to a member. A member that holds nothing but blank lines is no
record. The heading is looked for through a buffer of its own; what is left in that buffer then
comes back in front of the member. Main fact: `weight_next`, a record takes bytes.
-/
namespace WebArchive

structure PackedArchive where
  packed : Gzip.Packed
  dialect : Dialect
  options : ReaderOptions := {}
  count : Nat := 0

namespace PackedArchive

/-- The data of a member, behind the bytes that were looked at and not taken. -/
abbrev Stream := Buffered (Chained Gzip.Container)

def rejoin (peek : Buffered Gzip.Container) : Stream := { inner := ⟨peek.buffer, peek.inner⟩ }

def arc (source : Source) (options : ReaderOptions := {}) : PackedArchive :=
  { packed := .start source, dialect := .arc none, options }

def warc (source : Source) (options : ReaderOptions := {}) : PackedArchive :=
  { packed := .start source, dialect := .warc, options }

def container (a : PackedArchive) : Gzip.Container := a.packed.container

open Readable (weight)

def look (dialect : Dialect) (options : ReaderOptions) : Gzip.Packed.Look Heading where
  run s := (Line.skipBlank s).andThen fun _ s => dialect.readHeading options none s
  weight_le s :=
    Readable.weight_andThen_le (Line.weight_skipBlank_le s) fun _ s' le =>
      Nat.le_trans (Dialect.weight_readHeading_le dialect options none s') le

/-- Goes on behind what has been read of the data of the current member. -/
def resume (a : PackedArchive) (stream : Stream) : PackedArchive :=
  { a with packed := { a.packed with container := stream.inner.inner } }

/-- A heading has been found; the content follows in `stream`. -/
def enter (a : PackedArchive) (heading : Heading) (stream : Stream) :
    Outcome ArchiveError PackedArchive (Option (Record Stream)) :=
  let a := { a with count := a.count + 1 }
  match a.dialect.openRecord a.options heading stream with
  | (.error e, stream) => (.error (.stream e), a.resume stream)
  | (.ok record, stream) =>
    (.ok (some record), { a.resume stream with dialect := a.dialect.after record })

def next (a : PackedArchive) : Outcome ArchiveError PackedArchive (Option (Record Stream)) :=
  match a.packed.seek (look a.dialect a.options) with
  | (.error e, packed) => (.error e, { a with packed })
  | (.ok none, packed) => (.ok none, { a with packed })
  | (.ok (some (heading, peek)), packed) => { a with packed }.enter heading (rejoin peek)

def takeCompleted (a : PackedArchive) : List Gzip.Member × PackedArchive :=
  (a.packed.takeCompleted.1, { a with packed := a.packed.takeCompleted.2 })

def takeNotices (a : PackedArchive) : List Gzip.Notice × PackedArchive :=
  (a.container.takeNotices.1,
    { a with packed := { a.packed with container := a.container.takeNotices.2 } })

theorem weight_enter_le {a a' : PackedArchive} {heading : Heading} {stream : Stream}
    {record : Record Stream} (h : a.enter heading stream = (.ok (some record), a')) :
    weight record.stream ≤ weight stream := by
  unfold enter at h
  dsimp only at h
  have opened := Dialect.weight_openRecord_le a.dialect a.options heading stream
  rcases call : a.dialect.openRecord a.options heading stream with ⟨e | r, next⟩ <;>
    rw [call] at h opened <;> simp only [Prod.mk.injEq, reduceCtorEq, false_and] at h
  simp only [Except.ok.injEq, Option.some.injEq] at h
  rw [← h.1, opened.2 r rfl]
  exact opened.1

theorem weight_rejoin (peek : Buffered Gzip.Container) : weight (rejoin peek) = weight peek :=
  Nat.zero_add _

theorem weight_inner_le (s : Stream) : weight s.inner.inner ≤ weight s := by
  show weight s.inner.inner ≤ s.buffer.length + (s.inner.front.length + weight s.inner.inner)
  omega

theorem weight_next {a a' : PackedArchive} {record : Record Stream}
    (h : a.next = (.ok (some record), a')) : weight record.stream < weight a.container := by
  unfold next at h
  split at h
  · simp at h
  · simp at h
  · rename_i heading peek packed found
    have lt := Gzip.Packed.weight_seek found
    have le := weight_enter_le h
    rw [weight_rejoin] at le
    exact Nat.lt_of_le_of_lt le lt

instance : Archive PackedArchive Stream where
  next := next
  resume := resume
  count := count
  takeCompleted := takeCompleted
  takeNotices := takeNotices
  weight a := weight a.container
  weight_next := weight_next
  weight_resume_le := weight_inner_le _
  weight_takeCompleted := rfl
  weight_takeNotices := rfl

end PackedArchive
end WebArchive
