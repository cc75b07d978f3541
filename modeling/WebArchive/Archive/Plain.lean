import WebArchive.Archive.Basic
import WebArchive.Archive.Dialect
import WebArchive.Stream.Cursor

/-!
Archives that are not compressed. The next record begins behind the declared end of the content
before, and blank lines between the two are passed over. Offsets have 64 bits: a declared end that
does not fit in them wraps around, and no content is passed over for it. Main fact: `weight_next`, a
record takes bytes.
-/
namespace WebArchive

structure PlainArchive where
  input : Cursor
  dialect : Dialect
  options : ReaderOptions := {}
  /-- records report where they begin -/
  showsOffsets : Bool := true
  /-- where the content of the last record ends by its header, whether 64 bits can hold it or not -/
  nextOffset : Nat := 0
  count : Nat := 0

namespace PlainArchive

def arc (source : Source) (options : ReaderOptions := {}) : PlainArchive :=
  { input := { source }, dialect := .arc none, options }

def warc (source : Source) (options : ReaderOptions := {}) : PlainArchive :=
  { input := { source }, dialect := .warc, options }

/-- For data that are not a whole archive, so that offsets in them mean nothing. -/
def withoutOffsets (a : PlainArchive) : PlainArchive := { a with showsOffsets := false }

def position (a : PlainArchive) : Nat := a.input.position

/-- Where the next header is looked for: the sum of an offset and a length, as 64 bits hold it. -/
def target (a : PlainArchive) : Nat := a.nextOffset % UInt64.size

def seek (a : PlainArchive) : Answer Cursor (Option Heading) :=
  (a.input.skipTo a.target).andThen fun _ input =>
  (Line.skipBlank input).andThen fun _ input =>
    let start := if a.showsOffsets then some input.position else none
    a.dialect.readHeading a.options start input

/-- A heading has been read; the content follows at `input`. -/
def enter (a : PlainArchive) (heading : Heading) (input : Cursor) :
    Outcome ArchiveError PlainArchive (Option (Record Cursor)) :=
  let a :=
    { a with
      nextOffset := input.position + heading.length.getD 0
      count := a.count + 1 }
  match a.dialect.openRecord a.options heading input with
  | (.error e, input) => (.error (.stream e), { a with input })
  | (.ok record, input) => (.ok (some record), { a with input, dialect := a.dialect.after record })

def next (a : PlainArchive) : Outcome ArchiveError PlainArchive (Option (Record Cursor)) :=
  match a.seek with
  | (.error e, input) => (.error (.stream e), { a with input })
  | (.ok none, input) => (.ok none, { a with input })
  | (.ok (some heading), input) => a.enter heading input

def resume (a : PlainArchive) (stream : Cursor) : PlainArchive := { a with input := stream }

open Readable (weight)

theorem weight_seek_lt {a : PlainArchive} {heading : Heading} {input : Cursor}
    (h : a.seek = (.ok (some heading), input)) : weight input < weight a.input := by
  obtain ⟨_, first, skipped, h⟩ := Outcome.andThen_eq_ok.mp h
  obtain ⟨_, second, blank, h⟩ := Outcome.andThen_eq_ok.mp h
  have le₁ := Cursor.weight_skipTo_le a.input a.target
  have le₂ := Line.weight_skipBlank_le first
  have lt := Dialect.weight_readHeading_lt h
  rw [skipped] at le₁
  rw [blank] at le₂
  simp only at le₁ le₂
  omega

theorem weight_enter_le {a a' : PlainArchive} {heading : Heading} {input : Cursor}
    {record : Record Cursor} (h : a.enter heading input = (.ok (some record), a')) :
    weight record.stream ≤ weight input := by
  unfold enter at h
  dsimp only at h
  have opened := Dialect.weight_openRecord_le a.dialect a.options heading input
  rcases call : a.dialect.openRecord a.options heading input with ⟨e | r, next⟩ <;>
    rw [call] at h opened <;> simp only [Prod.mk.injEq, reduceCtorEq, false_and] at h
  simp only [Except.ok.injEq, Option.some.injEq] at h
  rw [← h.1, opened.2 r rfl]
  exact opened.1

theorem weight_next {a a' : PlainArchive} {record : Record Cursor}
    (h : a.next = (.ok (some record), a')) : weight record.stream < weight a.input := by
  unfold next at h
  split at h
  · simp at h
  · simp at h
  · rename_i heading input found
    have := weight_seek_lt found
    have := weight_enter_le h
    omega

instance : Archive PlainArchive Cursor where
  next := next
  resume := resume
  count := count
  takeCompleted a := ([], a)
  takeNotices a := ([], a)
  weight a := weight a.input
  weight_next := weight_next
  weight_resume_le := Nat.le_refl _
  weight_takeCompleted := rfl
  weight_takeNotices := rfl

end PlainArchive
end WebArchive
