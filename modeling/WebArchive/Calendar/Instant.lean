import WebArchive.Calendar.Civil
import WebArchive.Text.Number

/-!
Points in time, in UTC, and their RFC 3339 text. A leap second is the second 59 with a full
second of nanoseconds added.
-/
namespace WebArchive.Calendar

/-- Seconds since 1 January 1970 and nanoseconds, which reach 10^9 only within a leap second. -/
structure Instant where
  seconds : Int
  nanos : Nat := 0
  deriving DecidableEq

/-- A date and a time of day as they are written; `second` may be 60. -/
structure CivilTime where
  date : Date
  hour : Nat
  minute : Nat
  second : Nat
  nanos : Nat := 0

namespace CivilTime

def isValid (t : CivilTime) : Bool :=
  t.date.isValid && t.hour < 24 && t.minute < 60 && t.second ≤ 60

def instant? (t : CivilTime) (offset : Int) : Option Instant :=
  if t.isValid then
    let leap := if t.second = 60 then 1 else 0
    let time : Int := 3600 * t.hour + 60 * t.minute + (t.second - leap : Nat)
    some ⟨86400 * t.date.toDays + time - offset, t.nanos + 1000000000 * leap⟩
  else none

end CivilTime

namespace Instant

/-- Four digits, or a sign and at least four digits outside 0 to 9999. -/
def yearText (year : Int) : Text :=
  if 0 ≤ year ∧ year ≤ 9999 then Text.padded 4 year.toNat
  else (if year < 0 then '-' else '+') :: Text.padded 4 year.natAbs

/-- Nothing for a whole second, otherwise three, six or nine digits, as few as show it. -/
def fractionText (nanos : Nat) : Text :=
  if nanos = 0 then []
  else if nanos % 1000000 = 0 then '.' :: Text.padded 3 (nanos / 1000000)
  else if nanos % 1000 = 0 then '.' :: Text.padded 6 (nanos / 1000)
  else '.' :: Text.padded 9 nanos

def rfc3339 (i : Instant) : Text :=
  let date := Date.ofDays (i.seconds / 86400)
  let time := (i.seconds % 86400).toNat
  yearText date.year ++ '-' :: Text.padded 2 date.month ++ '-' :: Text.padded 2 date.day ++
    'T' :: Text.padded 2 (time / 3600) ++ ':' :: Text.padded 2 (time / 60 % 60) ++
    ':' :: Text.padded 2 (time % 60 + i.nanos / 1000000000) ++
    fractionText (i.nanos % 1000000000) ++ "+00:00".toList

end Instant
end WebArchive.Calendar
