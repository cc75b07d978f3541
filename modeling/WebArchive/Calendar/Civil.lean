/-!
The proleptic Gregorian calendar, with days counted from 1 January 1970.
-/
namespace WebArchive.Calendar

/-- Every fourth year, but of the full centuries only every fourth one. -/
def isLeap (year : Int) : Bool :=
  year % 4 = 0 && (year % 100 ≠ 0 || year % 400 = 0)

def monthLength (year : Int) (month : Nat) : Nat :=
  if month = 2 then (if isLeap year then 29 else 28)
  else if month = 4 ∨ month = 6 ∨ month = 9 ∨ month = 11 then 30
  else 31

/-- Days from the start of year 0 to the start of `year`; negative before year 0. -/
def daysBeforeYear (year : Int) : Int :=
  365 * year + (year + 3) / 4 - (year + 99) / 100 + (year + 399) / 400

def daysBeforeMonth (year : Int) (month : Nat) : Nat :=
  (List.range (month - 1)).foldl (fun days m => days + monthLength year (m + 1)) 0

structure Date where
  year : Int
  month : Nat
  day : Nat
  deriving DecidableEq

namespace Date

def isValid (d : Date) : Bool :=
  1 ≤ d.month && d.month ≤ 12 && 1 ≤ d.day && d.day ≤ monthLength d.year d.month

def toDays (d : Date) : Int :=
  daysBeforeYear d.year + daysBeforeMonth d.year d.month + (d.day - 1 : Int) - daysBeforeYear 1970

/-- The year that holds a day counted from the start of year 0: the mean length of a year gives
it up to one. -/
def yearOfDay (day : Int) : Int :=
  let guess := day * 400 / 146097
  if day < daysBeforeYear guess then guess - 1
  else if daysBeforeYear (guess + 1) ≤ day then guess + 1
  else guess

def ofDays (days : Int) : Date :=
  let day := days + daysBeforeYear 1970
  let year := yearOfDay day
  let rest := (day - daysBeforeYear year).toNat
  let month := ((List.range 11).filter fun m => daysBeforeMonth year (m + 2) ≤ rest).length + 1
  ⟨year, month, rest - daysBeforeMonth year month + 1⟩

end Date
end WebArchive.Calendar
