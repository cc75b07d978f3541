import WebArchive.Calendar.Civil

/-!
Days of the proleptic Gregorian calendar and their numbers. Consecutive days have consecutive
numbers (`Date.toDays_next`), and a day is found again by its number (`Date.ofDays_toDays`).
-/
namespace WebArchive.Calendar

/-! ### Years -/

theorem isLeap_iff {year : Int} :
    isLeap year ↔ year % 4 = 0 ∧ (year % 100 ≠ 0 ∨ year % 400 = 0) := by
  simp [isLeap]

def yearLength (year : Int) : Nat := if isLeap year then 366 else 365

theorem daysBeforeYear_succ (year : Int) :
    daysBeforeYear (year + 1) = daysBeforeYear year + yearLength year := by
  unfold daysBeforeYear yearLength
  split <;> rename_i leap <;> rw [isLeap_iff] at leap <;> omega

theorem daysBeforeYear_near (year : Int) :
    146097 * year - 400 ≤ 400 * daysBeforeYear year ∧
      400 * daysBeforeYear year ≤ 146097 * year + 800 := by
  unfold daysBeforeYear
  omega

theorem yearOfDay_eq {year day : Int} (start : daysBeforeYear year ≤ day)
    (stop : day < daysBeforeYear (year + 1)) : Date.yearOfDay day = year := by
  have low := daysBeforeYear_near year
  have high := daysBeforeYear_near (year + 1)
  have near : day * 400 / 146097 = year - 1 ∨ day * 400 / 146097 = year ∨
      day * 400 / 146097 = year + 1 := by
    omega
  unfold Date.yearOfDay
  rcases near with guess | guess | guess <;> simp only [guess]
  · have before := daysBeforeYear_succ (year - 1)
    rw [Int.sub_add_cancel] at before ⊢
    rw [if_neg (by omega), if_pos start]
  · rw [if_neg (by omega), if_neg (by omega)]
  · rw [if_pos stop]
    omega

/-! ### Months -/

theorem daysBeforeMonth_succ (year : Int) {month : Nat} (some : 1 ≤ month) :
    daysBeforeMonth year (month + 1) = daysBeforeMonth year month + monthLength year month := by
  obtain ⟨month, rfl⟩ := Nat.exists_eq_add_of_le' some
  simp [daysBeforeMonth, List.range_succ]

theorem daysBeforeMonth_mono (year : Int) {month month' : Nat} (some : 1 ≤ month)
    (h : month ≤ month') : daysBeforeMonth year month ≤ daysBeforeMonth year month' := by
  induction h with
  | refl => exact Nat.le_refl _
  | step later ih =>
    rw [daysBeforeMonth_succ year (Nat.le_trans some later)]
    exact Nat.le_trans ih (Nat.le_add_right _ _)

/-- The months make up the year. -/
theorem daysBeforeMonth_thirteen (year : Int) : daysBeforeMonth year 13 = yearLength year := by
  unfold yearLength
  cases leap : isLeap year <;> simp [daysBeforeMonth, List.range_succ, monthLength, leap]

namespace Date
variable {d : Date}

theorem isValid_iff : d.isValid ↔
    (1 ≤ d.month ∧ d.month ≤ 12) ∧ 1 ≤ d.day ∧ d.day ≤ monthLength d.year d.month := by
  simp [isValid, and_assoc]

/-- The month that holds a day of the year is the number of months that begin by then. -/
theorem month_eq (year : Int) {month day : Nat} (some : 1 ≤ month) (last : month ≤ 12)
    (start : daysBeforeMonth year month ≤ day) (stop : day < daysBeforeMonth year (month + 1)) :
    ((List.range 11).filter fun m => daysBeforeMonth year (m + 2) ≤ day).length + 1 = month := by
  have begun : ∀ m, daysBeforeMonth year (m + 2) ≤ day ↔ m + 2 ≤ month := by
    intro m
    constructor
    · intro h
      refine Nat.le_of_not_lt fun later => ?_
      have := daysBeforeMonth_mono year (Nat.le_add_left 1 month) later
      omega
    · intro h
      exact Nat.le_trans (daysBeforeMonth_mono year (by omega) h) start
  simp only [begun]
  have all : ∀ month ≤ 12, 1 ≤ month →
      ((List.range 11).filter fun m => m + 2 ≤ month).length + 1 = month := by decide
  exact all month last some

theorem ofDays_toDays (valid : d.isValid) : ofDays d.toDays = d := by
  obtain ⟨⟨some, last⟩, first, ended⟩ := isValid_iff.mp valid
  have month := daysBeforeMonth_succ d.year some
  have bound := daysBeforeMonth_mono d.year (Nat.le_add_left 1 d.month) (Nat.succ_le_succ last)
  rw [daysBeforeMonth_thirteen] at bound
  have next := daysBeforeYear_succ d.year
  have day : d.toDays + daysBeforeYear 1970 =
      daysBeforeYear d.year + (daysBeforeMonth d.year d.month + (d.day - 1) : Nat) := by
    unfold toDays
    omega
  have year : yearOfDay (d.toDays + daysBeforeYear 1970) = d.year :=
    yearOfDay_eq (by omega) (by omega)
  have rest : (d.toDays + daysBeforeYear 1970 - daysBeforeYear d.year).toNat =
      daysBeforeMonth d.year d.month + (d.day - 1) := by omega
  have found := month_eq d.year some last (Nat.le_add_right _ (d.day - 1)) (by omega)
  simp only [ofDays, year, rest, found]
  have last : daysBeforeMonth d.year d.month + (d.day - 1) - daysBeforeMonth d.year d.month + 1 =
      d.day := by omega
  rw [last]

/-! ### Days -/

/-- The day after. -/
def next (d : Date) : Date :=
  if d.day < monthLength d.year d.month then { d with day := d.day + 1 }
  else if d.month < 12 then { d with month := d.month + 1, day := 1 }
  else ⟨d.year + 1, 1, 1⟩

/-- Days are counted one by one. -/
theorem toDays_next (valid : d.isValid) : d.next.toDays = d.toDays + 1 := by
  obtain ⟨⟨some, last⟩, first, ended⟩ := isValid_iff.mp valid
  have month := daysBeforeMonth_succ d.year some
  unfold next toDays
  split
  · dsimp only
    omega
  · split
    · dsimp only
      omega
    · have december : d.month = 12 := by omega
      have year := daysBeforeYear_succ d.year
      have none : daysBeforeMonth (d.year + 1) 1 = 0 := rfl
      have whole : daysBeforeMonth d.year (d.month + 1) = yearLength d.year := by
        rw [december, daysBeforeMonth_thirteen]
      dsimp only
      omega

example : toDays ⟨1970, 1, 1⟩ = 0 := by decide

end Date
end WebArchive.Calendar
