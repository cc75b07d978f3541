import WebArchive.Calendar.Timestamp
import WebArchive.Proofs.Calendar.Civil
import WebArchive.Proofs.Text.Digits

/-!
The two written forms of a time denote the same instants. Main fact: `forms_agree`.
-/
namespace WebArchive.Calendar
open Text (Digits)

/-! ### Fields -/

theorem digits?_append {n : Nat} (d : Digits n) (some : 0 < n) (rest : Text) :
    digits? n (d.text ++ rest) = .some (d.value, rest) := by
  have front : (d.text ++ rest).take n = d.text := List.take_left' d.length
  have behind : (d.text ++ rest).drop n = rest := List.drop_left' d.length
  rw [digits?, front, behind, if_pos d.length, d.decimal?_text some]
  rfl

theorem digits_of_digits? {n value : Nat} {t rest : Text} (h : digits? n t = some (value, rest)) :
    ∃ d : Digits n, t = d.text ++ rest := by
  simp only [digits?, Option.ite_none_right_eq_some, Option.map_eq_some_iff, Prod.mk.injEq] at h
  obtain ⟨length, _, number, _, rfl⟩ := h
  rw [Text.decimal?, Option.ite_none_right_eq_some] at number
  exact ⟨⟨t.take n, length, number.1.2⟩, (List.take_append_drop n t).symm⟩

/-- A date and a time of day as they are written. -/
structure Written where
  year : Digits 4
  month : Digits 2
  day : Digits 2
  hour : Digits 2
  minute : Digits 2
  second : Digits 2

namespace Written

/-- `YYYYMMDDhhmmss`. -/
def compact (w : Written) : Text :=
  w.year.text ++ w.month.text ++ w.day.text ++ w.hour.text ++ w.minute.text ++ w.second.text

/-- `YYYY-MM-DDThh:mm:ss`. -/
def dashed (w : Written) : Text :=
  w.year.text ++ '-' :: w.month.text ++ '-' :: w.day.text ++ 'T' :: w.hour.text ++
    ':' :: w.minute.text ++ ':' :: w.second.text

def time (w : Written) : CivilTime where
  date := ⟨w.year.value, w.month.value, w.day.value⟩
  hour := w.hour.value
  minute := w.minute.value
  second := w.second.value

theorem compactTime?_compact (w : Written) : compactTime? w.compact = some w.time := by
  have last := digits?_append w.second (by decide) []
  rw [List.append_nil] at last
  simp [compactTime?, compact, digits?_append, last, time]

theorem exists_compact {t : Text} {time : CivilTime} (h : compactTime? t = some time) :
    ∃ w : Written, w.compact = t := by
  simp only [compactTime?, Option.bind_eq_bind, Option.bind_eq_some_iff, Prod.exists,
    Option.ite_none_right_eq_some] at h
  obtain ⟨_, _, year, _, _, month, _, _, day, _, _, hour, _, _, minute, _, _, second, rfl, _⟩ := h
  obtain ⟨y, rfl⟩ := digits_of_digits? year
  obtain ⟨m, rfl⟩ := digits_of_digits? month
  obtain ⟨d, rfl⟩ := digits_of_digits? day
  obtain ⟨h, rfl⟩ := digits_of_digits? hour
  obtain ⟨n, rfl⟩ := digits_of_digits? minute
  obtain ⟨s, rfl⟩ := digits_of_digits? second
  exact ⟨⟨y, m, d, h, n, s⟩, by simp [compact]⟩

end Written

/-- A distance from UTC as it is written. -/
structure Offset where
  east : Bool
  hours : Digits 2
  minutes : Digits 2
  hours_lt : hours.value < 24
  minutes_lt : minutes.value < 60

namespace Offset

/-- `+hh:mm` or `-hh:mm`. -/
def text (o : Offset) : Text :=
  (if o.east then '+' else '-') :: o.hours.text ++ ':' :: o.minutes.text

def seconds (o : Offset) : Int :=
  (if o.east then 1 else -1) * (3600 * o.hours.value + 60 * o.minutes.value : Nat)

theorem offset?_text (o : Offset) : offset? o.text = some (o.seconds, []) := by
  have last := digits?_append o.minutes (by decide) []
  rw [List.append_nil] at last
  cases east : o.east <;>
    simp [offset?, text, seconds, east, digits?_append, skip?, last, o.hours_lt, o.minutes_lt]

end Offset

theorem rfc3339Time?_dashed (w : Written) {t : Text} {seconds : Int}
    (unbroken : fraction? t = some (0, t)) (read : offset? t = some (seconds, [])) :
    rfc3339Time? (w.dashed ++ t) = some (w.time, seconds) := by
  simp [rfc3339Time?, Written.dashed, digits?_append, skip?, unbroken, read, Written.time]

/-! ### Instants -/

namespace CivilTime
open Text (padded)

/-- The time as it is shown, without its distance from UTC. -/
def text (t : CivilTime) : Text :=
  Instant.yearText t.date.year ++ '-' :: padded 2 t.date.month ++ '-' :: padded 2 t.date.day ++
    'T' :: padded 2 t.hour ++ ':' :: padded 2 t.minute ++ ':' :: padded 2 t.second ++
    Instant.fractionText t.nanos

variable {t : CivilTime}

theorem isValid_iff : t.isValid ↔
    t.date.isValid ∧ t.hour < 24 ∧ t.minute < 60 ∧ t.second ≤ 60 := by
  simp [isValid, and_assoc]

theorem rfc3339_of_instant? {i : Instant} (small : t.nanos < 1000000000)
    (h : t.instant? 0 = some i) : i.rfc3339 = t.text ++ "+00:00".toList := by
  rw [instant?, Option.ite_none_right_eq_some, Option.some.injEq] at h
  obtain ⟨valid, rfl⟩ := h
  obtain ⟨date, hour, minute, second⟩ := isValid_iff.mp valid
  generalize known : (if t.second = 60 then 1 else 0) = leap
  have bounds : leap ≤ 1 ∧ leap ≤ t.second ∧ t.second - leap < 60 := by
    subst known
    split <;> omega
  generalize clock : 3600 * t.hour + 60 * t.minute + (t.second - leap) = time
  have days : (86400 * t.date.toDays + (3600 * t.hour + 60 * t.minute + (t.second - leap : Nat)) -
      0) / 86400 = t.date.toDays := by omega
  have rest : ((86400 * t.date.toDays + (3600 * t.hour + 60 * t.minute + (t.second - leap : Nat)) -
      0) % 86400).toNat = time := by omega
  have hours : time / 3600 = t.hour := by omega
  have minutes : time / 60 % 60 = t.minute := by omega
  have seconds : time % 60 + (t.nanos + 1000000000 * leap) / 1000000000 = t.second := by omega
  have nanos : (t.nanos + 1000000000 * leap) % 1000000000 = t.nanos := by omega
  simp only [Instant.rfc3339, days, rest, hours, minutes, seconds, nanos, text,
    Date.ofDays_toDays date]

end CivilTime

/-! ### Both forms -/

def Instant.moved (i : Instant) (seconds : Int) : Instant :=
  { i with seconds := i.seconds + seconds }

theorem instant?_eq_moved (t : CivilTime) (offset : Int) :
    t.instant? offset = (t.instant? 0).map (·.moved (-offset)) := by
  unfold CivilTime.instant?
  split
  · simp [Instant.moved]
    omega
  · rfl

namespace Written
variable (w : Written)

theorem compact?_compact : compact? w.compact = w.time.instant? 0 := by
  rw [compact?, compactTime?_compact]
  rfl

theorem text_time : w.time.text = w.dashed := by
  have year := w.year.padded_value (by decide)
  have small : w.year.value < 10000 := w.year.value_lt
  have positive : (0 : Int) ≤ w.year.value ∧ (w.year.value : Int) ≤ 9999 := by omega
  simp only [CivilTime.text, time, Instant.yearText, if_pos positive, Int.toNat_natCast, year,
    Text.Digits.padded_value _ (show 0 < 2 by decide)]
  simp [dashed, Instant.fractionText]

theorem digits_compact : w.compact.length = 14 ∧ ∀ c ∈ w.compact, c.isDigit := by
  constructor
  · simp [compact, Text.Digits.length]
  · simp only [compact, List.forall_mem_append]
    exact ⟨⟨⟨⟨⟨w.year.isDigit, w.month.isDigit⟩, w.day.isDigit⟩, w.hour.isDigit⟩,
      w.minute.isDigit⟩, w.second.isDigit⟩

theorem exists_of_digits (d : Digits 14) : ∃ w : Written, w.compact = d.text := by
  obtain ⟨year, d₁, same⟩ := d.exists_append (n := 4) (m := 10)
  obtain ⟨month, d₂, same₁⟩ := d₁.exists_append (n := 2) (m := 8)
  obtain ⟨day, d₃, same₂⟩ := d₂.exists_append (n := 2) (m := 6)
  obtain ⟨hour, d₄, same₃⟩ := d₃.exists_append (n := 2) (m := 4)
  obtain ⟨minute, second, same₄⟩ := d₄.exists_append (n := 2) (m := 2)
  refine ⟨⟨year, month, day, hour, minute, second⟩, ?_⟩
  simp only [compact, same, same₁, same₂, same₃, same₄, List.append_assoc]

end Written

/-- Fourteen digits are read as the same digits with dashes and colons in UTC, and an offset moves
what is read by as much; what is read is shown in the digits again. Nothing else is read. -/
theorem forms_agree :
    (∀ t : Text, (∃ w : Written, w.compact = t) ↔ t.length = 14 ∧ ∀ c ∈ t, c.isDigit) ∧
      (∀ t : Text, ¬ (t.length = 14 ∧ ∀ c ∈ t, c.isDigit) → compact? t = none) ∧
      ∀ w : Written,
        rfc3339? (w.dashed ++ ['Z']) = compact? w.compact ∧
        (∀ o : Offset, rfc3339? (w.dashed ++ o.text) =
          (compact? w.compact).map (·.moved (-o.seconds))) ∧
        ∀ i, compact? w.compact = some i → i.rfc3339 = w.dashed ++ "+00:00".toList := by
  refine ⟨fun t => ⟨?_, ?_⟩, ?_, fun w => ⟨?_, ?_, ?_⟩⟩
  · rintro ⟨w, rfl⟩
    exact w.digits_compact
  · rintro ⟨length, digits⟩
    exact Written.exists_of_digits ⟨t, length, List.all_eq_true.mpr digits⟩
  · intro t other
    rw [Option.eq_none_iff_forall_ne_some]
    intro i read
    obtain ⟨time, found, -⟩ := Option.bind_eq_some_iff.mp read
    obtain ⟨w, rfl⟩ := Written.exists_compact found
    exact other w.digits_compact
  · rw [w.compact?_compact, rfc3339?, rfc3339Time?_dashed w rfl rfl]
    rfl
  · intro o
    have unbroken : fraction? o.text = some (0, o.text) := by
      cases east : o.east <;> simp [fraction?, Offset.text, east]
    rw [w.compact?_compact, rfc3339?, rfc3339Time?_dashed w unbroken o.offset?_text,
      ← instant?_eq_moved]
    rfl
  · intro i read
    rw [w.compact?_compact] at read
    rw [CivilTime.rfc3339_of_instant? (show 0 < 1000000000 by decide) read, w.text_time]

/-- The last second of 2016, as it is read half an hour west of UTC. -/
theorem forms_agree_leap :
    compact? "20161231235960".toList = some ⟨1483228799, 1000000000⟩ ∧
      rfc3339? "2016-12-31T23:59:60-00:30".toList = some ⟨1483230599, 1000000000⟩ ∧
      (⟨1483228799, 1000000000⟩ : Instant).rfc3339 = "2016-12-31T23:59:60+00:00".toList ∧
      compact? "2016123123596".toList = none := by
  have read : compact? "20161231235960".toList = some ⟨1483228799, 1000000000⟩ := by decide
  have ⟨_, moved, shown⟩ := forms_agree.2.2 ⟨⟨"2016".toList, rfl, by decide⟩,
    ⟨"12".toList, rfl, by decide⟩, ⟨"31".toList, rfl, by decide⟩, ⟨"23".toList, rfl, by decide⟩,
    ⟨"59".toList, rfl, by decide⟩, ⟨"60".toList, rfl, by decide⟩⟩
  have west := moved ⟨false, ⟨"00".toList, rfl, by decide⟩, ⟨"30".toList, rfl, by decide⟩,
    by decide, by decide⟩
  exact ⟨read, west.trans (congrArg _ read), shown _ read,
    forms_agree.2.1 _ fun h => absurd h.1 (by decide)⟩

end WebArchive.Calendar
