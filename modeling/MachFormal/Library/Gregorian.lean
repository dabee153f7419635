import Mathlib.Data.Int.LeastGreatest
import Mathlib.Tactic.IntervalCases

/-!
# The Gregorian calendar

Days are numbered so that 1 January of the year 1 is day 1; the rule for leap years is used
for all years, also for those before.  Months are numbered from 0.
-/

namespace MachFormal.Library.Gregorian

/-! ## Years -/

def leap (y : Int) : Bool := y % 4 = 0 ∧ (y % 100 ≠ 0 ∨ y % 400 = 0)

def yearLength (y : Int) : Int := if leap y then 366 else 365

/-- The number of the day before the year. -/
def yearStart (y : Int) : Int := 365 * (y - 1) + (y - 1) / 4 - (y - 1) / 100 + (y - 1) / 400

theorem yearStart_succ (y : Int) : yearStart (y + 1) = yearStart y + yearLength y := by
  unfold yearStart yearLength leap
  by_cases four : y % 4 = 0 <;> by_cases hundred : y % 100 = 0 <;>
    by_cases fourHundred : y % 400 = 0 <;> simp [four, hundred, fourHundred] <;> omega

theorem yearStart_le {y z : Int} (less : y ≤ z) : yearStart y ≤ yearStart z := by
  unfold yearStart
  omega

/-- The weekday, Sunday being 0: the first day is a Monday. -/
def weekday (n : Int) : Int := n % 7

/-! ## Months -/

/-- The days of a month, in a leap year or in another one. -/
def monthLength (leap : Bool) (m : Int) : Int :=
  if m = 1 then (if leap then 29 else 28)
  else if m = 3 ∨ m = 5 ∨ m = 8 ∨ m = 10 then 30
  else 31

/-- The days of the year before a month, for a leap year. -/
def leapBefore : List Int := [0, 31, 60, 91, 121, 152, 182, 213, 244, 274, 305, 335, 366]

/-- The days of the year before a month. -/
def before (leap : Bool) (m : Int) : Int :=
  leapBefore.getD m.toNat 0 - if leap ∨ m < 2 then 0 else 1

/-- The number of the day before the month. -/
def monthStart (y m : Int) : Int := yearStart y + before (leap y) m

theorem monthLength_bounds (l : Bool) (m : Int) : 28 ≤ monthLength l m ∧ monthLength l m ≤ 31 := by
  unfold monthLength
  split_ifs <;> omega

theorem one_le_monthLength (l : Bool) (m : Int) : 1 ≤ monthLength l m := by
  have bounds := monthLength_bounds l m
  omega

theorem before_zero (l : Bool) : before l 0 = 0 := by cases l <;> rfl

theorem before_last (y : Int) : before (leap y) 12 = yearLength y := by
  unfold yearLength
  cases leap y <;> rfl

theorem before_succ (l : Bool) {m : Int} (low : 0 ≤ m) (high : m ≤ 11) :
    before l (m + 1) = before l m + monthLength l m := by
  cases l <;> interval_cases m <;> rfl

theorem before_add_le (l : Bool) {m n : Int} (low : 0 ≤ m) (less : m < n) (high : n ≤ 12) :
    before l m + monthLength l m ≤ before l n := by
  obtain ⟨k, rfl⟩ := Int.le.dest (show m + 1 ≤ n from less)
  induction k with
  | zero => exact le_of_eq (by rw [Nat.cast_zero, add_zero, before_succ l low (by omega)])
  | succ k ih =>
      have earlier := ih (by omega) (by omega)
      have one := before_succ l (show 0 ≤ m + 1 + k by omega) (by omega)
      have some_ := monthLength_bounds l (m + 1 + k)
      rw [Nat.cast_succ, ← add_assoc, one]
      omega

theorem before_nonneg (l : Bool) {m : Int} (low : 0 ≤ m) (high : m ≤ 12) : 0 ≤ before l m := by
  rcases eq_or_lt_of_le low with rfl | positive
  · exact (before_zero l).ge
  · have less := before_add_le l le_rfl positive high
    have some_ := monthLength_bounds l 0
    rw [before_zero] at less
    omega

theorem monthStart_zero (y : Int) : monthStart y 0 = yearStart y := by
  rw [monthStart, before_zero, add_zero]

theorem monthStart_succ {y m : Int} (low : 0 ≤ m) (high : m ≤ 10) :
    monthStart y (m + 1) = monthStart y m + monthLength (leap y) m := by
  rw [monthStart, monthStart, before_succ _ low (by omega), add_assoc]

/-- The end of a month is in the year. -/
theorem monthEnd_le {y m : Int} (low : 0 ≤ m) (high : m ≤ 11) :
    monthStart y m + monthLength (leap y) m ≤ yearStart (y + 1) := by
  rw [monthStart, yearStart_succ, ← before_last, add_assoc]
  exact Int.add_le_add_left (before_add_le _ low (by omega) le_rfl) _

theorem monthStart_december (y : Int) :
    yearStart (y + 1) = monthStart y 11 + monthLength (leap y) 11 := by
  rw [monthStart, yearStart_succ, ← before_last, add_assoc, ← before_succ _ (by omega) le_rfl]
  rfl

theorem yearStart_le_monthStart {y m : Int} (low : 0 ≤ m) (high : m ≤ 11) :
    yearStart y ≤ monthStart y m := by
  have positive := before_nonneg (leap y) low (by omega)
  unfold monthStart
  omega

/-! ## Dates -/

@[ext]
structure Date where
  year : Int
  month : Int
  day : Int
  month_range : 0 ≤ month ∧ month ≤ 11
  day_range : 1 ≤ day ∧ day ≤ monthLength (leap year) month

namespace Date

def number (d : Date) : Int := monthStart d.year d.month + d.day

theorem number_gt (d : Date) : yearStart d.year < d.number := by
  have first := yearStart_le_monthStart (y := d.year) d.month_range.1 d.month_range.2
  have day := d.day_range.1
  unfold number
  omega

theorem number_le (d : Date) : d.number ≤ yearStart (d.year + 1) := by
  have last := monthEnd_le (y := d.year) d.month_range.1 d.month_range.2
  have day := d.day_range.2
  unfold number
  omega

theorem number_lt_of_year {d e : Date} (earlier : d.year < e.year) : d.number < e.number :=
  calc
    d.number ≤ yearStart (d.year + 1) := d.number_le
    _ ≤ yearStart e.year := yearStart_le earlier
    _ < e.number := e.number_gt

theorem number_lt_of_month {d e : Date} (same : d.year = e.year) (earlier : d.month < e.month) :
    d.number < e.number := by
  have between := before_add_le (leap e.year) d.month_range.1 earlier (by have := e.month_range; omega)
  have first := e.day_range.1
  have last := d.day_range.2
  rw [same] at last
  unfold number monthStart
  rw [same]
  omega

theorem number_lt_of_day {d e : Date} (same : d.year = e.year) (same' : d.month = e.month)
    (earlier : d.day < e.day) : d.number < e.number := by
  unfold number
  rw [same, same']
  omega

/-- One date comes before another in the calendar. -/
def Before (d e : Date) : Prop :=
  d.year < e.year ∨ d.year = e.year ∧ (d.month < e.month ∨ d.month = e.month ∧ d.day < e.day)

theorem number_lt_of_before {d e : Date} (earlier : Before d e) : d.number < e.number := by
  rcases earlier with year | ⟨same, month | ⟨same', day⟩⟩
  · exact number_lt_of_year year
  · exact number_lt_of_month same month
  · exact number_lt_of_day same same' day

theorem before_trichotomy (d e : Date) : Before d e ∨ d = e ∨ Before e d := by
  unfold Before
  by_cases same : d = e
  · exact .inr (.inl same)
  · rw [Date.ext_iff] at same
    omega

theorem number_injective : Function.Injective number := by
  intro d e same
  rcases before_trichotomy d e with earlier | equal | later
  · exact absurd same (number_lt_of_before earlier).ne
  · exact equal
  · exact absurd same (number_lt_of_before later).ne'

/-- The following day. -/
def next (d : Date) : Date :=
  if more : d.day < monthLength (leap d.year) d.month then
    ⟨d.year, d.month, d.day + 1, d.month_range, by have first := d.day_range.1; omega⟩
  else if more' : d.month < 11 then
    ⟨d.year, d.month + 1, 1, by have first := d.month_range.1; omega,
      ⟨le_rfl, one_le_monthLength _ _⟩⟩
  else ⟨d.year + 1, 0, 1, by decide, ⟨le_rfl, one_le_monthLength _ _⟩⟩

theorem number_next (d : Date) : d.next.number = d.number + 1 := by
  have first := d.month_range.1
  have last := d.day_range.2
  unfold next
  split_ifs with more more'
  · exact (add_assoc _ _ _).symm
  · change monthStart d.year (d.month + 1) + 1 = _
    rw [monthStart_succ first (by omega), number]
    omega
  · have december : d.month = 11 := by
      have high := d.month_range.2
      omega
    have ends := monthStart_december d.year
    change monthStart (d.year + 1) 0 + 1 = _
    rw [monthStart_zero, ends, number]
    rw [december] at more last ⊢
    omega

end Date

end MachFormal.Library.Gregorian
