import MachFormal.Library.Gregorian

/-!
# Broken-down times put in order

`timemk` first corrects the time that it is given: seconds are carried to minutes, minutes
to hours, hours to days and months to years, and then days to months, one month after the
other.  The length of a month is looked up in a table with the month as it is at that point.

An operation on an `int` that overflows and an index outside the table are faults, after
which nothing is known.  The constants and `isleap` are those of `tzfile.h`, which is not
among the sources: the numbers that their names say, and the Gregorian rule.
-/

namespace MachFormal.Libcs.Gtime

open Library Library.Gregorian

/-! ## The model -/

inductive Fault where
  /-- An `int` that does not fit. -/
  | overflow
  /-- A month that is not in `mon_lengths`. -/
  | index
  /-- A loop that has not ended after as many turns as it was given. -/
  | endless
  deriving DecidableEq

def INT_MIN : Int := -2147483648
def INT_MAX : Int := 2147483647

/-- A value of an `int`. -/
def Fits (n : Int) : Prop := INT_MIN ≤ n ∧ n ≤ INT_MAX

instance (n : Int) : Decidable (Fits n) := inferInstanceAs (Decidable (_ ∧ _))

def int (n : Int) : Except Fault Int := if Fits n then .ok n else .error .overflow

def SECS_PER_MIN : Int := 60
def MINS_PER_HOUR : Int := 60
def HOURS_PER_DAY : Int := 24
def MONS_PER_YEAR : Int := 12
def TM_YEAR_BASE : Int := 1900

structure Tm where
  tm_sec : Int
  tm_min : Int
  tm_hour : Int
  tm_mday : Int
  tm_mon : Int
  tm_year : Int
  tm_wday : Int
  tm_yday : Int
  tm_isdst : Int
  tm_gmtoff : Int
  tm_zone : List (BitVec 8)
  deriving DecidableEq

/-- The fields that `timemk` reads hold values of an `int`. -/
def Tm.Ints (tm : Tm) : Prop :=
  Fits tm.tm_sec ∧ Fits tm.tm_min ∧ Fits tm.tm_hour ∧ Fits tm.tm_mday ∧ Fits tm.tm_mon ∧
    Fits tm.tm_year

instance (tm : Tm) : Decidable tm.Ints := inferInstanceAs (Decidable (_ ∧ _ ∧ _ ∧ _ ∧ _ ∧ _))

/-- A field with the one it is carried to. -/
structure Carry where
  high : Int
  low : Int
  deriving DecidableEq

/-- `while (low >= unit) ++high, low -= unit;` -/
def carryUp (unit : Int) : Nat → Carry → Except Fault Carry
  | 0, _ => .error .endless
  | turns + 1, s =>
      if unit ≤ s.low then do
        let high ← int (s.high + 1)
        let low ← int (s.low - unit)
        carryUp unit turns ⟨high, low⟩
      else .ok s

/-- `while (low < 0) --high, low += unit;` -/
def carryDown (unit : Int) : Nat → Carry → Except Fault Carry
  | 0, _ => .error .endless
  | turns + 1, s =>
      if s.low < 0 then do
        let high ← int (s.high - 1)
        let low ← int (s.low + unit)
        carryDown unit turns ⟨high, low⟩
      else .ok s

/-- The two loops. -/
def carry (unit : Int) (s : Carry) : Except Fault Carry := do
  let s ← carryUp unit (s.low.toNat + 1) s
  carryDown unit ((-s.low).toNat + 1) s

def isleap (y : Int) : Bool := y % 4 = 0 ∧ y % 100 ≠ 0 ∨ y % 400 = 0

def mon_lengths : List (List Int) :=
  [[31, 28, 31, 30, 31, 30, 31, 31, 30, 31, 30, 31],
   [31, 29, 31, 30, 31, 30, 31, 31, 30, 31, 30, 31]]

structure Day where
  tm_mday : Int
  tm_mon : Int
  tm_year : Int
  deriving DecidableEq

def MLEN (t : Day) : Except Fault Int := do
  let y ← int (t.tm_year + TM_YEAR_BASE)
  if t.tm_mon < 0 then .error .index
  else
    match (mon_lengths.getD (isleap y).toNat [])[t.tm_mon.toNat]? with
    | none => .error .index
    | some days => .ok days

/-- `while (tm_mday > MLEN)`. -/
def dayUp : Nat → Day → Except Fault Day
  | 0, _ => .error .endless
  | turns + 1, s => do
      let days ← MLEN s
      if days < s.tm_mday then
        let mday ← int (s.tm_mday - days)
        let mon ← int (s.tm_mon + 1)
        if MONS_PER_YEAR ≤ mon then
          let year ← int (s.tm_year + 1)
          dayUp turns ⟨mday, mon - MONS_PER_YEAR, year⟩
        else dayUp turns ⟨mday, mon, s.tm_year⟩
      else .ok s

/-- `while (tm_mday <= 0)`: the month is stepped back before its length is looked up. -/
def dayDown : Nat → Day → Except Fault Day
  | 0, _ => .error .endless
  | turns + 1, s =>
      if s.tm_mday ≤ 0 then do
        let mon ← int (s.tm_mon - 1)
        let days ← MLEN { s with tm_mon := mon }
        let mday ← int (s.tm_mday + days)
        if mon < 0 then
          let year ← int (s.tm_year - 1)
          dayDown turns ⟨mday, mon + MONS_PER_YEAR, year⟩
        else dayDown turns ⟨mday, mon, s.tm_year⟩
      else .ok s

/-- The corrections in `timemk`. -/
def correct (tm : Tm) : Except Fault Tm := do
  let minutes ← carry SECS_PER_MIN ⟨tm.tm_min, tm.tm_sec⟩
  let hours ← carry MINS_PER_HOUR ⟨tm.tm_hour, minutes.high⟩
  let days ← carry HOURS_PER_DAY ⟨tm.tm_mday, hours.high⟩
  let years ← carry MONS_PER_YEAR ⟨tm.tm_year, tm.tm_mon⟩
  let day ← dayUp (days.high.toNat + 1) ⟨days.high, years.low, years.high⟩
  let day ← dayDown ((1 - day.tm_mday).toNat + 1) day
  return { tm with tm_sec := minutes.low, tm_min := hours.low, tm_hour := days.low,
                   tm_mday := day.tm_mday, tm_mon := day.tm_mon, tm_year := day.tm_year }

/-! ## What is asked of it -/

/-- All fields are in range. -/
structure Tm.InRange (tm : Tm) : Prop where
  sec : 0 ≤ tm.tm_sec ∧ tm.tm_sec < SECS_PER_MIN
  min : 0 ≤ tm.tm_min ∧ tm.tm_min < MINS_PER_HOUR
  hour : 0 ≤ tm.tm_hour ∧ tm.tm_hour < HOURS_PER_DAY
  mon : 0 ≤ tm.tm_mon ∧ tm.tm_mon < MONS_PER_YEAR
  mday : 1 ≤ tm.tm_mday ∧
    tm.tm_mday ≤ monthLength (leap (tm.tm_year + TM_YEAR_BASE)) tm.tm_mon

/-- The day of a date whose month may be out of range. -/
def dayNumber (year mon mday : Int) : Int :=
  monthStart (year + TM_YEAR_BASE + mon / MONS_PER_YEAR) (mon % MONS_PER_YEAR) + mday

/-- The instant, in seconds. -/
def Tm.instant (tm : Tm) : Int :=
  ((dayNumber tm.tm_year tm.tm_mon tm.tm_mday * HOURS_PER_DAY + tm.tm_hour) * MINS_PER_HOUR +
    tm.tm_min) * SECS_PER_MIN + tm.tm_sec

/-- The corrections end with a time in range that is the same instant. -/
def Exact (tm : Tm) : Prop :=
  ∃ tm', correct tm = .ok tm' ∧ tm'.InRange ∧ tm'.instant = tm.instant

/-- What is carried to a field fits. -/
structure Carried (tm : Tm) : Prop where
  min : Fits (tm.tm_min + tm.tm_sec / SECS_PER_MIN)
  hour : Fits (tm.tm_hour + (tm.tm_min + tm.tm_sec / SECS_PER_MIN) / MINS_PER_HOUR)
  mday : Fits (tm.tm_mday +
    (tm.tm_hour + (tm.tm_min + tm.tm_sec / SECS_PER_MIN) / MINS_PER_HOUR) / HOURS_PER_DAY)
  year : Fits (tm.tm_year + tm.tm_mon / MONS_PER_YEAR)

/-! ## The carries -/

section Carries

theorem fits_iff {n : Int} : Fits n ↔ -2147483648 ≤ n ∧ n ≤ 2147483647 := Iff.rfl

theorem int_fits {n : Int} (fits : Fits n) : int n = .ok n := if_pos fits

theorem int_overflow {n : Int} (beyond : ¬Fits n) : int n = .error .overflow := if_neg beyond

/-- What the two loops come to. -/
def carried (unit : Int) (s : Carry) : Except Fault Carry :=
  if Fits (s.high + s.low / unit) then .ok ⟨s.high + s.low / unit, s.low % unit⟩
  else .error .overflow

theorem carried_of_range {unit : Int} {s : Carry} (fits : Fits s.high) (low : 0 ≤ s.low)
    (high : s.low < unit) : carried unit s = .ok s := by
  rw [carried, Int.ediv_eq_zero_of_lt low high, Int.emod_eq_of_lt low high, add_zero, if_pos fits]

/-- A turn does not change what the loops come to. -/
theorem carried_shift (unit : Int) (positive : 0 < unit) (s : Carry) (k : Int) :
    carried unit ⟨s.high + k, s.low - unit * k⟩ = carried unit s := by
  have quotient : (s.low - unit * k) / unit = s.low / unit - k := by
    rw [sub_eq_add_neg, ← mul_neg, Int.add_mul_ediv_left _ _ positive.ne', sub_eq_add_neg]
  have remainder : (s.low - unit * k) % unit = s.low % unit := Int.sub_mul_emod_self_left _ _ _
  unfold carried
  dsimp only
  rw [quotient, remainder, add_add_sub_cancel]

theorem carryUp_eq {unit : Int} (positive : 0 < unit) {turns : Nat} {s : Carry}
    (enough : s.low < turns) (high : Fits s.high) (low : Fits s.low) (started : 0 ≤ s.low) :
    carryUp unit turns s = carried unit s := by
  induction turns generalizing s with
  | zero => exact absurd started (not_le.mpr enough)
  | succ turns ih =>
      rw [carryUp]
      by_cases more : unit ≤ s.low
      · rw [if_pos more]
        have shift := carried_shift unit positive s 1
        rw [mul_one] at shift
        have less : Fits (s.low - unit) := by rw [fits_iff] at low ⊢; omega
        by_cases fits : Fits (s.high + 1)
        · rw [int_fits fits, int_fits less]
          exact (ih (by dsimp only; omega) fits less (by dsimp only; omega)).trans shift
        · have quotient : 1 ≤ s.low / unit := (Int.le_ediv_iff_mul_le positive).mpr (by omega)
          have beyond : ¬Fits (s.high + s.low / unit) := by
            rw [fits_iff] at high fits ⊢
            omega
          rw [int_overflow fits, carried, if_neg beyond]
          rfl
      · rw [if_neg more, carried_of_range high started (not_le.mp more)]

theorem carryDown_eq {unit : Int} (positive : 0 < unit) {turns : Nat} {s : Carry}
    (enough : -s.low < turns) (one : 0 < turns) (high : Fits s.high) (low : Fits s.low)
    (fits' : Fits unit) (started : s.low < unit) : carryDown unit turns s = carried unit s := by
  induction turns generalizing s with
  | zero => exact absurd one (lt_irrefl 0)
  | succ turns ih =>
      rw [carryDown]
      by_cases more : s.low < 0
      · rw [if_pos more]
        have shift := carried_shift unit positive s (-1)
        rw [mul_neg, mul_one, sub_neg_eq_add, ← sub_eq_add_neg] at shift
        have less : Fits (s.low + unit) := by
          rw [fits_iff] at low fits' ⊢
          omega
        by_cases fits : Fits (s.high - 1)
        · rw [int_fits fits, int_fits less]
          exact (ih (by dsimp only; omega) (by omega) fits less (by dsimp only; omega)).trans shift
        · have quotient : s.low / unit < 0 := Int.ediv_neg_of_neg_of_pos more positive
          have beyond : ¬Fits (s.high + s.low / unit) := by
            rw [fits_iff] at high fits ⊢
            omega
          rw [int_overflow fits, carried, if_neg beyond]
          rfl
      · rw [if_neg more, carried_of_range high (not_lt.mp more) started]

/-- Both loops: what is carried is the quotient, and the remainder stays. -/
theorem carry_eq {unit : Int} (positive : 0 < unit) (fits : Fits unit) {s : Carry}
    (high : Fits s.high) (low : Fits s.low) : carry unit s = carried unit s := by
  unfold carry
  by_cases started : 0 ≤ s.low
  · rw [carryUp_eq positive (by omega) high low started]
    unfold carried
    split_ifs with fits'
    · have remains : 0 ≤ s.low % unit := Int.emod_nonneg _ positive.ne'
      have less : s.low % unit < unit := Int.emod_lt_of_pos _ positive
      change carryDown unit _ ⟨_, _⟩ = _
      rw [carryDown, if_neg (not_lt.mpr remains)]
    · rfl
  · have nothing : carryUp unit (s.low.toNat + 1) s = .ok s := by
      rw [carryUp, if_neg (by omega)]
    rw [nothing]
    exact carryDown_eq positive (by omega) (Nat.succ_pos _) high low fits (by omega)

/-- What is carried, if it fits. -/
theorem carry_ok (unit : Int) (positive : 0 < unit) (fits : Fits unit) {s : Carry}
    (high : Fits s.high) (low : Fits s.low) (carried : Fits (s.high + s.low / unit)) :
    carry unit s = .ok ⟨s.high + s.low / unit, s.low % unit⟩ :=
  (carry_eq positive fits high low).trans (if_pos carried)

theorem carry_overflow {unit : Int} (positive : 0 < unit) (fits : Fits unit) {s : Carry}
    (high : Fits s.high) (low : Fits s.low) (beyond : ¬Fits (s.high + s.low / unit)) :
    carry unit s = .error .overflow :=
  (carry_eq positive fits high low).trans (if_neg beyond)

end Carries

/-! ## The days -/

section Days

/-- A month of the calendar, and a day of it or of another month. -/
structure Day.InYear (s : Day) : Prop where
  mon : 0 ≤ s.tm_mon ∧ s.tm_mon ≤ 11
  mday : Fits s.tm_mday
  year : Fits s.tm_year

def Day.calendar (s : Day) : Int := s.tm_year + TM_YEAR_BASE

/-- The day before the month. -/
def Day.start (s : Day) : Int := monthStart s.calendar s.tm_mon

def Day.number (s : Day) : Int := s.start + s.tm_mday

def Day.length (s : Day) : Int := monthLength (leap s.calendar) s.tm_mon

theorem isleap_eq (y : Int) : isleap y = leap y := by
  unfold isleap leap
  by_cases four : y % 4 = 0 <;> by_cases hundred : y % 100 = 0 <;>
    by_cases fourHundred : y % 400 = 0 <;> simp [four, hundred, fourHundred]
  all_goals omega

theorem lengths_eq (l : Bool) {m : Int} (low : 0 ≤ m) (high : m ≤ 11) :
    (mon_lengths.getD l.toNat [])[m.toNat]? = some (monthLength l m) := by
  cases l <;> interval_cases m <;> rfl

/-- The table has the lengths of the months of a year that fits. -/
theorem mlen_eq {s : Day} (low : 0 ≤ s.tm_mon) (high : s.tm_mon ≤ 11) (fits : Fits s.calendar) :
    MLEN s = .ok s.length := by
  have year : int (s.tm_year + TM_YEAR_BASE) = .ok s.calendar := int_fits fits
  unfold MLEN
  rw [year]
  change (if s.tm_mon < 0 then _ else _) = _
  rw [if_neg (not_lt.mpr low), isleap_eq, lengths_eq _ low high]
  rfl

theorem mlen_overflow {s : Day} (beyond : ¬Fits s.calendar) : MLEN s = .error .overflow := by
  have year : int (s.tm_year + TM_YEAR_BASE) = .error .overflow := int_overflow beyond
  unfold MLEN
  rw [year]
  rfl

theorem mlen_index {s : Day} (low : s.tm_mon < 0) (fits : Fits s.calendar) :
    MLEN s = .error .index := by
  have year : int (s.tm_year + TM_YEAR_BASE) = .ok s.calendar := int_fits fits
  unfold MLEN
  rw [year]
  exact if_pos low

/-- The last day of the last year that fits. -/
def lastDay : Int := yearStart (INT_MAX + 1)

theorem Day.InYear.fits_iff {s : Day} (inYear : s.InYear) : Fits s.calendar ↔ s.calendar ≤ INT_MAX := by
  have year := inYear.year
  simp only [Fits, INT_MIN, INT_MAX, Day.calendar, TM_YEAR_BASE] at year ⊢
  omega

theorem Day.length_bounds (s : Day) : 28 ≤ s.length ∧ s.length ≤ 31 := monthLength_bounds _ _

/-- A day of its month. -/
structure Day.Normal (s : Day) : Prop extends s.InYear where
  day : 1 ≤ s.tm_mday ∧ s.tm_mday ≤ s.length

theorem Day.InYear.number_le {s : Day} (inYear : s.InYear) (day : s.tm_mday ≤ s.length) :
    s.number ≤ yearStart (s.calendar + 1) := by
  have last := monthEnd_le (y := s.calendar) inYear.mon.1 inYear.mon.2
  unfold Day.length at day
  unfold Day.number Day.start
  omega

theorem Day.InYear.start_ge {s : Day} (inYear : s.InYear) : yearStart s.calendar ≤ s.start :=
  yearStart_le_monthStart inYear.mon.1 inYear.mon.2

/-- The month after this one. -/
def Day.next (s : Day) : Day :=
  if s.tm_mon = 11 then ⟨s.tm_mday - s.length, 0, s.tm_year + 1⟩
  else ⟨s.tm_mday - s.length, s.tm_mon + 1, s.tm_year⟩

theorem Day.next_mday (s : Day) : s.next.tm_mday = s.tm_mday - s.length := by
  unfold Day.next
  split <;> rfl

/-- It is the same day. -/
theorem Day.InYear.next_number {s : Day} (inYear : s.InYear) : s.next.number = s.number := by
  unfold Day.number Day.start
  rw [s.next_mday]
  have start : monthStart s.next.calendar s.next.tm_mon = monthStart s.calendar s.tm_mon + s.length := by
    unfold Day.next
    split_ifs with december
    · change monthStart (s.tm_year + 1 + TM_YEAR_BASE) 0 = _
      rw [add_right_comm, monthStart_zero, monthStart_december, Day.length, december]
      rfl
    · have mon := inYear.mon
      exact monthStart_succ mon.1 (by omega)
  rw [start]
  omega

theorem Day.InYear.next {s : Day} (inYear : s.InYear) (fits : Fits s.calendar)
    (more : s.length < s.tm_mday) : s.next.InYear := by
  obtain ⟨mon, mday, year⟩ := inYear
  have length := s.length_bounds
  have mday' : Fits (s.tm_mday - s.length) := by
    rw [Gtime.fits_iff] at mday ⊢
    omega
  unfold Day.next
  split_ifs with december
  · refine ⟨⟨le_rfl, show (0 : Int) ≤ 11 by decide⟩, mday', ?_⟩
    simp only [Fits, INT_MIN, INT_MAX, Day.calendar, TM_YEAR_BASE] at year fits ⊢
    omega
  · exact ⟨by dsimp only; omega, mday', year⟩

/-- A turn of the loop over the months. -/
theorem dayUp_next {s : Day} (inYear : s.InYear) (fits : Fits s.calendar)
    (more : s.length < s.tm_mday) (turns : Nat) : dayUp (turns + 1) s = dayUp turns s.next := by
  have mlen := mlen_eq inYear.mon.1 inYear.mon.2 fits
  have next := inYear.next fits more
  have mday := next.mday
  rw [s.next_mday] at mday
  have mon := inYear.mon
  have fits' : Fits (s.tm_mon + 1) := by
    rw [fits_iff]
    omega
  rw [dayUp, mlen]
  change (if s.length < s.tm_mday then _ else _) = _
  rw [if_pos more, int_fits mday]
  change (int (s.tm_mon + 1) >>= _) = _
  rw [int_fits fits']
  change (if MONS_PER_YEAR ≤ s.tm_mon + 1 then _ else _) = _
  have year := next.year
  unfold Day.next at year ⊢
  by_cases december : s.tm_mon = 11
  · rw [if_pos december] at year ⊢
    rw [if_pos (by rw [december]; decide), int_fits year, december]
    rfl
  · rw [if_neg december, if_neg (by unfold MONS_PER_YEAR; omega)]

/-- The loop ends with a day of its month, unless that is after the last day. -/
theorem dayUp_spec (turns : Nat) {s : Day} (inYear : s.InYear) (positive : 1 ≤ s.tm_mday)
    (enough : s.tm_mday < turns) :
    (s.number ≤ lastDay ∧ ∃ r, dayUp turns s = .ok r ∧ r.Normal ∧ Fits r.calendar ∧
      r.number = s.number) ∨ (lastDay < s.number ∧ dayUp turns s = .error .overflow) := by
  induction turns generalizing s with
  | zero => omega
  | succ turns ih =>
      have start := inYear.start_ge
      by_cases fits : Fits s.calendar
      · by_cases more : s.length < s.tm_mday
        · rw [dayUp_next inYear fits more, ← inYear.next_number]
          have length := s.length_bounds
          refine ih (inYear.next fits more) ?_ ?_
          · rw [s.next_mday]
            omega
          · rw [s.next_mday]
            omega
        · refine .inl ⟨?_, s, ?_, ⟨inYear, positive, not_lt.mp more⟩, fits, rfl⟩
          · refine (inYear.number_le (not_lt.mp more)).trans (yearStart_le ?_)
            have year := inYear.fits_iff.mp fits
            omega
          · rw [dayUp, mlen_eq inYear.mon.1 inYear.mon.2 fits]
            exact if_neg more
      · refine .inr ⟨?_, by rw [dayUp, mlen_overflow fits]; rfl⟩
        have year := mt inYear.fits_iff.mpr fits
        have later : lastDay ≤ yearStart s.calendar := yearStart_le (by omega)
        unfold Day.number
        omega

/-- The loop back ends with a day of its month, unless that is in an earlier year. -/
theorem dayDown_spec (turns : Nat) {s : Day} (inYear : s.InYear) (fits : Fits s.calendar)
    (day : s.tm_mday ≤ s.length) (enough : 1 - s.tm_mday < turns) (one : 0 < turns) :
    (yearStart s.calendar < s.number ∧ ∃ r, dayDown turns s = .ok r ∧ r.Normal ∧
      r.calendar = s.calendar ∧ r.number = s.number) ∨
    (s.number ≤ yearStart s.calendar ∧ dayDown turns s = .error .index) := by
  induction turns generalizing s with
  | zero => exact absurd one (lt_irrefl 0)
  | succ turns ih =>
      have start := inYear.start_ge
      have mon := inYear.mon
      by_cases back : s.tm_mday ≤ 0
      · have fits' : Fits (s.tm_mon - 1) := by
          rw [fits_iff]
          omega
        by_cases january : s.tm_mon = 0
        · refine .inr ⟨?_, ?_⟩
          · unfold Day.number Day.start
            rw [january, monthStart_zero]
            omega
          · have mlen : MLEN { s with tm_mon := s.tm_mon - 1 } = .error .index :=
              mlen_index (show s.tm_mon - 1 < 0 by omega) fits
            rw [dayDown, if_pos back, int_fits fits']
            change (MLEN { s with tm_mon := s.tm_mon - 1 } >>= _) = _
            rw [mlen]
            rfl
        · -- the month before
          let t : Day := ⟨s.tm_mday + monthLength (leap s.calendar) (s.tm_mon - 1), s.tm_mon - 1,
            s.tm_year⟩
          have length := monthLength_bounds (leap s.calendar) (s.tm_mon - 1)
          have mday : Fits t.tm_mday := by
            have mday := inYear.mday
            rw [fits_iff] at mday ⊢
            change _ ≤ s.tm_mday + _ ∧ s.tm_mday + _ ≤ _
            omega
          have inYear' : t.InYear := ⟨⟨show 0 ≤ s.tm_mon - 1 by omega,
            show s.tm_mon - 1 ≤ 11 by omega⟩, mday, inYear.year⟩
          have number : t.number = s.number := by
            have next := monthStart_succ (y := s.calendar) (show 0 ≤ s.tm_mon - 1 by omega) (by omega)
            rw [sub_add_cancel] at next
            change monthStart s.calendar (s.tm_mon - 1) + (s.tm_mday + _) = monthStart _ _ + s.tm_mday
            rw [next]
            omega
          have mlen : MLEN { s with tm_mon := s.tm_mon - 1 } =
              .ok (monthLength (leap s.calendar) (s.tm_mon - 1)) :=
            mlen_eq (show 0 ≤ s.tm_mon - 1 by omega) (show s.tm_mon - 1 ≤ 11 by omega) fits
          have turn : dayDown (turns + 1) s = dayDown turns t := by
            rw [dayDown, if_pos back, int_fits fits']
            change (MLEN { s with tm_mon := s.tm_mon - 1 } >>= _) = _
            rw [mlen]
            change (int t.tm_mday >>= _) = _
            rw [int_fits mday]
            exact if_neg (show ¬s.tm_mon - 1 < 0 by omega)
          rw [turn, ← number]
          refine ih inYear' fits ?_ ?_ ?_
          · change s.tm_mday + _ ≤ monthLength (leap s.calendar) (s.tm_mon - 1)
            omega
          · change 1 - (s.tm_mday + _) < _
            omega
          · omega
      · refine .inl ⟨?_, s, ?_, ⟨inYear, by omega, day⟩, rfl, rfl⟩
        · unfold Day.number
          omega
        · rw [dayDown, if_neg back]

/-- Both loops: they end with a day of its month exactly if that is in this year or a later
one, and not after the last day. -/
theorem days_spec {s : Day} (inYear : s.InYear) :
    let loops := dayUp (s.tm_mday.toNat + 1) s >>= fun day =>
      dayDown ((1 - day.tm_mday).toNat + 1) day
    (yearStart s.calendar < s.number ∧ s.number ≤ lastDay ∧
      ∃ r, loops = .ok r ∧ r.Normal ∧ r.number = s.number) ∨
    (¬(yearStart s.calendar < s.number ∧ s.number ≤ lastDay) ∧ ∃ fault, loops = .error fault) := by
  have start := inYear.start_ge
  by_cases positive : 1 ≤ s.tm_mday
  · have first : yearStart s.calendar < s.number := by
      unfold Day.number
      omega
    rcases dayUp_spec (s.tm_mday.toNat + 1) inYear positive (by omega) with
      ⟨inside, r, up, normal, _, number⟩ | ⟨late, up⟩
    · refine .inl ⟨first, inside, r, ?_, normal, number⟩
      rw [up]
      change dayDown _ r = _
      rw [dayDown, if_neg (by have := normal.day.1; omega)]
    · exact .inr ⟨fun both => absurd late (not_lt.mpr both.2), _, by rw [up]; rfl⟩
  · by_cases fits : Fits s.calendar
    · have length := s.length_bounds
      have up : dayUp (s.tm_mday.toNat + 1) s = .ok s := by
        rw [dayUp, mlen_eq inYear.mon.1 inYear.mon.2 fits]
        exact if_neg (by omega)
      have last := inYear.number_le (by omega)
      have inside : yearStart (s.calendar + 1) ≤ lastDay :=
        yearStart_le (by have := inYear.fits_iff.mp fits; omega)
      dsimp only
      rw [up]
      rcases dayDown_spec ((1 - s.tm_mday).toNat + 1) inYear fits (by omega) (by omega)
          (Nat.succ_pos _) with ⟨first, r, down, normal, _, number⟩ | ⟨early, down⟩
      · exact .inl ⟨first, last.trans inside, r, down, normal, number⟩
      · exact .inr ⟨fun both => absurd both.1 (not_lt.mpr early), _, down⟩
    · have year := mt inYear.fits_iff.mpr fits
      have later : lastDay ≤ yearStart s.calendar := yearStart_le (by omega)
      refine .inr ⟨fun both => ?_, .overflow, ?_⟩
      · omega
      · rw [dayUp, mlen_overflow fits]
        rfl

end Days

/-! ## The corrections -/

/-- The day lies in the year of the month that is given, after all carries, or in a later one
that fits. -/
def Forward (tm : Tm) : Prop :=
  let day := dayNumber tm.tm_year tm.tm_mon (tm.tm_mday +
    (tm.tm_hour + (tm.tm_min + tm.tm_sec / SECS_PER_MIN) / MINS_PER_HOUR) / HOURS_PER_DAY)
  yearStart (tm.tm_year + TM_YEAR_BASE + tm.tm_mon / MONS_PER_YEAR) < day ∧ day ≤ lastDay

instance (tm : Tm) : Decidable (Forward tm) := inferInstanceAs (Decidable (_ < _ ∧ _ ≤ _))

section Corrections

variable {tm : Tm}

/-- The days after all carries. -/
def Tm.days (tm : Tm) : Day :=
  ⟨tm.tm_mday +
      (tm.tm_hour + (tm.tm_min + tm.tm_sec / SECS_PER_MIN) / MINS_PER_HOUR) / HOURS_PER_DAY,
    tm.tm_mon % MONS_PER_YEAR, tm.tm_year + tm.tm_mon / MONS_PER_YEAR⟩

/-- The time with a day of which the rest of it is carried. -/
def Tm.onDay (tm : Tm) (day : Day) : Tm :=
  { tm with tm_sec := tm.tm_sec % SECS_PER_MIN,
            tm_min := (tm.tm_min + tm.tm_sec / SECS_PER_MIN) % MINS_PER_HOUR,
            tm_hour := (tm.tm_hour +
              (tm.tm_min + tm.tm_sec / SECS_PER_MIN) / MINS_PER_HOUR) % HOURS_PER_DAY,
            tm_mday := day.tm_mday, tm_mon := day.tm_mon, tm_year := day.tm_year }

/-- Where all carries fit, the days are what is left. -/
theorem correct_carried (ints : tm.Ints) (carried : Carried tm) :
    correct tm = (dayUp (tm.days.tm_mday.toNat + 1) tm.days >>= fun day =>
      dayDown ((1 - day.tm_mday).toNat + 1) day) >>= fun day => .ok (tm.onDay day) := by
  obtain ⟨sec, min, hour, mday, mon, year⟩ := ints
  have first := carry_ok (s := ⟨tm.tm_min, tm.tm_sec⟩) SECS_PER_MIN (by decide) (by decide)
    min sec carried.min
  have second := carry_ok (s := ⟨tm.tm_hour, _⟩) MINS_PER_HOUR (by decide) (by decide)
    hour carried.min carried.hour
  have third := carry_ok (s := ⟨tm.tm_mday, _⟩) HOURS_PER_DAY (by decide) (by decide)
    mday carried.hour carried.mday
  have fourth := carry_ok (s := ⟨tm.tm_year, tm.tm_mon⟩) MONS_PER_YEAR (by decide)
    (by decide) year mon carried.year
  unfold correct
  rw [first]
  change (carry MINS_PER_HOUR ⟨tm.tm_hour, _⟩ >>= _) = _
  rw [second]
  change (carry HOURS_PER_DAY ⟨tm.tm_mday, _⟩ >>= _) = _
  rw [third]
  change (carry MONS_PER_YEAR ⟨tm.tm_year, tm.tm_mon⟩ >>= _) = _
  rw [fourth]
  change (dayUp (tm.days.tm_mday.toNat + 1) tm.days >>= _) = _
  cases dayUp (tm.days.tm_mday.toNat + 1) tm.days <;> rfl

/-- A carry that does not fit is a fault. -/
theorem correct_overflow (ints : tm.Ints) (beyond : ¬Carried tm) : ∃ fault, correct tm = .error fault := by
  obtain ⟨sec, min, hour, mday, mon, year⟩ := ints
  unfold correct
  by_cases minutes : Fits (tm.tm_min + tm.tm_sec / SECS_PER_MIN)
  · rw [carry_ok (s := ⟨tm.tm_min, tm.tm_sec⟩) _ (by decide) (by decide) min sec minutes]
    change ∃ fault, (carry MINS_PER_HOUR ⟨tm.tm_hour, _⟩ >>= _) = _
    by_cases hours : Fits (tm.tm_hour + (tm.tm_min + tm.tm_sec / SECS_PER_MIN) / MINS_PER_HOUR)
    · rw [carry_ok (s := ⟨tm.tm_hour, _⟩) _ (by decide) (by decide) hour minutes hours]
      change ∃ fault, (carry HOURS_PER_DAY ⟨tm.tm_mday, _⟩ >>= _) = _
      by_cases days : Fits tm.days.tm_mday
      · rw [carry_ok (s := ⟨tm.tm_mday, _⟩) _ (by decide) (by decide) mday hours days]
        change ∃ fault, (carry MONS_PER_YEAR ⟨tm.tm_year, tm.tm_mon⟩ >>= _) = _
        have years : ¬Fits (tm.tm_year + tm.tm_mon / MONS_PER_YEAR) := fun years =>
          beyond ⟨minutes, hours, days, years⟩
        rw [carry_overflow (s := ⟨tm.tm_year, tm.tm_mon⟩) (by decide) (by decide) year mon years]
        exact ⟨_, rfl⟩
      · rw [carry_overflow (s := ⟨tm.tm_mday, _⟩) (by decide) (by decide) mday hours days]
        exact ⟨_, rfl⟩
    · rw [carry_overflow (s := ⟨tm.tm_hour, _⟩) (by decide) (by decide) hour minutes hours]
      exact ⟨_, rfl⟩
  · rw [carry_overflow (s := ⟨tm.tm_min, tm.tm_sec⟩) (by decide) (by decide) min sec minutes]
    exact ⟨_, rfl⟩

theorem inYear_days (carried : Carried tm) : tm.days.InYear := by
  have low : 0 ≤ tm.tm_mon % MONS_PER_YEAR := Int.emod_nonneg _ (by decide)
  have high : tm.tm_mon % MONS_PER_YEAR < MONS_PER_YEAR := Int.emod_lt_of_pos _ (by decide)
  exact ⟨⟨low, Int.lt_add_one_iff.mp high⟩, carried.mday, carried.year⟩

/-- The day before the month in which the days are counted. -/
theorem days_start (tm : Tm) (mday : Int) :
    dayNumber tm.tm_year tm.tm_mon mday = tm.days.start + mday := by
  unfold dayNumber Day.start Day.calendar
  rw [add_right_comm]
  rfl

/-- A month in range is no month more or less. -/
theorem dayNumber_normal {r : Day} (normal : r.Normal) :
    dayNumber r.tm_year r.tm_mon r.tm_mday = r.number := by
  obtain ⟨low, high⟩ := normal.mon
  have less : r.tm_mon < MONS_PER_YEAR := Int.lt_add_one_iff.mpr high
  unfold dayNumber Day.number Day.start Day.calendar
  rw [Int.ediv_eq_zero_of_lt low less, Int.emod_eq_of_lt low less, add_zero]

/-- With the day to which the days amount, the instant is the same. -/
theorem onDay_instant {r : Day} (normal : r.Normal) (same : r.number = tm.days.number) :
    (tm.onDay r).instant = tm.instant := by
  have day : dayNumber r.tm_year r.tm_mon r.tm_mday =
      dayNumber tm.tm_year tm.tm_mon tm.tm_mday + (tm.tm_hour +
        (tm.tm_min + tm.tm_sec / SECS_PER_MIN) / MINS_PER_HOUR) / HOURS_PER_DAY := by
    rw [dayNumber_normal normal, same, days_start, add_assoc]
    rfl
  unfold Tm.instant
  change ((dayNumber r.tm_year r.tm_mon r.tm_mday * HOURS_PER_DAY + _ % HOURS_PER_DAY) *
    MINS_PER_HOUR + _ % MINS_PER_HOUR) * SECS_PER_MIN + _ % SECS_PER_MIN = _
  rw [day]
  simp only [SECS_PER_MIN, MINS_PER_HOUR, HOURS_PER_DAY]
  omega

theorem onDay_inRange {r : Day} (normal : r.Normal) : (tm.onDay r).InRange where
  sec := ⟨Int.emod_nonneg _ (by decide), Int.emod_lt_of_pos _ (by decide)⟩
  min := ⟨Int.emod_nonneg _ (by decide), Int.emod_lt_of_pos _ (by decide)⟩
  hour := ⟨Int.emod_nonneg _ (by decide), Int.emod_lt_of_pos _ (by decide)⟩
  mon := ⟨normal.mon.1, Int.lt_add_one_iff.mpr normal.mon.2⟩
  mday := normal.day

theorem forward_iff : Forward tm ↔
    yearStart tm.days.calendar < tm.days.number ∧ tm.days.number ≤ lastDay := by
  have year : tm.tm_year + TM_YEAR_BASE + tm.tm_mon / MONS_PER_YEAR = tm.days.calendar :=
    add_right_comm _ _ _
  unfold Forward
  dsimp only
  rw [year, days_start]
  rfl

/-- The corrections are exact if and only if what is carried fits, the day is not before the
year of the month, and its year fits. -/
theorem corrections_exact_iff (ints : tm.Ints) : Exact tm ↔ Carried tm ∧ Forward tm := by
  by_cases carried : Carried tm
  · have whole := correct_carried ints carried
    rcases days_spec (inYear_days carried) with ⟨first, last, r, loops, normal, number⟩ |
      ⟨outside, fault, loops⟩
    · refine iff_of_true ⟨tm.onDay r, ?_, onDay_inRange normal, onDay_instant normal number⟩
        ⟨carried, forward_iff.mpr ⟨first, last⟩⟩
      rw [whole, loops]
      rfl
    · refine iff_of_false (fun exact => ?_) fun both => outside (forward_iff.mp both.2)
      obtain ⟨_, corrected, _⟩ := exact
      rw [whole, loops] at corrected
      cases corrected
  · refine iff_of_false (fun exact => ?_) fun both => carried both.1
    obtain ⟨_, corrected, _⟩ := exact
    obtain ⟨fault, beyond⟩ := correct_overflow ints carried
    rw [beyond] at corrected
    cases corrected

end Corrections

/-- A time of which only the six fields matter. -/
def timeOf (year mon mday hour min sec : Int) : Tm :=
  ⟨sec, min, hour, mday, mon, year, 0, 0, 0, 0, []⟩

/-- An hour, a minute and a second after the last day of February 1900. -/
theorem corrections_february : Exact (timeOf 0 0 59 23 59 3661) :=
  (corrections_exact_iff (by decide)).mpr ⟨⟨by decide, by decide, by decide, by decide⟩, by decide⟩

/-- The day before 1 January 1990: the loop looks up the length of a month that there is not. -/
theorem corrections_newYear : ∃ tm tm' : Tm, tm.Ints ∧ tm'.InRange ∧ Fits tm'.tm_year ∧
    tm'.instant = tm.instant ∧ correct tm = .error .index :=
  ⟨timeOf 90 0 0 0 0 0, timeOf 89 11 31 0 0 0, by decide,
    ⟨by decide, by decide, by decide, by decide, by decide⟩, by decide, by decide, by rfl⟩

end MachFormal.Libcs.Gtime
