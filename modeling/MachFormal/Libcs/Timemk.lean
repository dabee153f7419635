import MachFormal.Libcs.Normalise
import Mathlib.Data.List.Lex

/-!
# The search for a time

`timemk` inverts a function from times to broken-down times by adding and subtracting
smaller and smaller powers of two, from 0 on.  The most negative time is one less than the
search comes to, and has a step of its own.
-/

namespace MachFormal.Libcs.Gtime

open Library.Gregorian

/-! ## The model -/

def WRONG : Int := -1

/-- The fields that are compared, in this order. -/
def Tm.fields (tm : Tm) : List Int :=
  [tm.tm_year, tm.tm_mon, tm.tm_mday, tm.tm_hour, tm.tm_min, tm.tm_sec]

/-- `direction`: the first difference of two fields that is not zero. -/
def direction : List Int → List Int → Except Fault Int
  | mine :: mytm, yours :: yourtm => do
      let direction' ← int (mine - yours)
      if direction' = 0 then direction mytm yourtm else .ok direction'
  | _, _ => .ok 0

/-- `for (bits = 0, t = 1; t > 0; ++bits, t <<= 1)`, with a `time_t` of 32 bits. -/
def magnitude : Nat → Int × BitVec 32 → Except Fault (Int × BitVec 32)
  | 0, _ => .error .endless
  | turns + 1, s => if 0 < s.2.toInt then magnitude turns (s.1 + 1, s.2 <<< 1) else .ok s

/-- The median value of a `time_t`, and the bits above which it is. -/
def median : Except Fault (Int × Int) := do
  let s ← magnitude 33 (0, 1)
  return if s.2.toInt < 0 then (s.1, 0) else (s.1 - 1, 2 ^ (s.1 - 1).toNat)

section Search

variable (funcp : Int → Tm) (yourtm : Tm)

/-- The loop of the search: the time that is returned, and `*timeptr`. -/
def search : Nat → Int → Int → Except Fault (Int × Tm)
  | 0, _, _ => .error .endless
  | turns + 1, bits, t => do
      let mytm := funcp t
      let direction' ← direction mytm.fields yourtm.fields
      if direction' = 0 then .ok (t, mytm)
      else if bits < 0 then .ok (WRONG, yourtm)
      else
        let bits := bits - 1
        if bits < 0 then
          let t ← int (t - 1)
          search turns bits t
        else if 0 < direction' then
          let t ← int (t - 2 ^ bits.toNat)
          search turns bits t
        else
          let t ← int (t + 2 ^ bits.toNat)
          search turns bits t

end Search

/-- `timemk`, with the function that is given `offset`. -/
def timemk (funcp : Int → Tm) (timeptr : Tm) : Except Fault (Int × Tm) := do
  let yourtm ← correct timeptr
  let s ← median
  search funcp yourtm (s.1.toNat + 3) s.1 s.2

/-! ## What is asked of it -/

/-- Later times have greater broken-down times, in lexicographic order. -/
def Increasing (funcp : Int → Tm) : Prop :=
  ∀ s t, Fits s → Fits t → s < t → (funcp s).fields < (funcp t).fields

/-- The differences of the fields fit. -/
def Near (funcp : Int → Tm) (tm : Tm) : Prop :=
  ∀ t, Fits t → List.Forall₂ (fun mine yours => Fits (mine - yours)) (funcp t).fields tm.fields

/-- A time in range, of a year that fits. -/
structure Tm.Normal (tm : Tm) : Prop extends tm.InRange where
  year : Fits tm.tm_year
  calendar : Fits (tm.tm_year + TM_YEAR_BASE)

/-! ## The fields -/

section Fields

theorem direction_spec {mine yours : List Int}
    (near : List.Forall₂ (fun m y => Fits (m - y)) mine yours) :
    ∃ d, direction mine yours = .ok d ∧ (d = 0 ↔ mine = yours) ∧ (0 < d ↔ yours < mine) := by
  induction near with
  | nil => exact ⟨0, rfl, by simp, by simp⟩
  | @cons m y mine yours fits near ih =>
      obtain ⟨d, result, zero, positive⟩ := ih
      rw [direction, int_fits fits]
      change ∃ d, (if m - y = 0 then _ else _) = _ ∧ _
      by_cases same : m - y = 0
      · obtain rfl : m = y := by omega
        rw [if_pos same, result]
        exact ⟨d, rfl, by simp [zero], by simp [positive]⟩
      · rw [if_neg same]
        refine ⟨m - y, rfl, ?_, ?_⟩
        · exact iff_of_false same fun equal => same (by rw [(List.cons.inj equal).1, sub_self])
        · rw [List.cons_lt_cons_iff]
          omega

end Fields

/-! ## The search -/

section Search

variable {funcp : Int → Tm} {yourtm : Tm}

theorem Increasing.lt_iff (increasing : Increasing funcp) {s t : Int} (first : Fits s)
    (second : Fits t) : (funcp s).fields < (funcp t).fields ↔ s < t := by
  refine ⟨fun less => ?_, increasing s t first second⟩
  rcases lt_trichotomy s t with earlier | rfl | later
  · exact earlier
  · exact absurd less (lt_irrefl _)
  · exact absurd less (increasing t s second first later).asymm

theorem search_turn (near : Near funcp yourtm) {t : Int} (fits : Fits t) (turns : Nat) (bits : Int) :
    search funcp yourtm (turns + 1) bits t =
      if (funcp t).fields = yourtm.fields then .ok (t, funcp t)
      else if bits < 0 then .ok (WRONG, yourtm)
      else if bits - 1 < 0 then int (t - 1) >>= search funcp yourtm turns (bits - 1)
      else if yourtm.fields < (funcp t).fields then
        int (t - 2 ^ (bits - 1).toNat) >>= search funcp yourtm turns (bits - 1)
      else int (t + 2 ^ (bits - 1).toNat) >>= search funcp yourtm turns (bits - 1) := by
  obtain ⟨d, result, zero, positive⟩ := direction_spec (near t fits)
  rw [search, result]
  change (if d = 0 then _ else _) = _
  simp only [zero, positive]

theorem search_found (near : Near funcp yourtm) {t : Int} (fits : Fits t)
    (found : (funcp t).fields = yourtm.fields) (turns : Nat) (bits : Int) :
    search funcp yourtm (turns + 1) bits t = .ok (t, funcp t) := by
  rw [search_turn near fits, if_pos found]

theorem search_wrong (near : Near funcp yourtm) {t : Int} (fits : Fits t)
    (other : (funcp t).fields ≠ yourtm.fields) (turns : Nat) :
    search funcp yourtm (turns + 1) (0 - 1) t = .ok (WRONG, yourtm) := by
  rw [search_turn near fits, if_neg other, if_pos (by decide)]

theorem search_last (near : Near funcp yourtm) {t : Int} (fits : Fits t) (fits' : Fits (t - 1))
    (other : (funcp t).fields ≠ yourtm.fields) (turns : Nat) :
    search funcp yourtm (turns + 1) 0 t = search funcp yourtm turns (0 - 1) (t - 1) := by
  rw [search_turn near fits, if_neg other, if_neg (lt_irrefl 0), if_pos (by decide), int_fits fits']
  rfl

theorem search_down (near : Near funcp yourtm) {t : Int} {bits : Nat} (fits : Fits t)
    (fits' : Fits (t - 2 ^ bits)) (later : yourtm.fields < (funcp t).fields) (turns : Nat) :
    search funcp yourtm (turns + 1) (bits + 1) t = search funcp yourtm turns bits (t - 2 ^ bits) := by
  rw [search_turn near fits, if_neg later.ne', if_neg (by omega), add_sub_cancel_right,
    if_neg (by omega), if_pos later, Int.toNat_natCast, int_fits fits']
  rfl

theorem search_up (near : Near funcp yourtm) {t : Int} {bits : Nat} (fits : Fits t)
    (fits' : Fits (t + 2 ^ bits)) (earlier : (funcp t).fields < yourtm.fields) (turns : Nat) :
    search funcp yourtm (turns + 1) (bits + 1) t = search funcp yourtm turns bits (t + 2 ^ bits) := by
  rw [search_turn near fits, if_neg earlier.ne, if_neg (by omega), add_sub_cancel_right,
    if_neg (by omega), if_neg earlier.asymm, Int.toNat_natCast, int_fits fits']
  rfl

/-- From a value that is at most `2 ^ bits` away, the search comes to the time that has the
fields. -/
theorem search_target (increasing : Increasing funcp) (near : Near funcp yourtm) {bits : Nat}
    {t target : Int} (room : 2 ^ bits - 2147483648 ≤ t ∧ t ≤ 2147483648 - 2 ^ bits)
    (targetFits : Fits target) (same : (funcp target).fields = yourtm.fields)
    (range : -2 ^ bits ≤ target - t ∧ target - t < 2 ^ bits) :
    search funcp yourtm (bits + 3) bits t = .ok (target, funcp target) := by
  induction bits generalizing t with
  | zero =>
      rw [pow_zero] at room range
      have fits : Fits t := by
        rw [fits_iff]
        omega
      by_cases here : t = target
      · subst here
        exact search_found near fits same 2 0
      · obtain rfl : target = t - 1 := by omega
        have other : (funcp t).fields ≠ yourtm.fields := by
          rw [← same]
          exact ((increasing.lt_iff targetFits fits).mpr (by omega)).ne'
        exact (search_last near fits targetFits other 2).trans (search_found near targetFits same 1 _)
  | succ bits ih =>
      have positive : (0 : Int) < 2 ^ bits := by positivity
      rw [pow_succ] at room range
      have fits : Fits t := by
        rw [fits_iff]
        omega
      rcases lt_trichotomy t target with earlier | rfl | later
      · have fits' : Fits (t + 2 ^ bits) := by
          rw [fits_iff]
          omega
        have less : (funcp t).fields < yourtm.fields :=
          same ▸ (increasing.lt_iff fits targetFits).mpr earlier
        exact (search_up near fits fits' less (bits + 3)).trans (ih (by omega) (by omega))
      · exact search_found near fits same _ _
      · have fits' : Fits (t - 2 ^ bits) := by
          rw [fits_iff]
          omega
        have less : yourtm.fields < (funcp t).fields :=
          same ▸ (increasing.lt_iff targetFits fits).mpr later
        exact (search_down near fits fits' less (bits + 3)).trans (ih (by omega) (by omega))

theorem search_nowhere (near : Near funcp yourtm)
    (nowhere : ∀ t, Fits t → (funcp t).fields ≠ yourtm.fields) {bits : Nat} {t : Int}
    (room : 2 ^ bits - 2147483648 ≤ t ∧ t ≤ 2147483648 - 2 ^ bits) :
    search funcp yourtm (bits + 3) bits t = .ok (WRONG, yourtm) := by
  induction bits generalizing t with
  | zero =>
      rw [pow_zero] at room
      have fits : Fits t := by
        rw [fits_iff]
        omega
      have fits' : Fits (t - 1) := by
        rw [fits_iff]
        omega
      exact (search_last near fits fits' (nowhere t fits) 2).trans
        (search_wrong near fits' (nowhere _ fits') 1)
  | succ bits ih =>
      have positive : (0 : Int) < 2 ^ bits := by positivity
      rw [pow_succ] at room
      have fits : Fits t := by
        rw [fits_iff]
        omega
      rcases lt_or_gt_of_ne (nowhere t fits) with earlier | later
      · have fits' : Fits (t + 2 ^ bits) := by
          rw [fits_iff]
          omega
        exact (search_up near fits fits' earlier (bits + 3)).trans (ih (by omega))
      · have fits' : Fits (t - 2 ^ bits) := by
          rw [fits_iff]
          omega
        exact (search_down near fits fits' later (bits + 3)).trans (ih (by omega))

end Search

/-! ## The whole of it -/

theorem correct_normal {tm : Tm} (normal : tm.Normal) : correct tm = .ok tm := by
  have unit {high low unit : Int} (positive : 0 < unit) (fits : Fits unit) (high' : Fits high)
      (range : 0 ≤ low ∧ low < unit) : carry unit ⟨high, low⟩ = .ok ⟨high, low⟩ := by
    have low' : Fits low := by
      rw [fits_iff] at fits ⊢
      omega
    rw [carry_eq positive fits high' low', carried_of_range high' range.1 range.2]
  have small {n unit : Int} (fits : Fits unit) (range : 0 ≤ n ∧ n < unit) : Fits n := by
    rw [fits_iff] at fits ⊢
    omega
  let day : Day := ⟨tm.tm_mday, tm.tm_mon, tm.tm_year⟩
  have length : day.tm_mday ≤ day.length := normal.mday.2
  have mday : Fits tm.tm_mday := by
    have bounds := day.length_bounds
    have first := normal.mday.1
    rw [fits_iff]
    change tm.tm_mday ≤ _ at length
    omega
  have mlen : MLEN day = .ok day.length :=
    mlen_eq normal.mon.1 (Int.lt_add_one_iff.mp normal.mon.2) normal.calendar
  have up : dayUp (day.tm_mday.toNat + 1) day = .ok day := by
    rw [dayUp, mlen]
    exact if_neg (not_lt.mpr length)
  have down : dayDown ((1 - day.tm_mday).toNat + 1) day = .ok day := by
    rw [dayDown]
    exact if_neg (not_le.mpr normal.mday.1)
  unfold correct
  rw [unit (by decide) (by decide) (small (by decide) normal.min) normal.sec]
  change (carry MINS_PER_HOUR ⟨tm.tm_hour, tm.tm_min⟩ >>= _) = _
  rw [unit (by decide) (by decide) (small (by decide) normal.hour) normal.min]
  change (carry HOURS_PER_DAY ⟨tm.tm_mday, tm.tm_hour⟩ >>= _) = _
  rw [unit (by decide) (by decide) mday normal.hour]
  change (carry MONS_PER_YEAR ⟨tm.tm_year, tm.tm_mon⟩ >>= _) = _
  rw [unit (by decide) (by decide) normal.year normal.mon]
  change (dayUp (day.tm_mday.toNat + 1) day >>= _) = _
  rw [up]
  change (dayDown ((1 - day.tm_mday).toNat + 1) day >>= _) = _
  rw [down]
  rfl

theorem median_eq : median = .ok (31, 0) := by rfl

/-- `timemk` inverts every increasing function to times that are near the given one. -/
theorem timemk_inverts {funcp : Int → Tm} (increasing : Increasing funcp) {tm : Tm}
    (normal : tm.Normal) (near : Near funcp tm) :
    (∀ t, Fits t → (funcp t).fields = tm.fields → timemk funcp tm = .ok (t, funcp t)) ∧
      ((∀ t, Fits t → (funcp t).fields ≠ tm.fields) → timemk funcp tm = .ok (WRONG, tm)) := by
  have whole : timemk funcp tm = search funcp tm (31 + 3) (31 : Nat) 0 := by
    rw [timemk, correct_normal normal, median_eq]
    rfl
  rw [whole]
  refine ⟨fun t fits same => ?_, fun nowhere => search_nowhere near nowhere (by decide)⟩
  exact search_target increasing near (by decide) fits same (by rw [fits_iff] at fits; omega)

theorem forall₂_fields {mine yours : Tm} (mineInRange : mine.InRange) (yoursInRange : yours.InRange)
    (year : Fits (mine.tm_year - yours.tm_year)) :
    List.Forall₂ (fun mine yours => Fits (mine - yours)) mine.fields yours.fields := by
  have days := monthLength_bounds (leap (mine.tm_year + TM_YEAR_BASE)) mine.tm_mon
  have days' := monthLength_bounds (leap (yours.tm_year + TM_YEAR_BASE)) yours.tm_mon
  obtain ⟨sec, min, hour, mon, mday⟩ := mineInRange
  obtain ⟨sec', min', hour', mon', mday'⟩ := yoursInRange
  simp only [SECS_PER_MIN, MINS_PER_HOUR, HOURS_PER_DAY, MONS_PER_YEAR] at sec min hour mon
  simp only [SECS_PER_MIN, MINS_PER_HOUR, HOURS_PER_DAY, MONS_PER_YEAR] at sec' min' hour' mon'
  unfold Tm.fields
  refine .cons year (.cons ?_ (.cons ?_ (.cons ?_ (.cons ?_ (.cons ?_ .nil)))))
  all_goals
    rw [fits_iff]
    omega

/-! ## Two calendars -/

/-- A calendar in which every time begins a year of its own. -/
def yearly (t : Int) : Tm := timeOf t 0 1 0 0 0

theorem increasing_yearly : Increasing yearly := by
  intro s t _ _ less
  exact List.cons_lt_cons_iff.mpr (.inl less)

theorem normal_yearly {t : Int} (fits : Fits t) (calendar : Fits (t + TM_YEAR_BASE)) :
    (yearly t).Normal where
  sec := show (0 : Int) ≤ 0 ∧ (0 : Int) < 60 by decide
  min := show (0 : Int) ≤ 0 ∧ (0 : Int) < 60 by decide
  hour := show (0 : Int) ≤ 0 ∧ (0 : Int) < 24 by decide
  mon := show (0 : Int) ≤ 0 ∧ (0 : Int) < 12 by decide
  mday := ⟨le_rfl, le_trans (show (1 : Int) ≤ 28 by decide) (monthLength_bounds _ _).1⟩
  year := fits
  calendar := calendar

/-- Its first year is too far from the others: the difference overflows at the start. -/
theorem timemk_overflow : ∃ (funcp : Int → Tm) (t : Int), Increasing funcp ∧ Fits t ∧
    (funcp t).Normal ∧ timemk funcp (funcp t) = .error .overflow := by
  refine ⟨yearly, -2147483648, increasing_yearly, by decide, normal_yearly (by decide) (by decide), ?_⟩
  rw [timemk, correct_normal (normal_yearly (by decide) (by decide)), median_eq]
  rfl

/-- A calendar in which every time begins a month. -/
def monthly (t : Int) : Tm := timeOf (t / 12) (t % 12) 1 0 0 0

theorem increasing_monthly : Increasing monthly := by
  intro s t _ _ less
  by_cases year : s / 12 < t / 12
  · exact List.cons_lt_cons_iff.mpr (.inl year)
  · have month : (monthly s).fields.tail < (monthly t).fields.tail :=
      List.cons_lt_cons_iff.mpr (.inl (show s % 12 < t % 12 by omega))
    exact List.cons_lt_cons_iff.mpr (.inr ⟨show s / 12 = t / 12 by omega, month⟩)

theorem inRange_monthly (t : Int) : (monthly t).InRange where
  sec := show (0 : Int) ≤ 0 ∧ (0 : Int) < 60 by decide
  min := show (0 : Int) ≤ 0 ∧ (0 : Int) < 60 by decide
  hour := show (0 : Int) ≤ 0 ∧ (0 : Int) < 24 by decide
  mon := ⟨Int.emod_nonneg t (by decide), Int.emod_lt_of_pos t (by decide)⟩
  mday := ⟨le_rfl, le_trans (show (1 : Int) ≤ 28 by decide) (monthLength_bounds _ _).1⟩

theorem near_monthly {tm : Tm} (inRange : tm.InRange)
    (year : -1000000000 ≤ tm.tm_year ∧ tm.tm_year ≤ 1000000000) : Near monthly tm := by
  intro t fits
  refine forall₂_fields (inRange_monthly t) inRange ?_
  change Fits (t / 12 - tm.tm_year)
  rw [fits_iff] at fits ⊢
  omega

/-- The first of its months is found, and a day that does not begin a month is not. -/
theorem timemk_monthly : timemk monthly (monthly (-2147483648)) =
      .ok (-2147483648, monthly (-2147483648)) ∧
    timemk monthly (timeOf 90 0 2 0 0 0) = .ok (WRONG, timeOf 90 0 2 0 0 0) := by
  have first : (monthly (-2147483648)).Normal := ⟨inRange_monthly _, by decide, by decide⟩
  have second : (timeOf 90 0 2 0 0 0).Normal :=
    ⟨⟨by decide, by decide, by decide, by decide, by decide⟩, by decide, by decide⟩
  have near : Near monthly (monthly (-2147483648)) := near_monthly first.toInRange (by decide)
  have near' : Near monthly (timeOf 90 0 2 0 0 0) := near_monthly second.toInRange (by decide)
  refine ⟨(timemk_inverts increasing_monthly first near).1 _ (by decide) rfl,
    (timemk_inverts increasing_monthly second near').2 fun t _ same => ?_⟩
  have day := congrArg (List.getD · 2 0) same
  exact absurd day (show (1 : Int) ≠ 2 by decide)

end MachFormal.Libcs.Gtime
