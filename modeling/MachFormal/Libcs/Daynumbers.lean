import MachFormal.Library.Gregorian

/-!
# Day numbers

`parsedate` does its sums with day numbers: 1 January of the year 1 has the number 365, and
Sundays have multiples of 7.  `date_days` has a formula for them; `days_date` looks for the
year, and then for the month in a table for leap years.

The results of `int` arithmetic that are stored are brought back into range.
-/

namespace MachFormal.Libcs.Parsedate

open Library Library.Gregorian

/-! ## The model -/

/-- The value that an `int` has. -/
def wrap (n : Int) : Int := n.bmod 4294967296

/-- The date in a `struct tm`. -/
structure Tm where
  tm_mday : Int
  tm_mon : Int
  tm_year : Int
  tm_wday : Int
  tm_yday : Int
  deriving DecidableEq

def date_days (tm : Tm) : Int :=
  let dd := tm.tm_mday
  let mm := wrap (tm.tm_mon + 1)
  let yyyy := wrap (tm.tm_year + 1900)
  let f :=
    if 3 ≤ mm then
      365 * yyyy + dd + 31 * mm - 31 - (wrap (4 * mm + 23)).tdiv 10 + yyyy.tdiv 4 -
        (75 + yyyy.tdiv 100 * 75).tdiv 100
    else
      365 * yyyy + dd + 31 * mm - 31 + (wrap (yyyy - 1)).tdiv 4 -
        (75 + (wrap (yyyy - 1)).tdiv 100 * 75).tdiv 100
  wrap (f - 1)

def monthend : List Int := [0, 31, 60, 91, 121, 152, 182, 213, 244, 274, 305, 335, 366]

def yearsize (year : Int) : Int :=
  if year.tmod 4 = 0 ∧ (year.tmod 100 ≠ 0 ∨ year.tmod 400 = 0) then 366 else 365

/-- `t` and `tm_year` in the loops of `days_date`. -/
structure Search where
  t : Int
  tm_year : Int

/-- What is left, with the year that has been found so far. -/
def Search.atYear (d year : Int) : Search :=
  ⟨wrap (d - date_days ⟨1, 0, year, 0, 0⟩), year⟩

/-- `while (t < 0)`. -/
def earlier (d : Int) : Nat → Search → Option Search
  | 0, _ => none
  | turns + 1, s =>
      if s.t < 0 then earlier d turns (.atYear d (wrap (s.tm_year + (s.t.tdiv 366 - 1)))) else some s

/-- `while (t >= 366)`. -/
def later (d : Int) : Nat → Search → Option Search
  | 0, _ => none
  | turns + 1, s =>
      if 366 ≤ s.t then later d turns (.atYear d (wrap (s.tm_year + s.t.tdiv 366))) else some s

/-- What `days_date` makes of the day of a year. -/
def yearDay (d : Int) (s : Search) (leap : Bool) : Tm :=
  let (t, tm_year) := if !leap ∧ s.t = 365 then (0, wrap (s.tm_year + 1)) else (s.t, s.tm_year)
  let tm_yday := t
  let t := if !leap ∧ 59 ≤ t then t + 1 else t
  let mm := t.tdiv 31
  let mm := if monthend.getD (mm + 1).toNat 0 ≤ t then mm + 1 else mm
  ⟨t - monthend.getD mm.toNat 0 + 1, mm, tm_year, d.tmod 7, tm_yday⟩

/-- `days_date`.  It fails if a loop has not ended after more turns than there are years or
days. -/
def days_date (d : Int) : Option Tm := do
  let s ← earlier d 1901 ⟨wrap (d - 693960), 0⟩
  let s ← later d (s.t.toNat + 1) s
  return yearDay d s (yearsize (wrap (s.tm_year + 1900)) = 366)

/-! ## What is asked of it -/

/-- The date as it is in a `struct tm`, with its weekday and the days since 1 January. -/
def tmOf (d : Date) : Tm :=
  ⟨d.day, d.month, d.year - 1900, weekday d.number, d.number - yearStart d.year - 1⟩

/-- A date of year 1 or later whose day number fits. -/
structure Numbered (d : Date) : Prop where
  year : 1 ≤ d.year
  fits : d.number + 364 ≤ 2147483647

/-! ## The formula -/

section Formula

theorem wrap_of_fits {n : Int} (low : -2147483648 ≤ n) (high : n ≤ 2147483647) : wrap n = n :=
  Int.bmod_eq_of_le (by omega) (by omega)

theorem centuries (n : Int) : (75 + n / 100 * 75) / 100 = n / 100 - n / 400 := by omega

theorem formula_eq {y m : Int} (low : 0 ≤ m) (high : m ≤ 11) (d : Int) :
    (if 3 ≤ m + 1 then
        365 * y + d + 31 * (m + 1) - 31 - (4 * (m + 1) + 23) / 10 + y / 4 -
          (75 + y / 100 * 75) / 100
      else
        365 * y + d + 31 * (m + 1) - 31 + (y - 1) / 4 - (75 + (y - 1) / 100 * 75) / 100) - 1 =
      monthStart y m + d + 364 := by
  rw [centuries, centuries]
  have next := yearStart_succ y
  have size : yearLength y = if leap y then 366 else 365 := rfl
  unfold monthStart
  split_ifs with march
  · have march' : 2 ≤ m := by omega
    have before : before (leap y) m = 31 * m - (4 * m + 27) / 10 + (if leap y then 1 else 0) := by
      cases leap y <;> interval_cases m <;> rfl
    rw [before]
    unfold yearStart at next ⊢
    split_ifs at size ⊢ <;> omega
  · have january : m ≤ 1 := by omega
    have before : before (leap y) m = 31 * m := by
      cases leap y <;> interval_cases m <;> rfl
    rw [before]
    unfold yearStart
    omega

theorem date_days_eq {y m d : Int} (year : 1 ≤ y) (low : 0 ≤ m) (high : m ≤ 11)
    (fits : monthStart y m + d + 364 ≤ 2147483647) (positive : 1 ≤ d) (wday yday : Int) :
    date_days ⟨d, m, y - 1900, wday, yday⟩ = monthStart y m + d + 364 := by
  have start := yearStart_le_monthStart (y := y) low high
  have bound : y ≤ 6000000 := by
    unfold yearStart at start
    omega
  have nonneg {n k : Int} (positive : 0 ≤ n) : n.tdiv k = n / k := Int.tdiv_eq_ediv_of_nonneg positive
  have formula := formula_eq (y := y) low high d
  unfold date_days
  dsimp only
  rw [sub_add_cancel, wrap_of_fits (n := m + 1) (by omega) (by omega),
    wrap_of_fits (n := y) (by omega) (by omega), wrap_of_fits (n := y - 1) (by omega) (by omega),
    wrap_of_fits (n := 4 * (m + 1) + 23) (by omega) (by omega), nonneg (n := 4 * (m + 1) + 23) (by omega),
    nonneg (n := y) (by omega), nonneg (n := y) (by omega), nonneg (n := y - 1) (by omega),
    nonneg (n := y - 1) (by omega), nonneg (n := 75 + y / 100 * 75) (by omega),
    nonneg (n := 75 + (y - 1) / 100 * 75) (by omega), formula]
  exact wrap_of_fits (by unfold yearStart at start; omega) fits

end Formula

/-! ## The loops -/

section Loops

/-- The number of 1 January; the year before the year 1 begins with the number 0. -/
def yearNumber (y : Int) : Int := if 1 ≤ y then yearStart y + 365 else 0

theorem yearNumber_of_pos {y : Int} (positive : 1 ≤ y) : yearNumber y = yearStart y + 365 :=
  if_pos positive

theorem yearNumber_add {y k : Int} (low : 0 ≤ y) (later : 0 ≤ k) :
    yearNumber y + 365 * k ≤ yearNumber (y + k) ∧ yearNumber (y + k) ≤ yearNumber y + 366 * k := by
  unfold yearNumber yearStart
  split_ifs <;> omega

theorem yearNumber_lt {y : Int} (positive : 1 ≤ y) : yearNumber y < 366 * y := by
  rw [yearNumber_of_pos positive]
  unfold yearStart
  omega

theorem atYear_eq {d y : Int} (low : 0 ≤ y) (nonneg : 0 ≤ d) (fits : d ≤ 2147483647)
    (bound : yearNumber y ≤ 2147483647) :
    Search.atYear d (wrap (y - 1900)) = ⟨d - yearNumber y, y - 1900⟩ := by
  have grows := yearNumber_add (y := 0) le_rfl low
  rw [zero_add] at grows
  have start : yearNumber 0 = 0 := rfl
  have year : wrap (y - 1900) = y - 1900 := wrap_of_fits (by omega) (by omega)
  have number : date_days ⟨1, 0, y - 1900, 0, 0⟩ = yearNumber y := by
    rcases eq_or_lt_of_le low with rfl | positive
    · rfl
    · rw [yearNumber_of_pos positive] at bound ⊢
      rw [date_days_eq positive le_rfl (by omega) (by rw [monthStart_zero]; omega) le_rfl,
        monthStart_zero]
      omega
  rw [Search.atYear, year, number, wrap_of_fits (by omega) (by omega)]

theorem earlier_spec {d : Int} (nonneg : 0 ≤ d) (fits : d ≤ 2147483647) {turns : Nat} {y : Int}
    (low : 0 ≤ y) (high : y ≤ 1900) (first : 365 ≤ d → 1 ≤ y) (enough : y < turns) :
    ∃ z, earlier d turns ⟨d - yearNumber y, y - 1900⟩ = some ⟨d - yearNumber z, z - 1900⟩ ∧
      0 ≤ z ∧ z ≤ 1900 ∧ (365 ≤ d → 1 ≤ z) ∧ yearNumber z ≤ d := by
  induction turns generalizing y with
  | zero => omega
  | succ turns ih =>
      rw [earlier]
      by_cases back : d - yearNumber y < 0
      · have positive : 1 ≤ y := by
          by_contra none
          obtain rfl : y = 0 := by omega
          have start : yearNumber 0 = 0 := rfl
          omega
        have less := yearNumber_lt positive
        have quotient : (d - yearNumber y).tdiv 366 = -((yearNumber y - d) / 366) := by
          rw [← neg_sub, Int.neg_tdiv, Int.tdiv_eq_ediv_of_nonneg (by omega)]
        have year : y - 1900 + ((d - yearNumber y).tdiv 366 - 1) =
            y - 1 - (yearNumber y - d) / 366 - 1900 := by
          rw [quotient]
          omega
        have bound : yearNumber (y - 1 - (yearNumber y - d) / 366) ≤ 2147483647 := by
          have grows := (yearNumber_add (y := 0) le_rfl
            (show 0 ≤ y - 1 - (yearNumber y - d) / 366 by omega)).2
          have start : yearNumber 0 = 0 := rfl
          rw [zero_add] at grows
          omega
        have first' : 365 ≤ d → 1 ≤ y - 1 - (yearNumber y - d) / 366 := by
          intro later
          rw [yearNumber_of_pos positive] at back ⊢
          unfold yearStart at back ⊢
          omega
        rw [if_pos back, year, atYear_eq (by omega) nonneg fits bound]
        exact ih (by omega) (by omega) first' (by omega)
      · exact ⟨y, if_neg back, low, high, first, by omega⟩

theorem later_spec {d : Int} (nonneg : 0 ≤ d) (fits : d ≤ 2147483647) {turns : Nat} {y : Int}
    (low : 0 ≤ y) (begun : yearNumber y ≤ d) (enough : d - yearNumber y < turns) :
    ∃ z, later d turns ⟨d - yearNumber y, y - 1900⟩ = some ⟨d - yearNumber z, z - 1900⟩ ∧
      y ≤ z ∧ yearNumber z ≤ d ∧ d - yearNumber z < 366 := by
  induction turns generalizing y with
  | zero => omega
  | succ turns ih =>
      rw [later]
      by_cases more : 366 ≤ d - yearNumber y
      · have quotient : (d - yearNumber y).tdiv 366 = (d - yearNumber y) / 366 :=
          Int.tdiv_eq_ediv_of_nonneg (by omega)
        have grows := yearNumber_add low (show 0 ≤ (d - yearNumber y) / 366 by omega)
        have year : y - 1900 + (d - yearNumber y).tdiv 366 =
            y + (d - yearNumber y) / 366 - 1900 := by
          rw [quotient]
          omega
        rw [if_pos more, year, atYear_eq (by omega) nonneg fits (by omega)]
        obtain ⟨z, result, further, rest⟩ := ih (y := y + (d - yearNumber y) / 366) (by omega)
          (by omega) (by omega)
        exact ⟨z, result, by omega, rest⟩
      · exact ⟨y, if_neg more, le_rfl, begun, by omega⟩

end Loops

/-! ## The month -/

section Month

theorem yearsize_eq {y : Int} (positive : 0 ≤ y) : yearsize y = yearLength y := by
  have nonneg (k : Int) : y.tmod k = y % k := Int.tmod_eq_emod_of_nonneg positive
  unfold yearsize yearLength leap
  rw [nonneg, nonneg, nonneg]
  simp only [decide_eq_true_eq]

/-- The month that is guessed, and then checked. -/
def guess (u : Int) : Int :=
  if monthend.getD (u.tdiv 31 + 1).toNat 0 ≤ u then u.tdiv 31 + 1 else u.tdiv 31

theorem guess_fin : ∀ u : Fin 366, 0 ≤ guess u ∧ guess u ≤ 11 ∧
    monthend.getD (guess u).toNat 0 ≤ u ∧ (u : Int) < monthend.getD (guess u + 1).toNat 0 := by
  decide +kernel

theorem guess_spec {u : Int} (low : 0 ≤ u) (high : u < 366) : 0 ≤ guess u ∧ guess u ≤ 11 ∧
    before true (guess u) ≤ u ∧ u < before true (guess u) + monthLength true (guess u) := by
  have fin := guess_fin ⟨u.toNat, by omega⟩
  simp only [Int.toNat_of_nonneg low] at fin
  obtain ⟨first, last, begun, ends⟩ := fin
  have begin_ : before true (guess u) = monthend.getD (guess u).toNat 0 := sub_zero _
  have next : before true (guess u + 1) = monthend.getD (guess u + 1).toNat 0 := sub_zero _
  rw [← before_succ true first last, begin_, next]
  exact ⟨first, last, begun, ends⟩

theorem before_common {m : Int} : before false m = before true m - if m < 2 then 0 else 1 := by
  unfold before
  simp

theorem monthLength_common {m : Int} :
    monthLength false m = monthLength true m - if m = 1 then 1 else 0 := by
  unfold monthLength
  split_ifs <;> simp_all

theorem guess_march {u : Int} (low : 0 ≤ u) (high : u < 366) : guess u < 2 ↔ u < 60 := by
  obtain ⟨first, last, begun, ends⟩ := guess_spec low high
  have january : before true 0 + monthLength true 0 = 31 := rfl
  have february : before true 1 + monthLength true 1 = 60 := rfl
  constructor
  · intro early
    obtain zero | one : guess u = 0 ∨ guess u = 1 := by omega
    · rw [zero] at ends
      omega
    · rw [one] at ends
      omega
  · intro early
    by_contra late
    have march := before_add_le true (m := 1) (n := guess u) (by decide) (by omega) (by omega)
    omega

theorem fudge_spec {leap : Bool} {t : Int} (low : 0 ≤ t) (high : t < if leap then 366 else 365) :
    let u := if !leap ∧ 59 ≤ t then t + 1 else t
    (0 ≤ guess u ∧ guess u ≤ 11) ∧
      (1 ≤ u - before true (guess u) + 1 ∧
        u - before true (guess u) + 1 ≤ monthLength leap (guess u)) ∧
      before leap (guess u) + (u - before true (guess u) + 1) = t + 1 := by
  cases leap with
  | true =>
      intro u
      have same : u = t := if_neg fun common => Bool.false_ne_true common.1
      obtain ⟨first, last, begun, ends⟩ := guess_spec low high
      rw [same]
      exact ⟨⟨first, last⟩, ⟨by omega, by omega⟩, by omega⟩
  | false =>
      have common : t < 365 := high
      intro u
      have range : 0 ≤ u ∧ u < 366 ∧ u ≠ 59 ∧ t = if u < 60 then u else u - 1 := by
        simp only [u]
        split_ifs <;> simp_all <;> omega
      obtain ⟨low', high', never, day⟩ := range
      obtain ⟨first, last, begun, ends⟩ := guess_spec low' high'
      have march := guess_march low' high'
      have february : before true 1 + monthLength true 1 = 60 := rfl
      rw [before_common, monthLength_common]
      refine ⟨⟨first, last⟩, ⟨by omega, ?_⟩, ?_⟩
      · split_ifs with one
        · rw [one] at ends begun ⊢
          omega
        · omega
      · split_ifs at day ⊢ <;> omega

theorem weekday_eq {n : Int} (nonneg : 0 ≤ n + 364) : (n + 364).tmod 7 = weekday n := by
  rw [Int.tmod_eq_emod_of_nonneg nonneg]
  unfold weekday
  omega

theorem yearDay_spec {d y t : Int} (positive : 1 ≤ y) (low : 0 ≤ t) (high : t < 366)
    (number : d = yearStart y + 365 + t) (fits : d ≤ 2147483647) :
    ∃ D : Date, 1 ≤ D.year ∧ D.number + 364 = d ∧
      yearDay d ⟨t, y - 1900⟩ (yearsize (wrap (y - 1900 + 1900)) = 366) = tmOf D := by
  have bound : 0 ≤ yearStart y ∧ y ≤ 6000000 := by
    unfold yearStart at number ⊢
    omega
  have size : decide (yearsize (wrap (y - 1900 + 1900)) = 366) = leap y := by
    rw [sub_add_cancel, wrap_of_fits (by omega) (by omega), yearsize_eq (by omega)]
    unfold yearLength
    cases leap y <;> rfl
  rw [size]
  by_cases newYear : (!leap y) = true ∧ t = 365
  · have start := yearStart_succ y
    have length : yearLength y = 365 := if_neg (by simpa using newYear.1)
    let D : Date := ⟨y + 1, 0, 1, ⟨le_rfl, by decide⟩, ⟨le_rfl, one_le_monthLength _ _⟩⟩
    have first : D.number = yearStart y + 366 := by
      change monthStart (y + 1) 0 + 1 = _
      rw [monthStart_zero]
      omega
    have next : wrap (y - 1900 + 1) = y + 1 - 1900 := by
      rw [wrap_of_fits (by omega) (by omega)]
      omega
    have day : D.number + 364 = d := by omega
    refine ⟨D, (by omega : 1 ≤ y + 1), day, ?_⟩
    have zero : D.number - yearStart D.year - 1 = 0 := by
      rw [first]
      change _ - yearStart (y + 1) - 1 = 0
      omega
    have wday := weekday_eq (n := D.number) (by omega)
    rw [day] at wday
    rw [tmOf, zero, ← wday, yearDay]
    simp only [newYear, and_self, if_true]
    rw [next]
    rfl
  · have range : t < if leap y then 366 else 365 := by
      split_ifs with isLeap
      · exact high
      · exact lt_of_le_of_ne (by omega) fun last => newYear ⟨by simpa using isLeap, last⟩
    obtain ⟨month, day, before⟩ := fudge_spec low range
    let D : Date := ⟨y, _, _, month, day⟩
    have yday : D.number = yearStart y + t + 1 := by
      change yearStart y + _ + _ = _
      rw [add_assoc, before]
      omega
    have number' : D.number + 364 = d := by omega
    refine ⟨D, positive, number', ?_⟩
    have wday := weekday_eq (n := D.number) (by omega)
    rw [number'] at wday
    have since : D.number - yearStart D.year - 1 = t := by
      rw [yday]
      change _ - yearStart y - 1 = t
      omega
    rw [tmOf, since, ← wday, yearDay]
    dsimp only
    rw [if_neg newYear]
    have table (m : Int) : Library.Gregorian.before true m = monthend.getD m.toNat 0 := sub_zero _
    change Tm.mk _ _ _ _ _ = Tm.mk (_ - Library.Gregorian.before true _ + 1) _ _ _ _
    rw [table]
    rfl

theorem days_date_spec {d : Int} (first : 365 ≤ d) (fits : d ≤ 2147483647) :
    ∃ D : Date, 1 ≤ D.year ∧ D.number + 364 = d ∧ days_date d = some (tmOf D) := by
  have epoch : wrap (d - 693960) = d - yearNumber 1900 := by
    rw [wrap_of_fits (by omega) (by omega)]
    rfl
  obtain ⟨z, back, low, -, positive, begun⟩ := earlier_spec (d := d) (by omega) fits
    (show (0 : Int) ≤ 1900 by omega) le_rfl (by omega) (show (1900 : Int) < (1901 : Nat) by omega)
  obtain ⟨y, found, after, begun', rest⟩ := later_spec (d := d) (by omega) fits low begun
    (show d - yearNumber z < ((d - yearNumber z).toNat + 1 : Nat) by omega)
  have year : 1 ≤ y := le_trans (positive first) after
  obtain ⟨D, first', number, result⟩ := yearDay_spec (d := d) (t := d - yearNumber y) year
    (by omega) rest (by rw [yearNumber_of_pos year]; omega) fits
  refine ⟨D, first', number, ?_⟩
  rw [days_date, epoch]
  change (earlier d 1901 ⟨d - yearNumber 1900, 1900 - 1900⟩).bind _ = _
  rw [back]
  change (later d _ _).bind _ = _
  rw [found, ← result]
  rfl

theorem days_date_isSome {d : Int} (nonneg : 0 ≤ d) (fits : d ≤ 2147483647) :
    (days_date d).isSome = true := by
  have epoch : wrap (d - 693960) = d - yearNumber 1900 := by
    rw [wrap_of_fits (by omega) (by omega)]
    rfl
  obtain ⟨z, back, low, -, -, begun⟩ := earlier_spec nonneg fits
    (show (0 : Int) ≤ 1900 by omega) le_rfl (by omega) (show (1900 : Int) < (1901 : Nat) by omega)
  obtain ⟨y, found, -⟩ := later_spec nonneg fits low begun
    (show d - yearNumber z < ((d - yearNumber z).toNat + 1 : Nat) by omega)
  rw [days_date, epoch]
  change ((earlier d 1901 ⟨d - yearNumber 1900, 1900 - 1900⟩).bind _).isSome = true
  rw [back]
  change ((later d _ _).bind _).isSome = true
  rw [found]
  rfl

end Month

/-! ## Round trips -/

theorem date_days_tmOf {d : Date} (numbered : Numbered d) : date_days (tmOf d) = d.number + 364 :=
  date_days_eq numbered.year d.month_range.1 d.month_range.2 numbered.fits d.day_range.1 _ _

/-- A date whose number fits is found again, with its weekday and the days since 1 January; the
following date has the following number; and the loops end for every number from 0 on. -/
theorem days_date_inverts :
    (∀ d, Numbered d → days_date (date_days (tmOf d)) = some (tmOf d)) ∧
      (∀ d : Date, Numbered d.next → 1 ≤ d.year →
        date_days (tmOf d.next) = date_days (tmOf d) + 1) ∧
      ∀ n : Int, 0 ≤ n → n ≤ 2147483647 → (days_date n).isSome = true := by
  refine ⟨fun d numbered => ?_, fun d following year => ?_, fun n => days_date_isSome⟩
  · have begun := d.number_gt
    have start : 0 ≤ yearStart d.year := by
      have year := numbered.year
      unfold yearStart
      omega
    obtain ⟨e, -, same, found⟩ := days_date_spec (d := d.number + 364) (by omega) numbered.fits
    obtain rfl : e = d := Date.number_injective (by omega)
    rw [date_days_tmOf numbered, found]
  · have number := d.number_next
    have fits := following.fits
    rw [date_days_tmOf following, date_days_tmOf ⟨year, by omega⟩, number]
    omega

/-- 31 December 1999 and the day after it. -/
theorem days_date_inverts_century :
    days_date (date_days ⟨31, 11, 99, 5, 364⟩) = some ⟨31, 11, 99, 5, 364⟩ ∧
      date_days ⟨1, 0, 100, 6, 0⟩ = date_days ⟨31, 11, 99, 5, 364⟩ + 1 :=
  ⟨days_date_inverts.1 ⟨1999, 11, 31, by decide, by decide⟩ ⟨by decide, by decide⟩,
    days_date_inverts.2.1 ⟨1999, 11, 31, by decide, by decide⟩ ⟨by decide, by decide⟩ (by decide)⟩

/-- The number of 1 January of the year 6000000 does not fit. -/
theorem days_date_inverts_overflow :
    ¬ ∀ d : Date, 1 ≤ d.year → days_date (date_days (tmOf d)) = some (tmOf d) := by
  intro all
  have found := all ⟨6000000, 0, 1, by decide, by decide⟩ (by decide)
  have number : date_days ⟨1, 0, 5998100, 6, 0⟩ = -2103512297 := by decide
  have lost : days_date (-2103512297) = some ⟨12, 11, -5761122, -5, 345⟩ := by decide +kernel
  change days_date (date_days ⟨1, 0, 5998100, 6, 0⟩) = some ⟨1, 0, 5998100, 6, 0⟩ at found
  rw [number, lost] at found
  exact absurd found (by decide)

end MachFormal.Libcs.Parsedate
