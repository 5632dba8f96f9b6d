import Mlang.CheckedIntegers
import Mlang.CivilDates

namespace Mlang.CalendarOffsets

open CheckedIntegers Bool Option
open GregorianDays (tdiv_corrected)
open CivilDates

def floorQuotient (a b : Int) : Checked Int := do
  let q ← quot 64 a b
  if a < 0 then
    let r ← rem 64 a b
    if r ≠ 0 then sub 64 q 1 else pure q
  else pure q

variable {a b : Int}

theorem floorQuotient_eq (hb : 0 < b) (ha : Fits 64 a) : floorQuotient a b = some (a / b) := by
  have hcorrected := @tdiv_corrected a b hb
  have hfits : Fits 64 (a / b) := by
    obtain ⟨hlow, hhigh⟩ := ha
    rcases le_or_gt 0 a with hsign | hsign
    · have hle := Int.ediv_le_self b hsign
      have hnonneg := Int.ediv_nonneg hsign hb.le
      exact ⟨by omega, by omega⟩
    · have hge : a ≤ a / b := (Int.le_ediv_iff_mul_le hb).mpr (by nlinarith)
      have hneg := Int.ediv_neg_of_neg_of_pos hsign hb
      exact ⟨by omega, by omega⟩
  rw [floorQuotient, quot_eq hb ha, rem_eq hb ha]
  simp only [bind_eq_bind, bind_some]
  by_cases hneg : a < 0
  · by_cases hrest : a.tmod b ≠ 0
    · rw [if_pos ⟨hneg, hrest⟩] at hcorrected
      rw [if_pos hneg, if_pos hrest, sub_eq (by rwa [hcorrected]), hcorrected]
    · rw [if_neg (fun h => hrest h.2)] at hcorrected
      rw [if_pos hneg, if_neg hrest, hcorrected]
      rfl
  · rw [if_neg (fun h => hneg h.1)] at hcorrected
    rw [if_neg hneg, hcorrected]
    rfl

def checkedToSysDays (year month day : Int) : Checked (Option Int) := do
  if !isValidCivilDate year month day then pure none
  else
    let adjustedYear ← (if month ≤ 2 then sub 64 year 1 else pure year)
    let era ← floorQuotient adjustedYear 400
    let eraYears ← mul 64 era 400
    let yearOfEra ← sub 64 adjustedYear eraYears
    let shift ← (if month > 2 then sub 64 0 3 else pure 9)
    let adjustedMonth ← add 64 month shift
    let monthDays ← mul 64 153 adjustedMonth
    let monthDays ← add 64 monthDays 2
    let monthDays ← quot 64 monthDays 5
    let dayOfYear ← add 64 monthDays day
    let dayOfYear ← sub 64 dayOfYear 1
    let yearDays ← mul 64 yearOfEra 365
    let fourths ← quot 64 yearOfEra 4
    let yearDays ← add 64 yearDays fourths
    let hundredths ← quot 64 yearOfEra 100
    let yearDays ← sub 64 yearDays hundredths
    let dayOfEra ← add 64 yearDays dayOfYear
    let eraDays ← mul 64 era 146097
    let days ← add 64 eraDays dayOfEra
    let days ← sub 64 days 719468
    pure (some days)

variable {y m d n : Int}

theorem checkedToSysDays_eq (hy : Fits 32 y) : checkedToSysDays y m d = some (toSysDays y m d) := by
  cases hvalid : isValidCivilDate y m d with
  | false =>
    rw [checkedToSysDays, toSysDays, hvalid]
    rfl
  | true =>
    obtain ⟨hmonth, hday⟩ := bounds_of_valid hvalid
    obtain ⟨hlow, hhigh⟩ := hy
    have hyear : (if m ≤ 2 then sub 64 y 1 else pure y) = some (marchYear y m) := by
      rw [marchYear]
      split_ifs
      · exact sub_eq ⟨by omega, by omega⟩
      · rfl
    have hshift : (if m > 2 then sub 64 0 3 else pure 9) = some (if m > 2 then 0 - 3 else 9) := by
      split_ifs <;> rfl
    have hmonthSum : add 64 m (if m > 2 then 0 - 3 else 9) = some (marchMonth m) := by
      rw [← marchMonth_eq]
      exact add_eq (by split_ifs <;> exact ⟨by omega, by omega⟩)
    have hmarch : 0 ≤ marchMonth m ∧ marchMonth m < 12 := (isValid_iff.1 hvalid).2.month
    have hmarchYear : y - 1 ≤ marchYear y m ∧ marchYear y m ≤ y := by
      rw [marchYear]
      split_ifs <;> omega
    rw [checkedToSysDays, hvalid, if_neg (by decide), hyear, some_bind, hshift,
      toSysDays_eq hvalid, dayNumber, GregorianDays.number, daysBefore_split,
      GregorianDays.monthStart]
    generalize marchYear y m = a at *
    generalize marchMonth m = p at *
    have hera : floorQuotient a 400 = some (a / 400) :=
      floorQuotient_eq (by decide) ⟨by omega, by omega⟩
    have heraBound : -2147483649 ≤ a / 400 ∧ a / 400 ≤ 2147483647 := by omega
    have hyoeBound : 0 ≤ a - a / 400 * 400 ∧ a - a / 400 * 400 < 400 := by omega
    rw [hera, some_bind]
    generalize a / 400 = era at *
    rw [mul_eq ⟨by omega, by omega⟩, some_bind, sub_eq ⟨by omega, by omega⟩, some_bind]
    generalize a - era * 400 = yoe at *
    have hfifths : quot 64 (153 * p + 2) 5 = some ((153 * p + 2) / 5) := by
      rw [quot_eq (by decide) ⟨by omega, by omega⟩, Int.tdiv_eq_ediv_of_nonneg (by omega)]
    have hfifthsBound : 0 ≤ (153 * p + 2) / 5 ∧ (153 * p + 2) / 5 < 400 := by omega
    rw [some_bind, hmonthSum, some_bind, mul_eq ⟨by omega, by omega⟩, some_bind,
      add_eq ⟨by omega, by omega⟩, some_bind, hfifths, some_bind]
    generalize (153 * p + 2) / 5 = fifths at *
    have hquarters : quot 64 yoe 4 = some (yoe / 4) := by
      rw [quot_eq (by decide) ⟨by omega, by omega⟩, Int.tdiv_eq_ediv_of_nonneg (by omega)]
    have hcenturies : quot 64 yoe 100 = some (yoe / 100) := by
      rw [quot_eq (by decide) ⟨by omega, by omega⟩, Int.tdiv_eq_ediv_of_nonneg (by omega)]
    have hquartersBound : 0 ≤ yoe / 4 ∧ yoe / 4 < 400 := by omega
    have hcenturiesBound : 0 ≤ yoe / 100 ∧ yoe / 100 < 400 := by omega
    rw [hquarters, hcenturies]
    generalize yoe / 4 = quarters at *
    generalize yoe / 100 = centuries at *
    clear hera hfifths hquarters hcenturies
    rw [add_eq ⟨by omega, by omega⟩, some_bind, sub_eq ⟨by omega, by omega⟩, some_bind,
      mul_eq ⟨by omega, by omega⟩, some_bind, some_bind, add_eq ⟨by omega, by omega⟩, some_bind,
      some_bind, sub_eq ⟨by omega, by omega⟩, some_bind, add_eq ⟨by omega, by omega⟩, some_bind,
      mul_eq ⟨by omega, by omega⟩, some_bind, add_eq ⟨by omega, by omega⟩, some_bind,
      sub_eq ⟨by omega, by omega⟩, some_bind]
    exact congrArg (fun n => some (some n)) (by omega)

def checkedDateOf (days : Int) : Checked CivilDate := do
  let shifted ← add 64 days 719468
  let era ← floorQuotient shifted 146097
  let eraDays ← mul 64 era 146097
  let dayOfEra ← sub 64 shifted eraDays
  let fourYears ← quot 64 dayOfEra 1460
  let yearOfEra ← sub 64 dayOfEra fourYears
  let centuries ← quot 64 dayOfEra 36524
  let yearOfEra ← add 64 yearOfEra centuries
  let eras ← quot 64 dayOfEra 146096
  let yearOfEra ← sub 64 yearOfEra eras
  let yearOfEra ← quot 64 yearOfEra 365
  let eraYears ← mul 64 era 400
  let year ← add 64 yearOfEra eraYears
  let yearDays ← mul 64 365 yearOfEra
  let fourths ← quot 64 yearOfEra 4
  let yearDays ← add 64 yearDays fourths
  let hundredths ← quot 64 yearOfEra 100
  let yearDays ← sub 64 yearDays hundredths
  let dayOfYear ← sub 64 dayOfEra yearDays
  let monthPrime ← mul 64 5 dayOfYear
  let monthPrime ← add 64 monthPrime 2
  let monthPrime ← quot 64 monthPrime 153
  let monthDays ← mul 64 153 monthPrime
  let monthDays ← add 64 monthDays 2
  let monthDays ← quot 64 monthDays 5
  let day ← sub 64 dayOfYear monthDays
  let day ← add 64 day 1
  let shift ← (if monthPrime < 10 then pure 3 else sub 64 0 9)
  let month ← add 64 monthPrime shift
  let year ← (if month ≤ 2 then add 64 year 1 else pure year)
  pure { year := year, month := month, day := day }

def checkedFromSysDays (days : Int) : Checked (Option CivilDate) := do
  let firstDay ← checkedToSysDays (-2147483648) 1 1
  let firstDay ← unwrap firstDay
  let lastDay ← checkedToSysDays 2147483647 12 31
  let lastDay ← unwrap lastDay
  if days < firstDay ∨ days > lastDay then pure none
  else
    let date ← checkedDateOf days
    pure (some { year := i32 date.year, month := i32 date.month, day := i32 date.day })

theorem quot_nonneg {a b : Int} (ha : 0 ≤ a ∧ a < 2 ^ 63) (hb : 0 < b) : quot 64 a b = some (a / b) := by
  rw [quot_eq hb ⟨by omega, by omega⟩, Int.tdiv_eq_ediv_of_nonneg ha.1]

theorem yearDays_le (y : Int) : GregorianDays.yearDays y ≤ 366 := by
  rw [GregorianDays.yearDays]
  split_ifs <;> decide

theorem checkedDateOf_eq (hlimits : firstDay ≤ n ∧ n ≤ lastDay) : checkedDateOf n = some (dateOf n) := by
  rw [firstDay, lastDay] at hlimits
  have hshifted : add 64 n 719468 = some (n + 719468) := add_eq ⟨by omega, by omega⟩
  rw [dateOf_eq, checkedDateOf, hshifted, some_bind,
    floorQuotient_eq (by decide) ⟨by omega, by omega⟩, some_bind,
    mul_eq ⟨by omega, by omega⟩, some_bind, sub_eq ⟨by omega, by omega⟩, some_bind,
    ← GregorianDays.dayOfEra_cast]
  have hera : -6000000 ≤ (n + 719468) / 146097 ∧ (n + 719468) / 146097 ≤ 6000000 := by omega
  have hyear : GregorianDays.yearOf (n + 719468) = GregorianDays.yearOfEra
    (GregorianDays.dayOfEra (n + 719468)) + (n + 719468) / 146097 * 400 := rfl
  have hdayOfYear : GregorianDays.dayOfYear (n + 719468) = GregorianDays.dayOfEra (n + 719468) -
    GregorianDays.daysBefore (GregorianDays.yearOfEra (GregorianDays.dayOfEra (n + 719468))) := rfl
  obtain ⟨hmonth, hday⟩ := GregorianDays.valid_of_number (n + 719468)
  have hdoy := GregorianDays.dayOfYear_bounds (n + 719468)
  have hlength := yearDays_le (GregorianDays.yearOf (n + 719468))
  have hmonthOf : GregorianDays.monthOf (n + 719468) =
    (5 * GregorianDays.dayOfYear (n + 719468) + 2) / 153 := rfl
  have hdayOf : GregorianDays.dayOf (n + 719468) = GregorianDays.dayOfYear (n + 719468) -
    (153 * GregorianDays.monthOf (n + 719468) + 2) / 5 + 1 := rfl
  have hdoe := GregorianDays.dayOfEra_lt (n + 719468)
  obtain ⟨hyoe, -, -⟩ := GregorianDays.yearOfEra_spec hdoe
  have hcast := yearOfEra_cast (GregorianDays.dayOfEra (n + 719468))
  rw [daysBefore_yearOfEra _ hyoe] at hdayOfYear
  generalize GregorianDays.dayOfEra (n + 719468) = doe at *
  generalize GregorianDays.yearOfEra doe = yoe at *
  generalize (n + 719468) / 146097 = era at *
  have hfourYears : 0 ≤ (doe : Int) / 1460 ∧ (doe : Int) / 1460 < 400 := by omega
  have hcenturies : 0 ≤ (doe : Int) / 36524 ∧ (doe : Int) / 36524 < 400 := by omega
  have heras : 0 ≤ (doe : Int) / 146096 ∧ (doe : Int) / 146096 < 400 := by omega
  have hrest : 0 ≤ (doe : Int) - (doe : Int) / 1460 + (doe : Int) / 36524 - (doe : Int) / 146096 := by
    omega
  rw [quot_nonneg ⟨by omega, by omega⟩ (by decide), some_bind, sub_eq ⟨by omega, by omega⟩, some_bind,
    quot_nonneg ⟨by omega, by omega⟩ (by decide), some_bind, add_eq ⟨by omega, by omega⟩, some_bind,
    quot_nonneg ⟨by omega, by omega⟩ (by decide), some_bind, sub_eq ⟨by omega, by omega⟩, some_bind,
    quot_nonneg ⟨hrest, by omega⟩ (by decide), some_bind, ← hcast]
  clear hcast hrest hfourYears hcenturies heras
  have hfourths : 0 ≤ (yoe : Int) / 4 ∧ (yoe : Int) / 4 < 400 := by omega
  have hhundredths : 0 ≤ (yoe : Int) / 100 ∧ (yoe : Int) / 100 < 400 := by omega
  rw [mul_eq ⟨by omega, by omega⟩, some_bind, add_eq ⟨by omega, by omega⟩, some_bind, ← hyear,
    mul_eq ⟨by omega, by omega⟩, some_bind, quot_nonneg ⟨by omega, by omega⟩ (by decide), some_bind,
    add_eq ⟨by omega, by omega⟩, some_bind, quot_nonneg ⟨by omega, by omega⟩ (by decide), some_bind,
    sub_eq ⟨by omega, by omega⟩, some_bind, sub_eq ⟨by omega, by omega⟩, some_bind, ← hdayOfYear]
  clear hdayOfYear hfourths hhundredths
  generalize GregorianDays.dayOfYear (n + 719468) = doy at *
  rw [mul_eq ⟨by omega, by omega⟩, some_bind, add_eq ⟨by omega, by omega⟩, some_bind,
    quot_nonneg ⟨by omega, by omega⟩ (by decide), some_bind, ← hmonthOf]
  clear hmonthOf
  generalize GregorianDays.monthOf (n + 719468) = month at *
  rw [mul_eq ⟨by omega, by omega⟩, some_bind, add_eq ⟨by omega, by omega⟩, some_bind,
    quot_nonneg ⟨by omega, by omega⟩ (by decide), some_bind, sub_eq ⟨by omega, by omega⟩, some_bind,
    add_eq ⟨by omega, by omega⟩, some_bind, ← hdayOf, ofMarch]
  have hbound : -3000000000 < GregorianDays.yearOf (n + 719468) ∧
    GregorianDays.yearOf (n + 719468) < 3000000000 := by omega
  generalize GregorianDays.yearOf (n + 719468) = year at *
  generalize GregorianDays.dayOf (n + 719468) = day at *
  by_cases hlate : month < 10
  · rw [if_pos hlate, if_pos hlate, if_pos hlate]
    rw [pure_bind, add_eq ⟨by omega, by omega⟩, some_bind, if_neg (by omega), pure_bind]
    rfl
  · have hshift : sub 64 0 9 = some (0 - 9) := rfl
    rw [if_neg hlate, if_neg hlate, if_neg hlate, hshift, some_bind, add_eq ⟨by omega, by omega⟩,
      some_bind, if_pos (by omega), add_eq ⟨by omega, by omega⟩, some_bind]
    rfl

theorem checkedFromSysDays_eq (n : Int) : checkedFromSysDays n = some (fromSysDays n) := by
  rw [checkedFromSysDays, checkedToSysDays_eq (by decide), some_bind, toSysDays_first, unwrap,
    some_bind, checkedToSysDays_eq (by decide), some_bind, toSysDays_last, unwrap, some_bind,
    fromSysDays_eq]
  by_cases hlimits : n < firstDay ∨ n > lastDay
  · rw [if_pos hlimits, if_pos hlimits]
    rfl
  · rw [if_neg hlimits, if_neg hlimits, checkedDateOf_eq (by omega), some_bind]
    rfl

structure Year where
  value : Int
  deriving DecidableEq

structure YearMonth where
  year : Int
  month : Int
  deriving DecidableEq

def isValidYear (year : Int) : Bool := year ≥ -32767 && year ≤ 32767

def isValidYearMonth (value : YearMonth) : Bool :=
  isValidYear value.year && value.month ≥ 1 && value.month ≤ 12

def shiftedYear (minimumYear maximumYear year offset : Int) : Checked (Option Int) := do
  if ← exceeds 64 minimumYear maximumYear year offset then pure none
  else
    let target ← add 64 year offset
    pure (some (i32 target))

def shiftedMonth (minimumYear maximumYear year month offset : Int) :
    Checked (Option YearMonth) := do
  let currentMonth ← mul 64 year 12
  let currentMonth ← add 64 currentMonth month
  let currentMonth ← sub 64 currentMonth 1
  let minimumMonth ← mul 64 minimumYear 12
  let maximumMonth ← mul 64 maximumYear 12
  let maximumMonth ← add 64 maximumMonth 11
  if ← exceeds 64 minimumMonth maximumMonth currentMonth offset then pure none
  else
    let targetMonth ← add 64 currentMonth offset
    let targetYear ← floorQuotient targetMonth 12
    let targetStart ← mul 64 targetYear 12
    let targetMonthInYear ← sub 64 targetMonth targetStart
    let targetMonthInYear ← add 64 targetMonthInYear 1
    pure (some { year := i32 targetYear, month := i32 targetMonthInYear })

def addYears (value : Year) (offset : Int) : Checked (Option Year) := do
  if !isValidYear value.value then pure none
  else
    let year ← shiftedYear (-32767) 32767 value.value offset
    pure (year.map fun year => { value := year })

def addYearMonthYears (value : YearMonth) (offset : Int) : Checked (Option YearMonth) := do
  if !isValidYearMonth value then pure none
  else
    let year ← shiftedYear (-32767) 32767 value.year offset
    pure (year.map fun year => { year := year, month := value.month })

def addYearMonthMonths (value : YearMonth) (offset : Int) : Checked (Option YearMonth) := do
  if !isValidYearMonth value then pure none
  else shiftedMonth (-32767) 32767 value.year value.month offset

def monthsBetween (first last : YearMonth) : Checked (Option Int) := do
  if !isValidYearMonth first || !isValidYearMonth last then pure none
  else
    let firstIndex ← mul 64 first.year 12
    let firstIndex ← add 64 firstIndex first.month
    let firstIndex ← sub 64 firstIndex 1
    let lastIndex ← mul 64 last.year 12
    let lastIndex ← add 64 lastIndex last.month
    let lastIndex ← sub 64 lastIndex 1
    let distance ← sub 64 lastIndex firstIndex
    pure (some distance)

def addCivilYears (date : CivilDate) (offset : Int) : Checked (Option CivilDate) := do
  if !isValidCivilDate date.year date.month date.day then pure none
  else
    let year ← shiftedYear (-2147483648) 2147483647 date.year offset
    pure (year.map fun year => { year := year, month := date.month, day := date.day })

def addCivilMonths (date : CivilDate) (offset : Int) : Checked (Option CivilDate) := do
  if !isValidCivilDate date.year date.month date.day then pure none
  else
    let target ← shiftedMonth (-2147483648) 2147483647 date.year date.month offset
    pure (target.map fun target => { year := target.year, month := target.month, day := date.day })

def addCivilDays (date : CivilDate) (offset : Int) : Checked (Option CivilDate) := do
  match ← checkedToSysDays date.year date.month date.day with
  | none => pure none
  | some currentDay =>
    let minimumDay ← checkedToSysDays (-2147483648) 1 1
    let minimumDay ← unwrap minimumDay
    let maximumDay ← checkedToSysDays 2147483647 12 31
    let maximumDay ← unwrap maximumDay
    if ← exceeds 64 minimumDay maximumDay currentDay offset then pure none
    else
      let target ← add 64 currentDay offset
      checkedFromSysDays target

def daysBetween (first last : CivilDate) : Checked (Option Int) := do
  let firstDay ← checkedToSysDays first.year first.month first.day
  let lastDay ← checkedToSysDays last.year last.month last.day
  match firstDay, lastDay with
  | some firstDay, some lastDay =>
    let distance ← sub 64 lastDay firstDay
    pure (some distance)
  | _, _ => pure none

def monthIndex (year month : Int) : Int := year * 12 + month - 1

variable {low high k : Int}

theorem shiftedYear_eq (hlow : -2 ^ 31 ≤ low ∧ low < 0) (hhigh : 0 ≤ high ∧ high < 2 ^ 31)
    (hy : low ≤ y ∧ y ≤ high) (hk : Fits 64 k) :
    shiftedYear low high y k = some (if low ≤ y + k ∧ y + k ≤ high then some (y + k) else none) := by
  rw [shiftedYear, exceeds_eq ⟨by omega, by omega⟩ ⟨by omega, by omega⟩ hlow.2 hhigh.1 hy hk, some_bind]
  by_cases hwithin : low ≤ y + k ∧ y + k ≤ high
  · rw [decide_eq_false (not_not_intro hwithin), if_neg (by decide), if_pos hwithin,
      add_eq ⟨by omega, by omega⟩, some_bind, i32_of_range (by omega)]
    rfl
  · rw [decide_eq_true hwithin, if_pos rfl, if_neg hwithin]
    rfl

def monthAt (index : Int) : YearMonth := { year := index / 12, month := index % 12 + 1 }

theorem shiftedMonth_eq (hlow : -2 ^ 31 ≤ low ∧ low < 0) (hhigh : 0 ≤ high ∧ high < 2 ^ 31)
    (hy : low ≤ y ∧ y ≤ high) (hm : 1 ≤ m ∧ m ≤ 12) (hk : Fits 64 k) :
    shiftedMonth low high y m k =
      some (if low ≤ (monthIndex y m + k) / 12 ∧ (monthIndex y m + k) / 12 ≤ high then
        some (monthAt (monthIndex y m + k)) else none) := by
  have hiff : (low * 12 ≤ monthIndex y m + k ∧ monthIndex y m + k ≤ high * 12 + 11) ↔
      low ≤ (monthIndex y m + k) / 12 ∧ (monthIndex y m + k) / 12 ≤ high := by omega
  have hindex : low * 12 ≤ monthIndex y m ∧ monthIndex y m ≤ high * 12 + 11 := by
    rw [monthIndex]
    omega
  rw [shiftedMonth, mul_eq ⟨by omega, by omega⟩, some_bind, add_eq ⟨by omega, by omega⟩, some_bind,
    sub_eq ⟨by omega, by omega⟩, some_bind, ← monthIndex, mul_eq ⟨by omega, by omega⟩, some_bind,
    mul_eq ⟨by omega, by omega⟩, some_bind, add_eq ⟨by omega, by omega⟩, some_bind,
    exceeds_eq ⟨by omega, by omega⟩ ⟨by omega, by omega⟩ (by omega) (by omega) hindex hk, some_bind]
  generalize monthIndex y m = index at *
  by_cases hwithin : low * 12 ≤ index + k ∧ index + k ≤ high * 12 + 11
  · have htarget : floorQuotient (index + k) 12 = some ((index + k) / 12) :=
      floorQuotient_eq (by decide) ⟨by omega, by omega⟩
    have hrest : index + k - (index + k) / 12 * 12 = (index + k) % 12 := by omega
    rw [decide_eq_false (not_not_intro hwithin), if_neg (by decide), if_pos (hiff.mp hwithin),
      add_eq ⟨by omega, by omega⟩, some_bind, htarget, some_bind, mul_eq ⟨by omega, by omega⟩,
      some_bind, sub_eq ⟨by omega, by omega⟩, some_bind, hrest, add_eq ⟨by omega, by omega⟩,
      some_bind, i32_of_range (by omega), i32_of_range (by omega)]
    rfl
  · rw [decide_eq_true hwithin, if_pos rfl, if_neg (mt hiff.mpr hwithin)]
    rfl

theorem monthIndex_monthAt (index : Int) :
    monthIndex (monthAt index).year (monthAt index).month = index := by
  rw [monthIndex, monthAt]
  dsimp only
  omega

theorem monthAt_monthIndex (hm : 1 ≤ m ∧ m ≤ 12) (y : Int) :
    monthAt (monthIndex y m) = { year := y, month := m } := by
  rw [monthIndex, monthAt]
  congr 1 <;> omega

variable {v r : YearMonth} {d e : CivilDate}

theorem isValidYear_iff (y : Int) : isValidYear y = true ↔ -32767 ≤ y ∧ y ≤ 32767 := by
  rw [isValidYear, and_eq_true, decide_eq_true_iff, decide_eq_true_iff]

theorem isValidYearMonth_iff :
    isValidYearMonth v = true ↔ (-32767 ≤ v.year ∧ v.year ≤ 32767) ∧ 1 ≤ v.month ∧ v.month ≤ 12 := by
  rw [isValidYearMonth, and_eq_true, and_eq_true, decide_eq_true_iff, decide_eq_true_iff,
    isValidYear_iff]
  exact and_assoc

variable (hv : isValidYearMonth v = true)
include hv

theorem addYearMonthMonths_eq (hk : Fits 64 k) :
    addYearMonthMonths v k =
      some (if -32767 ≤ (monthIndex v.year v.month + k) / 12 ∧
          (monthIndex v.year v.month + k) / 12 ≤ 32767 then
        some (monthAt (monthIndex v.year v.month + k)) else none) := by
  obtain ⟨hyear, hmonth⟩ := isValidYearMonth_iff.mp hv
  rw [addYearMonthMonths, hv, if_neg (by decide)]
  exact shiftedMonth_eq (by decide) (by decide) hyear hmonth hk

theorem monthsBetween_eq (hr : isValidYearMonth r = true) :
    monthsBetween v r = some (some (monthIndex r.year r.month - monthIndex v.year v.month)) := by
  obtain ⟨hyear, hmonth⟩ := isValidYearMonth_iff.mp hv
  obtain ⟨hyear', hmonth'⟩ := isValidYearMonth_iff.mp hr
  rw [monthsBetween, hv, hr, if_neg (by decide), mul_eq ⟨by omega, by omega⟩, some_bind,
    add_eq ⟨by omega, by omega⟩, some_bind, sub_eq ⟨by omega, by omega⟩, some_bind,
    mul_eq ⟨by omega, by omega⟩, some_bind, add_eq ⟨by omega, by omega⟩, some_bind,
    sub_eq ⟨by omega, by omega⟩, some_bind, sub_eq ⟨by omega, by omega⟩, some_bind]
  rfl

theorem addYearMonthMonths_iff (hk : Fits 64 k) :
    addYearMonthMonths v k = some (some r) ↔ monthsBetween v r = some (some k) := by
  rw [addYearMonthMonths_eq hv hk]
  constructor
  · intro h
    split_ifs at h with hwithin
    · obtain rfl := some.inj (some.inj h)
      have hvalid : isValidYearMonth (monthAt (monthIndex v.year v.month + k)) = true :=
        isValidYearMonth_iff.mpr ⟨hwithin, by rw [monthAt]; dsimp only; omega⟩
      rw [monthsBetween_eq hv hvalid, monthIndex_monthAt, add_sub_cancel_left]
    · exact absurd h (by simp)
  · intro h
    by_cases hr : isValidYearMonth r = true
    · obtain ⟨hyear, hmonth⟩ := isValidYearMonth_iff.mp hr
      rw [monthsBetween_eq hv hr, Option.some.injEq, Option.some.injEq] at h
      have hindex : monthIndex v.year v.month + k = monthIndex r.year r.month := by omega
      have htarget : monthIndex r.year r.month / 12 = r.year := by
        rw [monthIndex]
        omega
      rw [hindex, htarget, if_pos hyear, monthAt_monthIndex hmonth]
    · rw [not_eq_true] at hr
      rw [monthsBetween, hr, hv, if_pos (by decide)] at h
      exact absurd (some.inj h) (by simp)

omit hv

variable (hd : IsDate d)
include hd

theorem addCivilDays_eq (hk : Fits 64 k) :
    addCivilDays d k = some (fromSysDays (dayNumber d.year d.month d.day + k)) := by
  have hlimits := limits_of_isDate hd
  rw [addCivilDays, checkedToSysDays_eq hd.year, toSysDays_of_isDate hd, some_bind]
  dsimp only
  rw [checkedToSysDays_eq (by decide), some_bind, toSysDays_first, unwrap, some_bind,
    checkedToSysDays_eq (by decide), some_bind, toSysDays_last, unwrap, some_bind,
    exceeds_eq (by decide) (by decide) (by decide) (by decide) hlimits hk, some_bind]
  generalize dayNumber d.year d.month d.day = n at *
  by_cases hwithin : firstDay ≤ n + k ∧ n + k ≤ lastDay
  · have hsum : add 64 n k = some (n + k) := by
      rw [firstDay, lastDay] at hwithin
      exact add_eq ⟨by omega, by omega⟩
    rw [decide_eq_false (not_not_intro hwithin), if_neg (by decide), hsum, some_bind,
      checkedFromSysDays_eq]
  · rw [decide_eq_true hwithin, if_pos rfl, fromSysDays_eq, if_pos (by omega)]
    rfl

theorem daysBetween_eq (he : IsDate e) :
    daysBetween d e = some (some (dayNumber e.year e.month e.day - dayNumber d.year d.month d.day)) := by
  have hlimits := limits_of_isDate hd
  have hlimits' := limits_of_isDate he
  rw [firstDay, lastDay] at hlimits hlimits'
  rw [daysBetween, checkedToSysDays_eq hd.year, some_bind, checkedToSysDays_eq he.year, some_bind,
    toSysDays_of_isDate hd, toSysDays_of_isDate he]
  dsimp only
  rw [sub_eq ⟨by omega, by omega⟩, some_bind]
  rfl

theorem addCivilDays_iff (he : Fits 32 e.year) (hk : Fits 64 k) :
    addCivilDays d k = some (some e) ↔ daysBetween d e = some (some k) := by
  rw [addCivilDays_eq hd hk, Option.some.injEq]
  constructor
  · intro h
    obtain ⟨hdate, hnumber⟩ := date_of_some h
    rw [toSysDays_of_isDate hdate, Option.some.injEq] at hnumber
    rw [daysBetween_eq hd hdate, hnumber, add_sub_cancel_left]
  · intro h
    by_cases hvalid : isValidCivilDate e.year e.month e.day = true
    · have hdate : IsDate e := ⟨he, hvalid⟩
      rw [daysBetween_eq hd hdate, Option.some.injEq, Option.some.injEq] at h
      have hnumber : dayNumber d.year d.month d.day + k = dayNumber e.year e.month e.day := by omega
      rw [hnumber]
      exact fromSysDays_number hdate
    · rw [not_eq_true] at hvalid
      have hnone : toSysDays e.year e.month e.day = none := by
        rw [toSysDays, hvalid]
        rfl
      rw [daysBetween, checkedToSysDays_eq hd.year, some_bind, checkedToSysDays_eq he, some_bind, hnone,
        toSysDays_of_isDate hd] at h
      exact absurd (some.inj h) (by simp)

theorem addCivilDays_none (hk : Fits 64 k) :
    addCivilDays d k = some none ↔ ¬ Fits 32 (dateOf (dayNumber d.year d.month d.day + k)).year := by
  have hvalid := (dateOf_spec (dayNumber d.year d.month d.day + k)).1
  have hnumber := (dateOf_spec (dayNumber d.year d.month d.day + k)).2
  rw [addCivilDays_eq hd hk, Option.some.injEq]
  constructor
  · intro hnone hyear
    have hlimits := limits_of_isDate ⟨hyear, hvalid⟩
    rw [hnumber] at hlimits
    rw [fromSysDays_some hlimits] at hnone
    exact absurd hnone (by simp)
  · intro hyear
    rw [fromSysDays_eq, if_pos]
    by_contra hlimits
    exact hyear (isDate_of_limits ⟨by omega, by omega⟩).year

theorem addCivilMonths_eq (hk : Fits 64 k) :
    addCivilMonths d k =
      some (if Fits 32 ((monthIndex d.year d.month + k) / 12) then
        some { year := (monthAt (monthIndex d.year d.month + k)).year,
               month := (monthAt (monthIndex d.year d.month + k)).month, day := d.day } else none) := by
  obtain ⟨hlow, hhigh⟩ := hd.year
  have hiff : (-2147483648 ≤ (monthIndex d.year d.month + k) / 12 ∧
      (monthIndex d.year d.month + k) / 12 ≤ 2147483647) ↔
        Fits 32 ((monthIndex d.year d.month + k) / 12) := by
    rw [Fits]
    omega
  rw [addCivilMonths, hd.valid, if_neg (by decide),
    shiftedMonth_eq (by decide) (by decide) ⟨by omega, by omega⟩ (bounds_of_valid hd.valid).1 hk,
    some_bind]
  by_cases hfits : Fits 32 ((monthIndex d.year d.month + k) / 12)
  · rw [if_pos (hiff.mpr hfits), if_pos hfits]
    rfl
  · rw [if_neg (mt hiff.mp hfits), if_neg hfits]
    rfl

theorem addCivilYears_eq (hk : Fits 64 k) :
    addCivilYears d k =
      some (if Fits 32 (d.year + k) then
        some { year := d.year + k, month := d.month, day := d.day } else none) := by
  obtain ⟨hlow, hhigh⟩ := hd.year
  have hiff : (-2147483648 ≤ d.year + k ∧ d.year + k ≤ 2147483647) ↔ Fits 32 (d.year + k) := by
    rw [Fits]
    omega
  rw [addCivilYears, hd.valid, if_neg (by decide),
    shiftedYear_eq (by decide) (by decide) ⟨by omega, by omega⟩ hk, some_bind]
  by_cases hfits : Fits 32 (d.year + k)
  · rw [if_pos (hiff.mpr hfits), if_pos hfits]
    rfl
  · rw [if_neg (mt hiff.mp hfits), if_neg hfits]
    rfl

omit hd

theorem addYears_eq {value : Year} (hvalue : isValidYear value.value = true) (hk : Fits 64 k) :
    addYears value k =
      some (if -32767 ≤ value.value + k ∧ value.value + k ≤ 32767 then
        some { value := value.value + k } else none) := by
  rw [addYears, hvalue, if_neg (by decide),
    shiftedYear_eq (by decide) (by decide) ((isValidYear_iff _).mp hvalue) hk, some_bind]
  split_ifs <;> rfl

theorem addYearMonthYears_eq (hv : isValidYearMonth v = true) (hk : Fits 64 k) :
    addYearMonthYears v k =
      some (if -32767 ≤ v.year + k ∧ v.year + k ≤ 32767 then
        some { year := v.year + k, month := v.month } else none) := by
  rw [addYearMonthYears, hv, if_neg (by decide),
    shiftedYear_eq (by decide) (by decide) (isValidYearMonth_iff.mp hv).1 hk, some_bind]
  split_ifs <;> rfl

/-- No offset overflows on the way, and each gives what lies that far, as far as the years go. -/
theorem calendarOffsets_exact (k : Int) (hk : Fits 64 k) :
    (∀ value : Year, isValidYear value.value = true → addYears value k =
        some (if -32767 ≤ value.value + k ∧ value.value + k ≤ 32767 then
          some { value := value.value + k } else none)) ∧
    (∀ v, isValidYearMonth v = true → addYearMonthYears v k =
        some (if -32767 ≤ v.year + k ∧ v.year + k ≤ 32767 then
          some { year := v.year + k, month := v.month } else none)) ∧
    (∀ v, isValidYearMonth v = true → (addYearMonthMonths v k).isSome ∧
      (addYearMonthMonths v k = some none ↔ ¬ (-32767 ≤ (monthIndex v.year v.month + k) / 12 ∧
        (monthIndex v.year v.month + k) / 12 ≤ 32767)) ∧
      ∀ r, addYearMonthMonths v k = some (some r) ↔ monthsBetween v r = some (some k)) ∧
    (∀ d, IsDate d → (addCivilDays d k).isSome ∧ (addCivilDays d k = some none ↔
        ¬ Fits 32 (dateOf (dayNumber d.year d.month d.day + k)).year) ∧
      ∀ e : CivilDate, Fits 32 e.year →
        (addCivilDays d k = some (some e) ↔ daysBetween d e = some (some k))) ∧
    (∀ d, IsDate d → addCivilYears d k =
        some (if Fits 32 (d.year + k) then
          some { year := d.year + k, month := d.month, day := d.day } else none)) ∧
    ∀ d, IsDate d →
      (addCivilMonths d k).isSome ∧
      (addCivilMonths d k = some none ↔ ¬ Fits 32 ((monthIndex d.year d.month + k) / 12)) ∧
      ∀ e, addCivilMonths d k = some (some e) →
        e.day = d.day ∧ (1 ≤ e.month ∧ e.month ≤ 12) ∧
          monthIndex e.year e.month = monthIndex d.year d.month + k := by
  refine ⟨fun value hvalue => addYears_eq hvalue hk, fun v hv => addYearMonthYears_eq hv hk,
    fun v hv => ⟨?_, ?_, fun r => addYearMonthMonths_iff hv hk⟩, fun d hd => ⟨?_, addCivilDays_none hd hk,
    fun e he => addCivilDays_iff hd he hk⟩, fun d hd => addCivilYears_eq hd hk,
    fun d hd => ⟨?_, ?_, fun e he => ?_⟩⟩
  · rw [addYearMonthMonths_eq hv hk]
    rfl
  · rw [addYearMonthMonths_eq hv hk, Option.some.injEq, ite_eq_right_iff]
    simp
  · rw [addCivilDays_eq hd hk]
    rfl
  · rw [addCivilMonths_eq hd hk]
    rfl
  · rw [addCivilMonths_eq hd hk, Option.some.injEq, ite_eq_right_iff]
    simp
  · rw [addCivilMonths_eq hd hk, Option.some.injEq] at he
    split_ifs at he with hfits
    obtain rfl := some.inj he
    refine ⟨rfl, ?_, monthIndex_monthAt _⟩
    rw [monthAt]
    dsimp only
    omega

/-- A month before January is December. -/
theorem december_before :
    addYearMonthMonths { year := 0, month := 1 } (-1) = some (some { year := -1, month := 12 }) :=
  (((calendarOffsets_exact (-1) (by decide)).2.2.1 { year := 0, month := 1 } (by decide)).2.2
    { year := -1, month := 12 }).mpr (by decide)

/-- An offset after another that stays in range is their sum. -/
theorem offsets_add (d e : CivilDate) (v r : YearMonth) (j k : Int) (hj : Fits 64 j) (hk : Fits 64 k)
    (hsum : Fits 64 (j + k)) (hd : IsDate d) (hv : isValidYearMonth v = true) :
    (addCivilDays d j = some (some e) → addCivilDays e k = addCivilDays d (j + k)) ∧
      (addYearMonthMonths v j = some (some r) → addYearMonthMonths r k = addYearMonthMonths v (j + k)) := by
  refine ⟨fun h => ?_, fun h => ?_⟩
  · rw [addCivilDays_eq hd hj, Option.some.injEq] at h
    obtain ⟨hdate, hnumber⟩ := date_of_some h
    rw [toSysDays_of_isDate hdate, Option.some.injEq] at hnumber
    rw [addCivilDays_eq hdate hk, addCivilDays_eq hd hsum, hnumber, add_assoc]
  · rw [addYearMonthMonths_eq hv hj] at h
    split_ifs at h with hwithin
    · obtain rfl := some.inj (some.inj h)
      have hvalid : isValidYearMonth (monthAt (monthIndex v.year v.month + j)) = true :=
        isValidYearMonth_iff.mpr ⟨hwithin, by rw [monthAt]; dsimp only; omega⟩
      rw [addYearMonthMonths_eq hvalid hk, addYearMonthMonths_eq hv hsum, monthIndex_monthAt, add_assoc]
    · exact absurd h (by simp)

theorem offsets_add_december : addYearMonthMonths { year := -1, month := 12 } 1 =
    addYearMonthMonths { year := 0, month := 1 } (-1 + 1) :=
  (offsets_add ⟨2024, 1, 1⟩ ⟨2024, 1, 1⟩ { year := 0, month := 1 } { year := -1, month := 12 } (-1) 1 (by decide)
    (by decide) (by decide) ⟨by decide, by decide⟩ (by decide)).2 (by decide)

end Mlang.CalendarOffsets
