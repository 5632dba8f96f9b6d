import Mlang.CheckedIntegers
import Mlang.CivilDates

namespace Mlang.WeekDates

open CheckedIntegers List
open GregorianDays (number yearDays daysBefore_succ)
open CivilDates
open Option (bind_eq_bind bind_some)

variable {x y m d n : Int}

def yearStart (y : Int) : Int := dayNumber y 1 1

theorem isValid_january (h : 1 ≤ d ∧ d ≤ 31) (y : Int) : isValidCivilDate y 1 d = true := by
  have hlength : daysInMonth y 1 = 31 := rfl
  rw [isValidCivilDate, hlength, decide_eq_true h.1, decide_eq_true h.2]
  rfl

theorem isValid_first (y : Int) : isValidCivilDate y 1 1 = true := isValid_january (by decide) y

theorem yearStart_succ (y : Int) :
    yearStart (y + 1) = yearStart y + if isLeapYear y then 366 else 365 := by
  have hnext : y + 1 - 1 = y - 1 + 1 := by omega
  have hdays := daysBefore_succ (y - 1)
  have hleap : (if isLeapYear y then 366 else 365) = yearDays (y - 1) :=
    if_congr (isLeapYear_iff y) rfl rfl
  rw [yearStart, yearStart, dayNumber, dayNumber, number, number, marchYear, marchYear,
    if_pos (by decide), if_pos (by decide), hleap, hnext, hdays]
  omega

theorem yearStart_mono (h : x ≤ y) : yearStart x ≤ yearStart y := by
  rcases Int.lt_or_eq_of_le h with hlt | rfl
  · exact (dayNumber_lt (a := ⟨x, 1, 1⟩) (b := ⟨y, 1, 1⟩) (isValid_first x) (isValid_first y)
      (.inl hlt)).le
  · exact le_rfl

theorem yearStart_le (hvalid : isValidCivilDate y m d = true) : yearStart y ≤ dayNumber y m d := by
  obtain ⟨hmonth, hday⟩ := bounds_of_valid hvalid
  obtain hbefore | heq | hafter := before_total ⟨y, m, d⟩ ⟨y, 1, 1⟩
  · unfold Before at hbefore
    dsimp only at hbefore
    omega
  · obtain ⟨-, rfl, rfl⟩ := CivilDate.mk.inj heq
    exact le_rfl
  · exact (dayNumber_lt (isValid_first y) hvalid hafter).le

theorem lt_yearStart (hvalid : isValidCivilDate y m d = true) : dayNumber y m d < yearStart (y + 1) :=
  dayNumber_lt (a := ⟨y, m, d⟩) (b := ⟨y + 1, 1, 1⟩) hvalid (isValid_first (y + 1))
    (.inl (Int.lt_succ y))

theorem year_dateOf : (dateOf n).year = y ↔ yearStart y ≤ n ∧ n < yearStart (y + 1) := by
  obtain ⟨hvalid, hnumber⟩ := dateOf_spec n
  have hfirst := yearStart_le hvalid
  have hlast := lt_yearStart hvalid
  rw [hnumber] at hfirst hlast
  constructor
  · rintro rfl
    exact ⟨hfirst, hlast⟩
  · rintro ⟨hge, hlt⟩
    obtain hyear | hyear | hyear := lt_trichotomy (dateOf n).year y
    · have hle := yearStart_mono (show (dateOf n).year + 1 ≤ y from hyear)
      omega
    · exact hyear
    · have hle := yearStart_mono (show y + 1 ≤ (dateOf n).year from hyear)
      omega

theorem limits_iff : Fits 32 (dateOf n).year ↔ firstDay ≤ n ∧ n ≤ lastDay := by
  obtain ⟨hvalid, hnumber⟩ := dateOf_spec n
  constructor
  · intro hyear
    have hlimits := limits_of_isDate ⟨hyear, hvalid⟩
    rwa [hnumber] at hlimits
  · exact fun hlimits => (isDate_of_limits hlimits).year

structure IsoWeekDate where
  year : Int
  week : Int
  weekday : Int
  deriving DecidableEq

def weekdayFromSysDays (days : Int) : Int :=
  let weekday := (days.tmod 7 + 4).tmod 7
  i32 (if weekday < 0 then weekday + 7 else weekday)

def isoWeekday (days : Int) : Int :=
  let sundayBased := weekdayFromSysDays days
  if sundayBased = 0 then 7 else sundayBased

def firstMonday (year : Int) : Checked Int := do
  let janFourth ← unwrap (toSysDays year 1 4)
  pure (janFourth - (isoWeekday janFourth - 1))

def toIsoWeekDate (date : CivilDate) : Checked (Option IsoWeekDate) :=
  match toSysDays date.year date.month date.day with
  | none => pure none
  | some days =>
    let weekday := isoWeekday days
    match fromSysDays (days + (4 - weekday)) with
    | none => pure none
    | some thursday => do
      let firstMonday ← firstMonday thursday.year
      let week := i32 ((days - firstMonday).tdiv 7 + 1)
      pure (some ⟨thursday.year, week, weekday⟩)

def fromIsoWeekDate (iso : IsoWeekDate) : Checked (Option CivilDate) :=
  if iso.week < 1 ∨ iso.week > 53 ∨ iso.weekday < 1 ∨ iso.weekday > 7 then pure none
  else do
    let firstMonday ← firstMonday iso.year
    let targetDay := firstMonday + ((iso.week - 1) * 7 + iso.weekday - 1)
    match fromSysDays targetDay with
    | none => pure none
    | some civil =>
      match ← toIsoWeekDate civil with
      | none => pure none
      | some actual =>
        if actual.year ≠ iso.year ∨ actual.week ≠ iso.week ∨ actual.weekday ≠ iso.weekday then
          pure none
        else pure (some civil)

variable {date : CivilDate} {iso : IsoWeekDate}

theorem weekdayFromSysDays_eq (n : Int) : weekdayFromSysDays n = (n + 4) % 7 := by
  have hinner := truncated_tdiv (show 0 < 7 by decide) n
  have houter := truncated_tdiv (show 0 < 7 by decide) (n.tmod 7 + 4)
  obtain ⟨hsplit, -, -, habove, hbelow⟩ := hinner
  obtain ⟨hsplit', -, -, habove', hbelow'⟩ := houter
  rw [weekdayFromSysDays]
  generalize (n.tmod 7 + 4).tmod 7 = weekday at *
  generalize (n.tmod 7 + 4).tdiv 7 = weeks at *
  rw [i32_of_range (by split_ifs <;> omega)]
  split_ifs <;> omega

theorem isoWeekday_eq (n : Int) : isoWeekday n = (n + 3) % 7 + 1 := by
  rw [isoWeekday, weekdayFromSysDays_eq]
  split_ifs <;> omega

def firstThursday (y : Int) : Int := yearStart y + -yearStart y % 7

theorem firstMonday_eq (y : Int) : firstMonday y = some (firstThursday y - 3) := by
  have hfourth : dayNumber y 1 4 = yearStart y + 3 := by
    rw [yearStart, dayNumber, dayNumber, number, number]
    omega
  rw [firstMonday, toSysDays_eq (isValid_january (by decide) y), hfourth, unwrap]
  simp only [bind_eq_bind, bind_some, isoWeekday_eq]
  exact congrArg some (by rw [firstThursday]; omega)

def thursdayOf (n : Int) : Int := n - (n + 3) % 7 + 3

def weekDate (n : Int) : IsoWeekDate :=
  ⟨(dateOf (thursdayOf n)).year,
    (thursdayOf n - firstThursday (dateOf (thursdayOf n)).year) / 7 + 1, (n + 3) % 7 + 1⟩

theorem firstThursday_bounds (y : Int) :
    firstThursday y % 7 = 0 ∧ yearStart y ≤ firstThursday y ∧ firstThursday y < yearStart y + 7 := by
  rw [firstThursday]
  omega

theorem thursday_bounds (hyear : (dateOf n).year = y) (hthursday : n % 7 = 0) :
    firstThursday y ≤ n ∧ n < firstThursday y + 366 := by
  obtain ⟨hge, hlt⟩ := year_dateOf.mp hyear
  have hfirst := firstThursday_bounds y
  rw [yearStart_succ] at hlt
  split_ifs at hlt <;> omega

theorem toIsoWeekDate_eq (hdate : IsDate date) :
    toIsoWeekDate date =
      some (if firstDay ≤ thursdayOf (dayNumber date.year date.month date.day) ∧
          thursdayOf (dayNumber date.year date.month date.day) ≤ lastDay then
        some (weekDate (dayNumber date.year date.month date.day)) else none) := by
  rw [toIsoWeekDate, toSysDays_of_isDate hdate]
  generalize dayNumber date.year date.month date.day = n
  have hthursday : n + (4 - isoWeekday n) = thursdayOf n := by
    rw [isoWeekday_eq, thursdayOf]
    omega
  dsimp only
  rw [hthursday]
  by_cases hlimits : firstDay ≤ thursdayOf n ∧ thursdayOf n ≤ lastDay
  · have hmultiple : thursdayOf n % 7 = 0 := by
      rw [thursdayOf]
      omega
    have hbounds := thursday_bounds rfl hmultiple
    have hfirst := firstThursday_bounds (dateOf (thursdayOf n)).year
    have hweek : (n - (firstThursday (dateOf (thursdayOf n)).year - 3)).tdiv 7 =
        (thursdayOf n - firstThursday (dateOf (thursdayOf n)).year) / 7 := by
      have hnear : thursdayOf n - 3 ≤ n ∧ n ≤ thursdayOf n + 3 := by
        rw [thursdayOf]
        omega
      rw [Int.tdiv_eq_ediv_of_nonneg (by omega)]
      omega
    rw [fromSysDays_some hlimits, if_pos hlimits]
    dsimp only
    rw [firstMonday_eq]
    simp only [bind_eq_bind, bind_some]
    rw [hweek, isoWeekday_eq, weekDate, i32_of_range (by omega)]
    rfl
  · rw [fromSysDays_eq, if_pos (by omega), if_neg hlimits]
    rfl

def isoThursday (iso : IsoWeekDate) : Int := firstThursday iso.year + 7 * (iso.week - 1)

def isoDay (iso : IsoWeekDate) : Int := isoThursday iso + (iso.weekday - 4)

/-- A year has 52 weeks, or one more if it begins with a Thursday, or is a leap year that begins
with a Wednesday. -/
def IsoWeekExists (iso : IsoWeekDate) : Prop :=
  (1 ≤ iso.weekday ∧ iso.weekday ≤ 7) ∧ 1 ≤ iso.week ∧ (iso.week ≤ 52 ∨ iso.week = 53 ∧
    (weekdayFromSysDays (dayNumber iso.year 1 1) = 4 ∨
      isLeapYear iso.year = true ∧ weekdayFromSysDays (dayNumber iso.year 1 1) = 3))

variable (hweekday : 1 ≤ iso.weekday ∧ iso.weekday ≤ 7)
include hweekday

theorem isoWeekExists_iff (hweek : 1 ≤ iso.week ∧ iso.week ≤ 53) :
    IsoWeekExists iso ↔ (dateOf (isoThursday iso)).year = iso.year := by
  rw [year_dateOf, yearStart_succ, IsoWeekExists, weekdayFromSysDays_eq, ← yearStart, isoThursday,
    firstThursday]
  cases isLeapYear iso.year
  · rw [if_neg (by decide)]
    simp only [Bool.false_eq_true, false_and, or_false]
    omega
  · rw [if_pos rfl]
    simp only [true_and]
    omega

theorem thursdayOf_isoDay :
    thursdayOf (isoDay iso) = isoThursday iso ∧ (isoDay iso + 3) % 7 + 1 = iso.weekday := by
  have hfirst := firstThursday_bounds iso.year
  rw [thursdayOf, isoDay, isoThursday]
  omega

theorem weekDate_isoDay (hyear : (dateOf (isoThursday iso)).year = iso.year) : weekDate (isoDay iso) = iso := by
  obtain ⟨hthursday, hday⟩ := thursdayOf_isoDay hweekday
  have hweek : (isoThursday iso - firstThursday iso.year) / 7 + 1 = iso.week := by
    rw [isoThursday]
    omega
  rw [weekDate, hthursday, hyear, hweek, hday]

omit hweekday

theorem isoDay_weekDate (n : Int) :
    isoThursday (weekDate n) = thursdayOf n ∧ isoDay (weekDate n) = n := by
  have hfirst := firstThursday_bounds (dateOf (thursdayOf n)).year
  rw [isoDay, isoThursday, weekDate]
  dsimp only
  generalize firstThursday (dateOf (thursdayOf n)).year = first at *
  rw [thursdayOf]
  omega

theorem weekDate_bounds (n : Int) :
    (1 ≤ (weekDate n).week ∧ (weekDate n).week ≤ 53) ∧
      1 ≤ (weekDate n).weekday ∧ (weekDate n).weekday ≤ 7 := by
  have hmultiple : thursdayOf n % 7 = 0 := by
    rw [thursdayOf]
    omega
  have hbounds := thursday_bounds rfl hmultiple
  rw [weekDate]
  dsimp only
  omega

theorem isDate_isoDay (h : Fits 32 (dateOf (isoDay iso)).year) : IsDate (dateOf (isoDay iso)) :=
  ⟨h, (dateOf_spec _).1⟩

theorem fromIsoWeekDate_spec (hyear : Fits 32 iso.year) :
    ∃ result, fromIsoWeekDate iso = some result ∧ ∀ date, result = some date ↔
      IsoWeekExists iso ∧ Fits 32 (dateOf (isoDay iso)).year ∧ date = dateOf (isoDay iso) := by
  by_cases hbounds : iso.week < 1 ∨ iso.week > 53 ∨ iso.weekday < 1 ∨ iso.weekday > 7
  · refine ⟨none, if_pos hbounds, fun date => iff_of_false (by simp) ?_⟩
    rintro ⟨⟨hweekday, hfirst, hweek⟩, -⟩
    omega
  have hweekday : 1 ≤ iso.weekday ∧ iso.weekday ≤ 7 := by omega
  have htarget : firstThursday iso.year - 3 + ((iso.week - 1) * 7 + iso.weekday - 1) = isoDay iso := by
    rw [isoDay, isoThursday]
    omega
  have hexists := isoWeekExists_iff hweekday (by omega)
  obtain ⟨hthursday, -⟩ := thursdayOf_isoDay hweekday
  rw [fromIsoWeekDate, if_neg hbounds, firstMonday_eq]
  simp only [bind_eq_bind, bind_some]
  rw [htarget]
  by_cases hfits : Fits 32 (dateOf (isoDay iso)).year
  · have hlimits := limits_iff.mp hfits
    rw [fromSysDays_some hlimits]
    dsimp only
    rw [toIsoWeekDate_eq (isDate_isoDay hfits), (dateOf_spec (isoDay iso)).2, hthursday]
    by_cases hsame : (dateOf (isoThursday iso)).year = iso.year
    · have hinside : firstDay ≤ isoThursday iso ∧ isoThursday iso ≤ lastDay :=
        limits_iff.mp (by rw [hsame]; exact hyear)
      rw [if_pos hinside, weekDate_isoDay hweekday hsame]
      refine ⟨some (dateOf (isoDay iso)), ?_, fun date => ?_⟩
      · exact if_neg (by simp)
      · rw [Option.some.injEq]
        exact ⟨fun h => ⟨hexists.mpr hsame, hfits, h.symm⟩, fun h => h.2.2.symm⟩
    · refine ⟨none, ?_, fun date => iff_of_false (by simp) fun h => hsame (hexists.mp h.1)⟩
      have hother : (weekDate (isoDay iso)).year ≠ iso.year := by
        rw [weekDate, hthursday]
        exact hsame
      split_ifs
      · exact if_pos (.inl hother)
      · rfl
  · rw [fromSysDays_eq, if_pos (by rw [limits_iff] at hfits; omega)]
    exact ⟨none, rfl, fun date => iff_of_false (by simp) fun h => hfits h.2.1⟩

/-- Week dates and dates correspond, as far as the weeks and the years go. -/
theorem isoWeekDate_roundTrip :
    (∀ date, IsDate date → ∀ iso, toIsoWeekDate date = some (some iso) →
      (1 ≤ iso.week ∧ iso.week ≤ 53) ∧ (1 ≤ iso.weekday ∧ iso.weekday ≤ 7) ∧
        fromIsoWeekDate iso = some (some date)) ∧
    (∀ iso : IsoWeekDate, Fits 32 iso.year → Fits 32 iso.week → Fits 32 iso.weekday →
      (fromIsoWeekDate iso).isSome ∧
      ((∃ date, fromIsoWeekDate iso = some (some date)) ↔
        IsoWeekExists iso ∧ Fits 32 (dateOf (isoDay iso)).year) ∧
      ∀ date, fromIsoWeekDate iso = some (some date) → toIsoWeekDate date = some (some iso)) ∧
    (∀ date, IsDate date → (toIsoWeekDate date).isSome ∧ (toIsoWeekDate date = some none →
      ¬ Fits 32 (dateOf (thursdayOf (dayNumber date.year date.month date.day))).year)) := by
  refine ⟨fun date hdate iso hiso => ?_, fun iso hyear _ _ => ?_, fun date hdate => ?_⟩
  · have hnumber := dateOf_spec (dayNumber date.year date.month date.day)
    have hsame := eq_of_dayNumber hnumber.1 hdate.valid hnumber.2
    rw [toIsoWeekDate_eq hdate, Option.some.injEq] at hiso
    split_ifs at hiso with hlimits
    obtain rfl := Option.some.inj hiso
    generalize dayNumber date.year date.month date.day = n at *
    obtain ⟨hthursday, hday⟩ := isoDay_weekDate n
    obtain ⟨hweek, hweekday⟩ := weekDate_bounds n
    have hyear : Fits 32 (weekDate n).year := limits_iff.mpr hlimits
    obtain ⟨result, hresult, hspec⟩ := fromIsoWeekDate_spec hyear
    refine ⟨hweek, hweekday, ?_⟩
    rw [hresult, (hspec date).mpr ⟨?_, ?_, ?_⟩]
    · rw [isoWeekExists_iff hweekday hweek, hthursday]
      rfl
    · rw [hday, hsame]
      exact hdate.year
    · rw [hday, hsame]
  · obtain ⟨result, hresult, hspec⟩ := fromIsoWeekDate_spec hyear
    rw [hresult]
    refine ⟨rfl, ⟨?_, ?_⟩, ?_⟩
    · rintro ⟨date, hdate⟩
      obtain ⟨hexists, hfits, -⟩ := (hspec date).mp (Option.some.inj hdate)
      exact ⟨hexists, hfits⟩
    · rintro ⟨hexists, hfits⟩
      exact ⟨_, congrArg some ((hspec _).mpr ⟨hexists, hfits, rfl⟩)⟩
    · intro date hdate
      obtain ⟨hexists, hfits, rfl⟩ := (hspec date).mp (Option.some.inj hdate)
      obtain ⟨hweekday, hweek⟩ := hexists
      have hsame := (isoWeekExists_iff hweekday (by omega)).mp ⟨hweekday, hweek⟩
      have hinside : firstDay ≤ isoThursday iso ∧ isoThursday iso ≤ lastDay :=
        limits_iff.mp (by rw [hsame]; exact hyear)
      rw [toIsoWeekDate_eq (isDate_isoDay hfits), (dateOf_spec (isoDay iso)).2,
        (thursdayOf_isoDay hweekday).1, if_pos hinside, weekDate_isoDay hweekday hsame]
  · rw [toIsoWeekDate_eq hdate, limits_iff]
    refine ⟨rfl, fun hnone hlimits => ?_⟩
    rw [if_pos hlimits] at hnone
    exact absurd hnone (by simp)

/-- The second of January of 2021 is in the last week of 2020. -/
theorem newYear_roundTrip : fromIsoWeekDate ⟨2020, 53, 6⟩ = some (some ⟨2021, 1, 2⟩) :=
  (isoWeekDate_roundTrip.1 ⟨2021, 1, 2⟩ ⟨by decide, by decide⟩ ⟨2020, 53, 6⟩ (by decide)).2.2

def nthWeekdayOfMonth (year month weekday occurrence : Int) : Checked (Option CivilDate) :=
  if month < 1 ∨ month > 12 ∨ weekday < 0 ∨ weekday > 6 ∨ occurrence < 1 ∨ occurrence > 5 then
    pure none
  else do
    let firstDay ← unwrap (toSysDays year month 1)
    let firstWeekday := weekdayFromSysDays firstDay
    let offset := (weekday - firstWeekday + 7).tmod 7
    let day := 1 + offset + 7 * (occurrence - 1)
    if day > daysInMonth year month then pure none else pure (some ⟨year, month, day⟩)

def lastWeekdayOfMonth (year month weekday : Int) : Checked (Option CivilDate) :=
  if month < 1 ∨ month > 12 ∨ weekday < 0 ∨ weekday > 6 then pure none
  else do
    let lastDay := daysInMonth year month
    let dayCount ← unwrap (toSysDays year month lastDay)
    let lastWeekday := weekdayFromSysDays dayCount
    let distance := (lastWeekday - weekday + 7).tmod 7
    pure (some ⟨year, month, lastDay - distance⟩)

def weekdayOf (year month day : Int) : Option Int :=
  (toSysDays year month day).map weekdayFromSysDays

def occurrences (year month weekday : Int) : List CivilDate :=
  ((List.range' 1 (daysInMonth year month).toNat).filter fun day : Nat =>
    decide (weekdayOf year month day = some weekday)).map fun day : Nat => ⟨year, month, day⟩

variable {w : Int}

theorem daysInMonth_bounds (h : 1 ≤ m ∧ m ≤ 12) (y : Int) :
    28 ≤ daysInMonth y m ∧ daysInMonth y m ≤ 31 := by
  rw [daysInMonth, if_neg (by omega)]
  split_ifs <;> decide

theorem isValid_day {d : Int} (hd : 1 ≤ d ∧ d ≤ daysInMonth y m) : isValidCivilDate y m d = true := by
  rw [isValidCivilDate, decide_eq_true hd.1, decide_eq_true hd.2]
  rfl

theorem weekdayOf_eq {d : Int} (hd : 1 ≤ d ∧ d ≤ daysInMonth y m) :
    weekdayOf y m d = some (weekdayFromSysDays (dayNumber y m d)) := by
  rw [weekdayOf, toSysDays_eq (isValid_day hd)]
  rfl

theorem dayNumber_add (y m d : Int) : dayNumber y m d = dayNumber y m 1 + (d - 1) := by
  rw [dayNumber, dayNumber, number, number]
  omega

def monthOffset (y m w : Int) : Nat := ((w - weekdayFromSysDays (dayNumber y m 1)) % 7).toNat

def occurrenceCount (y m w : Int) : Nat :=
  ((daysInMonth y m).toNat - 1 - monthOffset y m w) / 7 + 1

variable (hm : 1 ≤ m ∧ m ≤ 12)
include hm

theorem occurrences_eq (hw : 0 ≤ w ∧ w ≤ 6) :
    occurrences y m w = (List.range (occurrenceCount y m w)).map fun k : Nat =>
      ⟨y, m, 1 + (monthOffset y m w : Int) + 7 * k⟩ := by
  have hlength := daysInMonth_bounds hm y
  have hdays : ((List.range' 1 (daysInMonth y m).toNat).filter fun day : Nat =>
      decide (weekdayOf y m day = some w)) =
        (List.range (occurrenceCount y m w)).map fun k => 1 + monthOffset y m w + 7 * k := by
    refine List.Pairwise.eq_of_mem_iff (r := (· < ·)) ?_ ?_ fun d => ?_
    · exact (pairwise_lt_range').filter _
    · exact List.pairwise_map.mpr (List.pairwise_lt_range.imp fun hlt => by omega)
    · rw [mem_filter, mem_range'_1, mem_map, decide_eq_true_iff, occurrenceCount,
        monthOffset, weekdayFromSysDays_eq]
      constructor
      · rintro ⟨hd, hweekday⟩
        rw [weekdayOf_eq (by omega), dayNumber_add, weekdayFromSysDays_eq, Option.some.injEq] at hweekday
        refine ⟨(d - 1) / 7, ?_, ?_⟩
        · rw [mem_range]
          omega
        · omega
      · rintro ⟨k, hk, rfl⟩
        rw [mem_range] at hk
        have hd : 1 + ((w - (dayNumber y m 1 + 4) % 7) % 7).toNat + 7 * k ≤ daysInMonth y m := by omega
        refine ⟨by omega, ?_⟩
        rw [weekdayOf_eq (by omega), dayNumber_add, weekdayFromSysDays_eq, Option.some.injEq]
        omega
  rw [occurrences, hdays, map_map]
  refine map_congr_left fun k _ => ?_
  simp

theorem firstOfMonth_eq (y : Int) : toSysDays y m 1 = some (dayNumber y m 1) := by
  have hlength := daysInMonth_bounds hm y
  exact toSysDays_eq (isValid_day ⟨le_rfl, by omega⟩)

theorem nthWeekdayOfMonth_eq (hw : 0 ≤ w ∧ w ≤ 6) {k : Nat} (hk : k < 5) :
    nthWeekdayOfMonth y m w (k + 1) =
      some (if k < occurrenceCount y m w then some ⟨y, m, 1 + monthOffset y m w + 7 * k⟩ else none) := by
  have hlength := daysInMonth_bounds hm y
  have hweekday : 0 ≤ weekdayFromSysDays (dayNumber y m 1) ∧
      weekdayFromSysDays (dayNumber y m 1) < 7 := by
    rw [weekdayFromSysDays_eq]
    omega
  have hoffset : (w - weekdayFromSysDays (dayNumber y m 1) + 7).tmod 7 = monthOffset y m w := by
    rw [Int.tmod_eq_emod_of_nonneg (by omega), monthOffset]
    omega
  have hsmall : monthOffset y m w < 7 := by
    rw [monthOffset]
    omega
  have hindex : (k : Int) + 1 - 1 = k := Int.add_sub_cancel _ _
  rw [nthWeekdayOfMonth, if_neg (by omega), firstOfMonth_eq hm, unwrap]
  simp only [bind_eq_bind, bind_some]
  rw [hoffset, hindex, occurrenceCount]
  by_cases hday : 1 + (monthOffset y m w : Int) + 7 * k > daysInMonth y m
  · rw [if_pos hday, if_neg (by omega)]
    rfl
  · rw [if_neg hday, if_pos (by omega)]
    rfl

theorem lastWeekdayOfMonth_eq (hw : 0 ≤ w ∧ w ≤ 6) :
    lastWeekdayOfMonth y m w =
      some (some ⟨y, m, 1 + monthOffset y m w + 7 * (occurrenceCount y m w - 1 : Nat)⟩) := by
  have hlength := daysInMonth_bounds hm y
  have hlast : weekdayFromSysDays (dayNumber y m (daysInMonth y m)) =
      (dayNumber y m 1 + daysInMonth y m + 3) % 7 := by
    rw [weekdayFromSysDays_eq, dayNumber_add]
    omega
  have hday : daysInMonth y m -
      (weekdayFromSysDays (dayNumber y m (daysInMonth y m)) - w + 7).tmod 7 =
        1 + (monthOffset y m w : Int) + 7 * (occurrenceCount y m w - 1 : Nat) := by
    rw [hlast, Int.tmod_eq_emod_of_nonneg (by omega), occurrenceCount, monthOffset,
      weekdayFromSysDays_eq]
    omega
  rw [lastWeekdayOfMonth, if_neg (by omega)]
  dsimp only
  rw [toSysDays_eq (isValid_day ⟨by omega, le_rfl⟩), unwrap]
  simp only [bind_eq_bind, bind_some]
  rw [hday]
  rfl

omit hm

/-- The occurrences of a day of the week in a month, one after the other, and the last of them. -/
theorem weekdayOccurrences_complete (y m w : Int) (hm : 1 ≤ m ∧ m ≤ 12) (hw : 0 ≤ w ∧ w ≤ 6) :
    (∀ k : Nat, k < 5 → nthWeekdayOfMonth y m w (k + 1) = some (occurrences y m w)[k]?) ∧
      (occurrences y m w).length ≤ 5 ∧ occurrences y m w ≠ [] ∧
      lastWeekdayOfMonth y m w = some (occurrences y m w).getLast? := by
  have hlength := daysInMonth_bounds hm y
  have hcount : 0 < occurrenceCount y m w ∧ occurrenceCount y m w ≤ 5 := by
    rw [occurrenceCount]
    omega
  rw [occurrences_eq hm hw]
  refine ⟨fun k hk => ?_, ?_, ?_, ?_⟩
  · rw [nthWeekdayOfMonth_eq hm hw hk, getElem?_map]
    by_cases hlt : k < occurrenceCount y m w
    · rw [if_pos hlt, getElem?_range hlt]
      rfl
    · rw [if_neg hlt, getElem?_eq_none (by rw [length_range]; omega)]
      rfl
  · rw [length_map, length_range]
    exact hcount.2
  · rw [Ne, map_eq_nil_iff, range_eq_nil]
    omega
  · rw [lastWeekdayOfMonth_eq hm hw, getLast?_map, getLast?_range, if_neg (by omega)]
    rfl

/-- There are five Thursdays in February of the year 2024, and none is left out. -/
theorem leapFebruary_thursdays :
    (∀ k : Nat, k < 5 → nthWeekdayOfMonth 2024 2 4 (k + 1) = some (occurrences 2024 2 4)[k]?) ∧
      (occurrences 2024 2 4).length ≤ 5 ∧ occurrences 2024 2 4 ≠ [] ∧
      lastWeekdayOfMonth 2024 2 4 = some (occurrences 2024 2 4).getLast? :=
  weekdayOccurrences_complete 2024 2 4 (by decide) (by decide)

end Mlang.WeekDates
