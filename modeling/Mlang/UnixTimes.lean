import Mlang.CheckedIntegers
import Mlang.CivilDates

namespace Mlang.UnixTimes

open CheckedIntegers Option
open GregorianDays (tdiv_corrected)
open CivilDates (CivilDate i32 toU32 daysFromCivil civilFromDays dateOf dayNumber isValidCivilDate
  i32_of_range)

structure DateTime where
  year : Int
  month : Int
  day : Int
  hour : Int
  minute : Int
  second : Int
  deriving DecidableEq

def int64Min : Int := -9223372036854775808

def floorDivI64 (a b : Int) : Checked Int := do
  let q ← quot 64 a b
  let r ← rem 64 a b
  if r ≠ 0 ∧ decide (r > 0) ≠ decide (b > 0) then sub 64 q 1 else pure q

def isLeapYear (y : Int) : Bool :=
  (y.tmod 4 = 0 && y.tmod 100 ≠ 0) || y.tmod 400 = 0

def monthLengths : List Int := [31, 28, 31, 30, 31, 30, 31, 31, 30, 31, 30, 31]

def daysInMonth (y m : Int) : Int :=
  if m < 1 ∨ m > 12 then 0
  else if m = 2 ∧ isLeapYear y then 29
  else monthLengths.getD (m - 1).toNat 0

def validDatetime (dt : DateTime) : Bool :=
  if dt.month < 1 ∨ dt.month > 12 then false
  else if dt.day < 1 ∨ dt.day > daysInMonth dt.year dt.month then false
  else if dt.hour < 0 ∨ dt.hour > 23 ∨ dt.minute < 0 ∨ dt.minute > 59 ∨ dt.second < 0 ∨
    dt.second > 59 then false
  else true

def datetimeFromUnixOffset (timestamp offsetSeconds : Int) : Checked DateTime := do
  let adjusted ← add 64 timestamp offsetSeconds
  let days ← floorDivI64 adjusted 86400
  let midnight ← mul 64 days 86400
  let sod ← sub 64 adjusted midnight
  let date := civilFromDays days
  let hour ← quot 64 sod 3600
  let inHour ← rem 64 sod 3600
  let minute ← quot 64 inHour 60
  let second ← rem 64 sod 60
  pure ⟨date.year, date.month, date.day, i32 hour, i32 minute, i32 second⟩

def toUnix (dt : DateTime) (offsetSeconds : Int) : Checked Int := do
  if !validDatetime dt then pure int64Min
  else
    let days := daysFromCivil dt.year (toU32 dt.month) (toU32 dt.day)
    let midnight ← mul 64 days 86400
    let hours ← mul 64 dt.hour 3600
    let minutes ← mul 64 dt.minute 60
    let sum ← add 64 midnight hours
    let sum ← add 64 sum minutes
    let sum ← add 64 sum dt.second
    sub 64 sum offsetSeconds

section Fields

variable {y m : Int} {dt a b : DateTime}

theorem isLeapYear_eq (y : Int) : isLeapYear y = CivilDates.isLeapYear y := by
  have hmul : y.tmod 400 = 0 → y.tmod 4 = 0 := by
    rw [← Int.dvd_iff_tmod_eq_zero, ← Int.dvd_iff_tmod_eq_zero]
    exact dvd_trans (by decide)
  rw [isLeapYear, CivilDates.isLeapYear]
  by_cases hfour : y.tmod 4 = 0
  · simp [hfour]
  · simp [hfour, mt hmul hfour]

theorem daysInMonth_eq (y m : Int) : daysInMonth y m = CivilDates.daysInMonth y m := by
  rw [daysInMonth, CivilDates.daysInMonth]
  by_cases hmonth : m < 1 ∨ m > 12
  · rw [if_pos hmonth, if_pos hmonth]
  · obtain rfl | rfl | rfl | rfl | rfl | rfl | rfl | rfl | rfl | rfl | rfl | rfl :
      m = 1 ∨ m = 2 ∨ m = 3 ∨ m = 4 ∨ m = 5 ∨ m = 6 ∨ m = 7 ∨ m = 8 ∨ m = 9 ∨ m = 10 ∨
        m = 11 ∨ m = 12 := by omega
    case inr.inl =>
      rw [isLeapYear_eq]
      cases CivilDates.isLeapYear y <;> rfl
    all_goals rfl

theorem validDatetime_iff : validDatetime dt = true ↔
    isValidCivilDate dt.year dt.month dt.day = true ∧ (0 ≤ dt.hour ∧ dt.hour < 24) ∧
      (0 ≤ dt.minute ∧ dt.minute < 60) ∧ (0 ≤ dt.second ∧ dt.second < 60) := by
  rw [validDatetime, isValidCivilDate, daysInMonth_eq, Bool.and_eq_true, decide_eq_true_iff,
    decide_eq_true_iff]
  have hmonth : dt.month < 1 ∨ dt.month > 12 → CivilDates.daysInMonth dt.year dt.month = 0 :=
    fun h => if_pos h
  split_ifs <;> simp only [true_iff, false_iff] <;> omega

def Earlier (a b : DateTime) : Prop :=
  a.year < b.year ∨ a.year = b.year ∧ (a.month < b.month ∨ a.month = b.month ∧
    (a.day < b.day ∨ a.day = b.day ∧ (a.hour < b.hour ∨ a.hour = b.hour ∧
      (a.minute < b.minute ∨ a.minute = b.minute ∧ a.second < b.second))))

def seconds (dt : DateTime) : Int :=
  dayNumber dt.year dt.month dt.day * 86400 + dt.hour * 3600 + dt.minute * 60 + dt.second

theorem seconds_lt (ha : validDatetime a = true) (hb : validDatetime b = true)
    (hab : Earlier a b) : seconds a < seconds b := by
  obtain ⟨hadate, hatime⟩ := validDatetime_iff.mp ha
  obtain ⟨hbdate, hbtime⟩ := validDatetime_iff.mp hb
  have hdays := @CivilDates.dayNumber_lt ⟨b.year, b.month, b.day⟩ ⟨a.year, a.month, a.day⟩ hadate hbdate
  unfold CivilDates.Before at hdays
  unfold Earlier at hab
  unfold seconds
  by_cases hsame : a.year = b.year ∧ a.month = b.month ∧ a.day = b.day
  · rw [hsame.1, hsame.2.1, hsame.2.2]
    omega
  · have hlt := hdays (by dsimp only; omega)
    dsimp only at hlt
    omega

end Fields

variable {a b t offset : Int} {dt : DateTime}

theorem floorDivI64_eq (hb : 0 < b) (ha : Fits 64 a) (hfloor : Fits 64 (a / b)) :
    floorDivI64 a b = some (a / b) := by
  obtain ⟨-, hnonneg, hnonpos, -, -⟩ := truncated_tdiv hb a
  have hiff : (a.tmod b ≠ 0 ∧ decide (a.tmod b > 0) ≠ decide (b > 0)) ↔ a < 0 ∧ a.tmod b ≠ 0 := by
    rw [decide_eq_true hb, Ne, Ne, decide_eq_true_iff]
    omega
  have hcorrected := @tdiv_corrected a b hb
  rw [floorDivI64, quot_eq hb ha, rem_eq hb ha]
  simp only [bind_eq_bind, bind_some]
  by_cases hlower : a < 0 ∧ a.tmod b ≠ 0
  · rw [if_pos hlower] at hcorrected
    rw [if_pos (hiff.mpr hlower), sub_eq (by rwa [hcorrected]), hcorrected]
  · rw [if_neg hlower] at hcorrected
    rw [if_neg (mt hiff.mp hlower), hcorrected]
    rfl

def splitSeconds (adjusted : Int) : DateTime :=
  ⟨(dateOf (adjusted / 86400)).year, (dateOf (adjusted / 86400)).month,
    (dateOf (adjusted / 86400)).day, adjusted % 86400 / 3600, adjusted % 86400 % 3600 / 60,
    adjusted % 86400 % 60⟩

theorem datetimeFromUnixOffset_eq (hlimits : CivilDates.firstDay ≤ (t + offset) / 86400 ∧
    (t + offset) / 86400 ≤ CivilDates.lastDay) :
    datetimeFromUnixOffset t offset = some (splitSeconds (t + offset)) := by
  obtain ⟨hdate, hvalid⟩ := CivilDates.isDate_of_limits hlimits
  obtain ⟨hmonth, hday⟩ := CivilDates.bounds_of_valid hvalid
  rw [CivilDates.firstDay, CivilDates.lastDay] at hlimits
  have hadd : add 64 t offset = some (t + offset) := add_eq ⟨by omega, by omega⟩
  rw [datetimeFromUnixOffset, splitSeconds, hadd]
  simp only [bind_eq_bind, bind_some]
  generalize t + offset = adjusted at *
  have hfloor := @floorDivI64_eq adjusted 86400 (by decide) ⟨by omega, by omega⟩
    ⟨by omega, by omega⟩
  have hmidnight : mul 64 (adjusted / 86400) 86400 = some (adjusted / 86400 * 86400) :=
    mul_eq ⟨by omega, by omega⟩
  have hrest : adjusted - adjusted / 86400 * 86400 = adjusted % 86400 := by omega
  have hsod : sub 64 adjusted (adjusted / 86400 * 86400) = some (adjusted % 86400) := by
    rw [sub_eq ⟨by omega, by omega⟩, hrest]
  have hfits : Fits 64 (adjusted % 86400) := ⟨by omega, by omega⟩
  have hinHour : (adjusted % 86400).tmod 3600 = adjusted % 86400 % 3600 :=
    Int.tmod_eq_emod_of_nonneg (by omega)
  rw [hfloor, bind_some, hmidnight, bind_some, hsod, bind_some,
    quot_eq (by decide) hfits, bind_some, rem_eq (by decide) hfits, bind_some, hinHour,
    quot_eq (by decide) ⟨by omega, by omega⟩, bind_some, rem_eq (by decide) hfits,
    bind_some, Int.tmod_eq_emod_of_nonneg (by omega), Int.tdiv_eq_ediv_of_nonneg (by omega),
    Int.tdiv_eq_ediv_of_nonneg (by omega), CivilDates.civilFromDays_eq, i32_of_range hdate,
    i32_of_range (by omega), i32_of_range (by omega), i32_of_range (by omega),
    i32_of_range (by omega), i32_of_range (by omega)]
  rfl

theorem toUnix_eq (hyear : -2 ^ 31 ≤ dt.year ∧ dt.year < 2 ^ 31) (hvalid : validDatetime dt = true)
    (hoffset : Fits 32 offset) : toUnix dt offset = some (seconds dt - offset) := by
  obtain ⟨hdate, hhour, hminute, hsecond⟩ := validDatetime_iff.mp hvalid
  obtain ⟨hmonth, hday⟩ := CivilDates.bounds_of_valid hdate
  have hlimits := CivilDates.limits_of_isDate (a := ⟨dt.year, dt.month, dt.day⟩) ⟨hyear, hdate⟩
  dsimp only at hlimits
  rw [CivilDates.firstDay, CivilDates.lastDay] at hlimits
  obtain ⟨hlow, hhigh⟩ := hoffset
  have hunsigned : ∀ n : Int, 1 ≤ n ∧ n ≤ 31 → toU32 n = n.toNat := by
    intro n hn
    rw [toU32]
    omega
  rw [toUnix, hvalid, if_neg (by decide), seconds]
  dsimp only
  rw [hunsigned _ (by omega), hunsigned _ hday, CivilDates.daysFromCivil_eq hdate]
  generalize dayNumber dt.year dt.month dt.day = days at *
  rw [mul_eq ⟨by omega, by omega⟩, mul_eq ⟨by omega, by omega⟩, mul_eq ⟨by omega, by omega⟩]
  simp only [bind_eq_bind, bind_some]
  rw [add_eq ⟨by omega, by omega⟩, bind_some, add_eq ⟨by omega, by omega⟩, bind_some,
    add_eq ⟨by omega, by omega⟩, bind_some, sub_eq ⟨by omega, by omega⟩]

theorem splitSeconds_seconds (hvalid : validDatetime dt = true) : splitSeconds (seconds dt) = dt := by
  obtain ⟨hdate, hhour, hminute, hsecond⟩ := validDatetime_iff.mp hvalid
  have hday : seconds dt / 86400 = dayNumber dt.year dt.month dt.day := by
    rw [seconds]
    omega
  obtain ⟨hvalid', hnumber⟩ := CivilDates.dateOf_spec (dayNumber dt.year dt.month dt.day)
  have hsame := CivilDates.eq_of_dayNumber (b := ⟨dt.year, dt.month, dt.day⟩) hvalid' hdate hnumber
  rw [splitSeconds, hday, hsame, seconds]
  generalize dayNumber dt.year dt.month dt.day = days at *
  obtain ⟨year, month, day, hour, minute, second⟩ := dt
  dsimp only at *
  congr 1 <;> omega

theorem seconds_splitSeconds (adjusted : Int) :
    validDatetime (splitSeconds adjusted) = true ∧ seconds (splitSeconds adjusted) = adjusted := by
  obtain ⟨hvalid, hnumber⟩ := CivilDates.dateOf_spec (adjusted / 86400)
  rw [validDatetime_iff, seconds, splitSeconds]
  dsimp only
  rw [hnumber]
  exact ⟨⟨hvalid, by omega⟩, by omega⟩

/-- Timestamps and date-times correspond, in order. -/
theorem unixTime_roundTrip :
    (∀ dt offset, Fits 32 dt.year → validDatetime dt = true → Fits 32 offset →
      ∃ timestamp, toUnix dt offset = some timestamp ∧
        datetimeFromUnixOffset timestamp offset = some dt) ∧
    (∀ timestamp offset, Fits 64 timestamp → Fits 32 offset →
      Fits 32 (dateOf ((timestamp + offset) / 86400)).year →
      ∃ dt, datetimeFromUnixOffset timestamp offset = some dt ∧ toUnix dt offset = some timestamp) ∧
    (∀ a b offset, Fits 32 a.year → Fits 32 b.year → validDatetime a = true →
      validDatetime b = true → Fits 32 offset → Earlier a b →
      ∃ i j, toUnix a offset = some i ∧ toUnix b offset = some j ∧ i < j) ∧
    ∀ dt offset, Fits 32 dt.year → validDatetime dt = true → Fits 32 offset →
      toUnix dt offset ≠ some int64Min := by
  refine ⟨fun dt offset hyear hvalid hoffset => ?_, fun timestamp offset _ hoffset hyear => ?_,
    fun a b offset hyear hyear' ha hb hoffset hab => ?_, fun dt offset hyear hvalid hoffset => ?_⟩
  · have hdate := (validDatetime_iff.mp hvalid).1
    have hlimits := CivilDates.limits_of_isDate (a := ⟨dt.year, dt.month, dt.day⟩) ⟨hyear, hdate⟩
    have hsum : seconds dt - offset + offset = seconds dt := Int.sub_add_cancel _ _
    have hday : seconds dt / 86400 = dayNumber dt.year dt.month dt.day := by
      have htime := (validDatetime_iff.mp hvalid).2
      rw [seconds]
      omega
    refine ⟨_, toUnix_eq hyear hvalid hoffset, ?_⟩
    rw [datetimeFromUnixOffset_eq (by rw [hsum, hday]; exact hlimits), hsum, splitSeconds_seconds hvalid]
  · obtain ⟨hvalid, hnumber⟩ := CivilDates.dateOf_spec ((timestamp + offset) / 86400)
    have hlimits := CivilDates.limits_of_isDate ⟨hyear, hvalid⟩
    rw [hnumber] at hlimits
    obtain ⟨hvalidSplit, hseconds⟩ := seconds_splitSeconds (timestamp + offset)
    refine ⟨_, datetimeFromUnixOffset_eq hlimits, ?_⟩
    rw [@toUnix_eq offset (splitSeconds (timestamp + offset)) hyear hvalidSplit hoffset, hseconds, Int.add_sub_cancel]
  · refine ⟨_, _, toUnix_eq hyear ha hoffset, toUnix_eq hyear' hb hoffset, ?_⟩
    have hlt := seconds_lt ha hb hab
    omega
  · have hdate := (validDatetime_iff.mp hvalid).1
    have htime := (validDatetime_iff.mp hvalid).2
    have hlimits := CivilDates.limits_of_isDate (a := ⟨dt.year, dt.month, dt.day⟩) ⟨hyear, hdate⟩
    dsimp only at hlimits
    rw [CivilDates.firstDay, CivilDates.lastDay] at hlimits
    obtain ⟨hlow, hhigh⟩ := hoffset
    rw [toUnix_eq hyear hvalid ⟨hlow, hhigh⟩, seconds, int64Min, Ne, Option.some.injEq]
    omega

/-- The last second before the epoch, an hour east of it. -/
theorem beforeEpoch_roundTrip :
    ∃ timestamp, toUnix ⟨1970, 1, 1, 0, 59, 59⟩ 3600 = some timestamp ∧
      datetimeFromUnixOffset timestamp 3600 = some ⟨1970, 1, 1, 0, 59, 59⟩ :=
  unixTime_roundTrip.1 ⟨1970, 1, 1, 0, 59, 59⟩ 3600 (by decide) (by decide) (by decide)

end Mlang.UnixTimes
