import Mlang.GregorianDays

namespace Mlang.CivilDates

open GregorianDays

structure CivilDate where
  year : Int
  month : Int
  day : Int
  deriving DecidableEq

def isLeapYear (year : Int) : Bool :=
  year.tmod 4 = 0 && (year.tmod 100 ≠ 0 || year.tmod 400 = 0)

def daysInMonth (year month : Int) : Int :=
  if month < 1 ∨ month > 12 then 0
  else if month = 2 then if isLeapYear year then 29 else 28
  else if month = 4 ∨ month = 6 ∨ month = 9 ∨ month = 11 then 30
  else 31

def isValidCivilDate (year month day : Int) : Bool := day ≥ 1 && day ≤ daysInMonth year month

/-- The cast to the type `i32`. -/
def i32 (x : Int) : Int := x.bmod (2 ^ 32)

def toSysDays (year month day : Int) : Option Int :=
  if !isValidCivilDate year month day then none
  else
    let adjustedYear := if month ≤ 2 then year - 1 else year
    let era := if adjustedYear < 0 ∧ adjustedYear.tmod 400 ≠ 0 then adjustedYear.tdiv 400 - 1
      else adjustedYear.tdiv 400
    let yearOfEra := adjustedYear - era * 400
    let adjustedMonth := month + if month > 2 then 0 - 3 else 9
    let dayOfYear := (153 * adjustedMonth + 2).tdiv 5 + day - 1
    let dayOfEra := yearOfEra * 365 + yearOfEra.tdiv 4 - yearOfEra.tdiv 100 + dayOfYear
    some (era * 146097 + dayOfEra - 719468)

def dateOf (days : Int) : CivilDate :=
  let shifted := days + 719468
  let era := if shifted < 0 ∧ shifted.tmod 146097 ≠ 0 then shifted.tdiv 146097 - 1
    else shifted.tdiv 146097
  let dayOfEra := shifted - era * 146097
  let yearOfEra := (dayOfEra - dayOfEra.tdiv 1460 + dayOfEra.tdiv 36524 - dayOfEra.tdiv 146096).tdiv 365
  let year := yearOfEra + era * 400
  let dayOfYear := dayOfEra - (365 * yearOfEra + yearOfEra.tdiv 4 - yearOfEra.tdiv 100)
  let monthPrime := (5 * dayOfYear + 2).tdiv 153
  let day := dayOfYear - (153 * monthPrime + 2).tdiv 5 + 1
  let month := monthPrime + if monthPrime < 10 then 3 else 0 - 9
  { year := if month ≤ 2 then year + 1 else year, month := month, day := day }

def fromSysDays (days : Int) : Option CivilDate := do
  let firstDay ← toSysDays (-2147483648) 1 1
  let lastDay ← toSysDays 2147483647 12 31
  if days < firstDay ∨ days > lastDay then none
  else
    let date := dateOf days
    some { year := i32 date.year, month := i32 date.month, day := i32 date.day }

/-- A value of the type `unsigned`, by its remainder. -/
def u32 (n : Nat) : Nat := n % 2 ^ 32

def sub32 (a b : Nat) : Nat := u32 (a + (2 ^ 32 - b))

def toU32 (x : Int) : Nat := (x % 2 ^ 32).toNat

def daysFromCivil (y : Int) (m d : Nat) : Int :=
  let y := y - if m ≤ 2 then 1 else 0
  let era := (if y ≥ 0 then y else y - 399).tdiv 400
  let yoe := toU32 (y - era * 400)
  let doy := sub32 (u32 (u32 (u32 (153 * u32 (m + if m > 2 then 2 ^ 32 - 3 else 9)) + 2) / 5 + d)) 1
  let doe := u32 (sub32 (u32 (u32 (yoe * 365) + yoe / 4)) (yoe / 100) + doy)
  era * 146097 + doe - 719468

def civilFromDays (z : Int) : CivilDate :=
  let z := z + 719468
  let era := (if z ≥ 0 then z else z - 146096).tdiv 146097
  let doe := toU32 (z - era * 146097)
  let yoe := sub32 (u32 (sub32 doe (doe / 1460) + doe / 36524)) (doe / 146096) / 365
  let yy := yoe + era * 400
  let doy := sub32 doe (sub32 (u32 (u32 (365 * yoe) + yoe / 4)) (yoe / 100))
  let mp := u32 (u32 (5 * doy) + 2) / 153
  let dd := u32 (sub32 doy (u32 (u32 (153 * mp) + 2) / 5) + 1)
  let mm := u32 (mp + if mp < 10 then 3 else 2 ^ 32 - 9)
  { year := i32 (yy + if mm ≤ 2 then 1 else 0), month := i32 mm, day := i32 dd }

variable {b a : CivilDate} {m : Int} {y d n : Int}

def marchYear (y m : Int) : Int := if m ≤ 2 then y - 1 else y

def marchMonth (m : Int) : Int := if m ≤ 2 then m + 9 else m - 3

def dayNumber (y m d : Int) : Int := number (marchYear y m) (marchMonth m) d - 719468

theorem isLeapYear_iff (y : Int) : isLeapYear y = true ↔ Long (y - 1) := by
  have htmod : ∀ b : Int, y.tmod b = 0 ↔ y % b = 0 := fun b =>
    Int.dvd_iff_tmod_eq_zero.symm.trans Int.dvd_iff_emod_eq_zero
  have hyear : y - 1 + 1 = y := Int.sub_add_cancel y 1
  rw [Long, hyear, isLeapYear, Bool.and_eq_true, Bool.or_eq_true, decide_eq_true_iff, decide_eq_true_iff,
    decide_eq_true_iff, Ne, htmod, htmod, htmod]

theorem daysInMonth_eq (h : 1 ≤ m ∧ m ≤ 12) (y : Int) :
    daysInMonth y m = monthDays (marchYear y m) (marchMonth m) := by
  rw [daysInMonth, if_neg (by omega), monthDays]
  by_cases hfebruary : m = 2
  · have hlast : marchMonth m = 11 := by
      rw [hfebruary]
      rfl
    have hyear : marchYear y m = y - 1 := if_pos (by omega)
    rw [if_pos hfebruary, hlast, if_pos rfl, hyear]
    exact if_congr (isLeapYear_iff y) rfl rfl
  · have hlast : marchMonth m ≠ 11 := by
      unfold marchMonth
      split <;> omega
    rw [if_neg hfebruary, if_neg hlast]
    refine if_congr ?_ rfl rfl
    unfold marchMonth
    split <;> omega

theorem isValid_iff : isValidCivilDate y m d = true ↔
    (1 ≤ m ∧ m ≤ 12) ∧ Valid (marchYear y m) (marchMonth m) d := by
  rw [isValidCivilDate, Bool.and_eq_true, decide_eq_true_iff, decide_eq_true_iff]
  constructor
  · rintro ⟨hlow, hhigh⟩
    have hmonth : 1 ≤ m ∧ m ≤ 12 := by
      by_contra hout
      rw [daysInMonth, if_pos (by omega)] at hhigh
      omega
    refine ⟨hmonth, ?_, hlow, daysInMonth_eq hmonth y ▸ hhigh⟩
    unfold marchMonth
    split <;> omega
  · rintro ⟨hmonth, hvalid⟩
    exact ⟨hvalid.day.1, daysInMonth_eq hmonth y ▸ hvalid.day.2⟩

theorem marchMonth_eq (m : Int) : (m + if m > 2 then 0 - 3 else 9) = marchMonth m := by
  unfold marchMonth
  split <;> split <;> omega

theorem daysBefore_split (a : Int) : daysBefore a =
    a / 400 * 146097 + ((a - a / 400 * 400) * 365 + (a - a / 400 * 400) / 4 - (a - a / 400 * 400) / 100) := by
  have hsplit : a - a / 400 * 400 + a / 400 * 400 = a := Int.sub_add_cancel a _
  have hera := daysBefore_era (a / 400) (a - a / 400 * 400)
  rw [hsplit] at hera
  have hwithin : (a - a / 400 * 400) / 400 = 0 := by omega
  rw [hera, daysBefore, hwithin, Int.add_zero, Int.mul_comm 365]

theorem toSysDays_eq (h : isValidCivilDate y m d = true) : toSysDays y m d = some (dayNumber y m d) := by
  obtain ⟨hmonth, hvalid⟩ := isValid_iff.1 h
  have hstart := hvalid.month.1
  have hyear : (if m ≤ 2 then y - 1 else y) = marchYear y m := rfl
  rw [toSysDays, h, if_neg (by decide)]
  dsimp only
  rw [hyear, tdiv_corrected (by decide), marchMonth_eq, dayNumber, number, daysBefore_split, monthStart,
    Int.tdiv_eq_ediv_of_nonneg (by omega : 0 ≤ 153 * marchMonth m + 2),
    Int.tdiv_eq_ediv_of_nonneg (by omega : 0 ≤ marchYear y m - marchYear y m / 400 * 400),
    Int.tdiv_eq_ediv_of_nonneg (by omega : 0 ≤ marchYear y m - marchYear y m / 400 * 400)]
  exact congrArg some (by omega)

def ofMarch (y m d : Int) : CivilDate :=
  { year := if m < 10 then y else y + 1, month := m + if m < 10 then 3 else 0 - 9, day := d }

theorem yearOfEra_cast (doe : Nat) : (yearOfEra doe : Int) =
    ((doe : Int) - doe / 1460 + doe / 36524 - doe / 146096) / 365 := by
  unfold yearOfEra
  omega

theorem daysBefore_yearOfEra (doe : Nat) (h : yearOfEra doe < 400) :
    daysBefore (yearOfEra doe) =
      365 * yearOfEra doe + (yearOfEra doe : Int) / 4 - (yearOfEra doe : Int) / 100 := by
  have hwithin : (yearOfEra doe : Int) / 400 = 0 := by omega
  rw [daysBefore, hwithin, Int.add_zero]

theorem dateOf_eq (n : Int) :
    dateOf n = ofMarch (yearOf (n + 719468)) (monthOf (n + 719468)) (dayOf (n + 719468)) := by
  obtain ⟨hlt, _, _⟩ := yearOfEra_spec (dayOfEra_lt (n + 719468))
  have hmonth := (valid_of_number (n + 719468)).month
  have hfirst := (dayOfYear_bounds (n + 719468)).1
  have hyear : ((dayOfEra (n + 719468) : Int) - (dayOfEra (n + 719468) : Int).tdiv 1460 +
      (dayOfEra (n + 719468) : Int).tdiv 36524 - (dayOfEra (n + 719468) : Int).tdiv 146096).tdiv 365 =
        yearOfEra (dayOfEra (n + 719468)) := by
    rw [Int.tdiv_eq_ediv_of_nonneg (Int.natCast_nonneg _), Int.tdiv_eq_ediv_of_nonneg (Int.natCast_nonneg _),
      Int.tdiv_eq_ediv_of_nonneg (Int.natCast_nonneg _), Int.tdiv_eq_ediv_of_nonneg (by omega),
      yearOfEra_cast]
  have hday : (dayOfEra (n + 719468) : Int) - (365 * yearOfEra (dayOfEra (n + 719468)) +
      (yearOfEra (dayOfEra (n + 719468)) : Int).tdiv 4 -
        (yearOfEra (dayOfEra (n + 719468)) : Int).tdiv 100) = dayOfYear (n + 719468) := by
    rw [Int.tdiv_eq_ediv_of_nonneg (Int.natCast_nonneg _), Int.tdiv_eq_ediv_of_nonneg (Int.natCast_nonneg _),
      dayOfYear, daysBefore_yearOfEra _ hlt]
  have hprime : (5 * dayOfYear (n + 719468) + 2).tdiv 153 = monthOf (n + 719468) :=
    Int.tdiv_eq_ediv_of_nonneg (by omega)
  have hstart : (153 * monthOf (n + 719468) + 2).tdiv 5 = monthStart (monthOf (n + 719468)) :=
    Int.tdiv_eq_ediv_of_nonneg (by omega)
  rw [dateOf, tdiv_corrected (by decide), ← dayOfEra_cast, hyear, hday, hprime, hstart, ← dayOf, ← yearOf,
    ofMarch]
  congr 1
  split <;> split <;> omega

theorem ofMarch_month (y d : Int) (h : 0 ≤ m ∧ m < 12) :
    1 ≤ (ofMarch y m d).month ∧ (ofMarch y m d).month ≤ 12 := by
  unfold ofMarch
  dsimp only
  split <;> omega

theorem marchYear_ofMarch (y d : Int) (h : 0 ≤ m ∧ m < 12) :
    marchYear (ofMarch y m d).year (ofMarch y m d).month = y := by
  unfold marchYear ofMarch
  dsimp only
  split <;> split <;> omega

theorem marchMonth_ofMarch (y d : Int) (h : 0 ≤ m ∧ m < 12) : marchMonth (ofMarch y m d).month = m := by
  unfold marchMonth ofMarch
  dsimp only
  split <;> split <;> omega

theorem dateOf_spec (n : Int) :
    isValidCivilDate (dateOf n).year (dateOf n).month (dateOf n).day = true ∧
      dayNumber (dateOf n).year (dateOf n).month (dateOf n).day = n := by
  have hvalid := valid_of_number (n + 719468)
  have hday : (dateOf n).day = dayOf (n + 719468) := by
    rw [dateOf_eq]
    rfl
  have hyear : marchYear (dateOf n).year (dateOf n).month = yearOf (n + 719468) := by
    rw [dateOf_eq]
    exact marchYear_ofMarch _ _ hvalid.month
  have hmonth : marchMonth (dateOf n).month = monthOf (n + 719468) := by
    rw [dateOf_eq]
    exact marchMonth_ofMarch _ _ hvalid.month
  rw [isValid_iff, dayNumber, hyear, hmonth, hday, number_of]
  refine ⟨⟨?_, hvalid⟩, Int.add_sub_cancel n 719468⟩
  rw [dateOf_eq]
  exact ofMarch_month _ _ hvalid.month

def Before (a b : CivilDate) : Prop :=
  a.year < b.year ∨ a.year = b.year ∧ (a.month < b.month ∨ a.month = b.month ∧ a.day < b.day)

/-- A valid date of the calendar, whose year has the type `i32`. -/
structure IsDate (a : CivilDate) : Prop where
  year : -2 ^ 31 ≤ a.year ∧ a.year < 2 ^ 31
  valid : isValidCivilDate a.year a.month a.day = true

theorem dayNumber_lt (ha : isValidCivilDate a.year a.month a.day = true)
    (hb : isValidCivilDate b.year b.month b.day = true) (h : Before a b) :
    dayNumber a.year a.month a.day < dayNumber b.year b.month b.day := by
  obtain ⟨hma, hva⟩ := isValid_iff.1 ha
  obtain ⟨hmb, hvb⟩ := isValid_iff.1 hb
  refine Int.sub_lt_sub_right (number_lt hva hvb ?_) 719468
  unfold Before at h
  unfold marchYear marchMonth
  split <;> split <;> omega

theorem before_total (a b : CivilDate) : Before a b ∨ a = b ∨ Before b a := by
  have hsame : a.year = b.year → a.month = b.month → a.day = b.day → a = b := by
    intro hyear hmonth hday
    cases a
    cases b
    congr
  unfold Before
  by_cases heq : a.year = b.year ∧ a.month = b.month ∧ a.day = b.day
  · exact .inr (.inl (hsame heq.1 heq.2.1 heq.2.2))
  · omega

theorem eq_of_dayNumber (ha : isValidCivilDate a.year a.month a.day = true)
    (hb : isValidCivilDate b.year b.month b.day = true)
    (h : dayNumber a.year a.month a.day = dayNumber b.year b.month b.day) : a = b := by
  obtain hlt | heq | hlt := before_total a b
  · exact absurd h (Int.ne_of_lt (dayNumber_lt ha hb hlt))
  · exact heq
  · exact absurd h (Int.ne_of_gt (dayNumber_lt hb ha hlt))

def firstDay : Int := -784353015833

def lastDay : Int := 784351576776

theorem toSysDays_first : toSysDays (-2147483648) 1 1 = some firstDay := by decide

theorem toSysDays_last : toSysDays 2147483647 12 31 = some lastDay := by decide

theorem i32_of_range {x : Int} (h : -2 ^ 31 ≤ x ∧ x < 2 ^ 31) : i32 x = x := by
  rw [i32, Int.bmod]
  omega

theorem fromSysDays_eq (n : Int) :
    fromSysDays n = if n < firstDay ∨ n > lastDay then none
      else some { year := i32 (dateOf n).year, month := i32 (dateOf n).month, day := i32 (dateOf n).day } := by
  rw [fromSysDays, toSysDays_first, toSysDays_last]
  rfl

theorem bounds_of_valid (h : isValidCivilDate y m d = true) : (1 ≤ m ∧ m ≤ 12) ∧ 1 ≤ d ∧ d ≤ 31 := by
  obtain ⟨hmonth, hvalid⟩ := isValid_iff.1 h
  have hday := hvalid.day
  have hbound : monthDays (marchYear y m) (marchMonth m) ≤ 31 := by
    unfold monthDays
    split
    · split <;> decide
    · split <;> decide
  omega

theorem isDate_of_limits (h : firstDay ≤ n ∧ n ≤ lastDay) : IsDate (dateOf n) := by
  obtain ⟨hvalid, hnumber⟩ := dateOf_spec n
  have hfirst : dayNumber (-2147483648) 1 1 = firstDay := by decide
  have hlast : dayNumber 2147483647 12 31 = lastDay := by decide
  refine ⟨⟨?_, ?_⟩, hvalid⟩
  · by_contra hlow
    have hlt := dayNumber_lt (b := ⟨-2147483648, 1, 1⟩) hvalid (by decide) (.inl (by dsimp only; omega))
    rw [hnumber] at hlt
    dsimp only at hlt
    omega
  · by_contra hhigh
    have hlt := dayNumber_lt (a := ⟨2147483647, 12, 31⟩) (by decide) hvalid (.inl (by dsimp only; omega))
    rw [hnumber] at hlt
    dsimp only at hlt
    omega

theorem limits_of_isDate (h : IsDate a) :
    firstDay ≤ dayNumber a.year a.month a.day ∧ dayNumber a.year a.month a.day ≤ lastDay := by
  have hfirst : dayNumber (-2147483648) 1 1 = firstDay := by decide
  have hlast : dayNumber 2147483647 12 31 = lastDay := by decide
  obtain ⟨hlow, hhigh⟩ := h.year
  obtain ⟨hmonth, hday⟩ := bounds_of_valid h.valid
  constructor
  · obtain hbefore | rfl | hafter := before_total a ⟨-2147483648, 1, 1⟩
    · unfold Before at hbefore
      dsimp only at hbefore
      omega
    · exact hfirst.ge
    · have hlt := dayNumber_lt (a := ⟨-2147483648, 1, 1⟩) (by decide) h.valid hafter
      dsimp only at hlt
      omega
  · obtain hbefore | rfl | hafter := before_total a ⟨2147483647, 12, 31⟩
    · have hlt := dayNumber_lt (b := ⟨2147483647, 12, 31⟩) h.valid (by decide) hbefore
      dsimp only at hlt
      omega
    · exact hlast.le
    · unfold Before at hafter
      dsimp only at hafter
      omega

theorem fromSysDays_some (h : firstDay ≤ n ∧ n ≤ lastDay) : fromSysDays n = some (dateOf n) := by
  have hdate := isDate_of_limits h
  obtain ⟨hmonth, hday⟩ := bounds_of_valid hdate.valid
  rw [fromSysDays_eq, if_neg (by omega), i32_of_range hdate.year, i32_of_range (by omega),
    i32_of_range (by omega)]

variable {k : Nat} {doe doy yoe mp dd : Nat}

theorem u32_of_lt (h : k < 2 ^ 32) : u32 k = k := Nat.mod_eq_of_lt h

theorem sub32_of_le {j : Nat} (hle : k ≤ j) (hj : j < 2 ^ 32) : sub32 j k = j - k := by
  unfold sub32 u32
  omega

theorem toU32_cast (h : k < 2 ^ 32) : toU32 k = k := by
  unfold toU32
  omega

theorem dayOfYear_u32 (hmp : mp < 12) (hd : 1 ≤ dd ∧ dd ≤ 31) :
    sub32 (u32 (u32 (u32 (153 * mp) + 2) / 5 + dd)) 1 = (153 * mp + 2) / 5 + dd - 1 := by
  rw [u32_of_lt (k := 153 * mp) (by omega), u32_of_lt (k := 153 * mp + 2) (by omega),
    u32_of_lt (by omega), sub32_of_le (by omega) (by omega)]

theorem yearStart_u32 (hyoe : yoe < 400) :
    sub32 (u32 (u32 (365 * yoe) + yoe / 4)) (yoe / 100) = 365 * yoe + yoe / 4 - yoe / 100 := by
  rw [u32_of_lt (k := 365 * yoe) (by omega), u32_of_lt (by omega), sub32_of_le (by omega) (by omega)]

theorem yearOfEra_u32 (hdoe : doe < 146097) :
    sub32 (u32 (sub32 doe (doe / 1460) + doe / 36524)) (doe / 146096) / 365 = yearOfEra doe := by
  rw [sub32_of_le (j := doe) (Nat.div_le_self _ _) (by omega), u32_of_lt (by omega),
    sub32_of_le (by omega) (by omega), yearOfEra]

theorem daysFromCivil_eq (h : isValidCivilDate y m d = true) :
    daysFromCivil y m.toNat d.toNat = dayNumber y m d := by
  obtain ⟨hmonth, hday⟩ := bounds_of_valid h
  have hyear : (y - if m.toNat ≤ 2 then 1 else 0) = marchYear y m := by
    unfold marchYear
    split <;> split <;> omega
  have hlow : (if marchYear y m ≥ 0 then marchYear y m else marchYear y m - 399).tdiv 400 =
      marchYear y m / 400 := tdiv_lowered (b := 400) (by decide)
  obtain ⟨mp, hmp⟩ : ∃ mp : Nat, marchMonth m = mp :=
    ⟨(marchMonth m).toNat, by unfold marchMonth; split <;> omega⟩
  have hprime : u32 (m.toNat + if m.toNat > 2 then 2 ^ 32 - 3 else 9) = mp := by
    unfold marchMonth at hmp
    unfold u32
    split at hmp <;> split <;> omega
  have hmp' : mp < 12 := by
    unfold marchMonth at hmp
    split at hmp <;> omega
  obtain ⟨yoe, hyoe⟩ : ∃ yoe : Nat, marchYear y m - marchYear y m / 400 * 400 = yoe :=
    ⟨(marchYear y m - marchYear y m / 400 * 400).toNat, by omega⟩
  have hyoe' : yoe < 400 := by omega
  have hwhole : u32 (365 * yoe + yoe / 4 - yoe / 100 + ((153 * mp + 2) / 5 + d.toNat - 1)) =
      365 * yoe + yoe / 4 - yoe / 100 + ((153 * mp + 2) / 5 + d.toNat - 1) := u32_of_lt (by omega)
  rw [daysFromCivil, hyear, hlow, hyoe, hprime, toU32_cast (by omega), Nat.mul_comm yoe,
    dayOfYear_u32 hmp' (by omega), yearStart_u32 hyoe', hwhole, dayNumber, number, daysBefore_split, hyoe,
    hmp, monthStart]
  omega

theorem civilFromDays_eq (n : Int) : civilFromDays n =
    { year := i32 (dateOf n).year, month := i32 (dateOf n).month, day := i32 (dateOf n).day } := by
  have hdoe := dayOfEra_lt (n + 719468)
  obtain ⟨hyoe, _, _⟩ := yearOfEra_spec hdoe
  have hmonth := (valid_of_number (n + 719468)).month
  obtain ⟨hfirst, hlast⟩ := dayOfYear_bounds (n + 719468)
  have hlow : (if n + 719468 ≥ 0 then n + 719468 else n + 719468 - 146096).tdiv 146097 =
      (n + 719468) / 146097 := tdiv_lowered (b := 146097) (by decide)
  have hshort : dayOfYear (n + 719468) < 366 := by
    unfold yearDays at hlast
    split at hlast <;> omega
  obtain ⟨doy, hdoy⟩ : ∃ doy : Nat, dayOfYear (n + 719468) = doy :=
    ⟨(dayOfYear (n + 719468)).toNat, by omega⟩
  obtain ⟨mp, hmp⟩ : ∃ mp : Nat, monthOf (n + 719468) = mp :=
    ⟨(monthOf (n + 719468)).toNat, by omega⟩
  have hyear : sub32 (dayOfEra (n + 719468)) (sub32 (u32 (u32 (365 * yearOfEra (dayOfEra (n + 719468))) +
      yearOfEra (dayOfEra (n + 719468)) / 4)) (yearOfEra (dayOfEra (n + 719468)) / 100)) = doy := by
    rw [dayOfYear, daysBefore_yearOfEra _ hyoe] at hdoy
    rw [yearStart_u32 hyoe, sub32_of_le (by omega) (by omega)]
    omega
  have hprime : u32 (u32 (5 * doy) + 2) / 153 = mp := by
    rw [monthOf, hdoy] at hmp
    rw [u32_of_lt (k := 5 * doy) (by omega), u32_of_lt (by omega)]
    omega
  have hday : (u32 (sub32 doy (u32 (u32 (153 * mp) + 2) / 5) + 1) : Int) = dayOf (n + 719468) := by
    have hstart : (153 * mp + 2) / 5 ≤ doy := by
      have hpositive := (valid_of_number (n + 719468)).day.1
      rw [dayOf, hdoy, hmp, monthStart] at hpositive
      omega
    rw [u32_of_lt (k := 153 * mp) (by omega), u32_of_lt (k := 153 * mp + 2) (by omega),
      sub32_of_le hstart (by omega), u32_of_lt (by omega), dayOf, hdoy, hmp, monthStart]
    omega
  rw [civilFromDays, hlow, ← dayOfEra_cast, toU32_cast (by omega), yearOfEra_u32 hdoe, hyear, hprime, hday,
    dateOf_eq, ← yearOf, ofMarch, hmp]
  dsimp only
  have hcalendar : (u32 (mp + if mp < 10 then 3 else 2 ^ 32 - 9) : Int) =
      (mp : Int) + if (mp : Int) < 10 then 3 else 0 - 9 := by
    unfold u32
    split <;> split <;> omega
  have hnext : (yearOf (n + 719468) + if u32 (mp + if mp < 10 then 3 else 2 ^ 32 - 9) ≤ 2 then 1 else 0) =
      if (mp : Int) < 10 then yearOf (n + 719468) else yearOf (n + 719468) + 1 := by
    unfold u32
    split <;> split <;> split <;> omega
  rw [hcalendar, hnext]

variable {c : CivilDate} {i j : Int}

theorem toSysDays_of_isDate (h : IsDate a) :
    toSysDays a.year a.month a.day = some (dayNumber a.year a.month a.day) := toSysDays_eq h.valid

theorem fromSysDays_number (h : IsDate a) : fromSysDays (dayNumber a.year a.month a.day) = some a := by
  obtain ⟨hvalid, hnumber⟩ := dateOf_spec (dayNumber a.year a.month a.day)
  rw [fromSysDays_some (limits_of_isDate h), eq_of_dayNumber hvalid h.valid hnumber]

theorem limits_of_some (h : fromSysDays n = some a) : firstDay ≤ n ∧ n ≤ lastDay := by
  by_contra hout
  rw [fromSysDays_eq, if_pos (by omega)] at h
  cases h

theorem isSome_iff (n : Int) : (fromSysDays n).isSome = true ↔ ∃ first last,
    toSysDays (-2147483648) 1 1 = some first ∧ toSysDays 2147483647 12 31 = some last ∧
      first ≤ n ∧ n ≤ last := by
  rw [toSysDays_first, toSysDays_last]
  constructor
  · intro h
    obtain ⟨a, ha⟩ := Option.isSome_iff_exists.1 h
    exact ⟨firstDay, lastDay, rfl, rfl, limits_of_some ha⟩
  · rintro ⟨first, last, hfirst, hlast, hlimits⟩
    cases hfirst
    cases hlast
    rw [fromSysDays_some hlimits]
    rfl

theorem date_of_some (h : fromSysDays n = some a) :
    IsDate a ∧ toSysDays a.year a.month a.day = some n := by
  have hlimits := limits_of_some h
  rw [fromSysDays_some hlimits] at h
  cases h
  have hdate := isDate_of_limits hlimits
  exact ⟨hdate, (toSysDays_of_isDate hdate).trans (congrArg some (dateOf_spec n).2)⟩

theorem number_succ (ha : IsDate a) (hb : IsDate b) (hab : Before a b)
    (hnext : ∀ c, IsDate c → ¬ (Before a c ∧ Before c b)) :
    dayNumber b.year b.month b.day = dayNumber a.year a.month a.day + 1 := by
  have hlt := dayNumber_lt ha.valid hb.valid hab
  have hfirst := (limits_of_isDate ha).1
  have hlast := (limits_of_isDate hb).2
  have hdate : IsDate (dateOf (dayNumber a.year a.month a.day + 1)) :=
    isDate_of_limits ⟨by omega, by omega⟩
  obtain ⟨hvalid, hnumber⟩ := dateOf_spec (dayNumber a.year a.month a.day + 1)
  generalize dateOf (dayNumber a.year a.month a.day + 1) = c at hdate hvalid hnumber
  have hac : Before a c := by
    obtain h | rfl | h := before_total a c
    · exact h
    · omega
    · have hback := dayNumber_lt hvalid ha.valid h
      omega
  obtain h | rfl | h := before_total c b
  · exact absurd ⟨hac, h⟩ (hnext c hdate)
  · exact hnumber
  · have hbehind := dayNumber_lt hb.valid hvalid h
    omega

/-- Days and dates of the calendar correspond, in order, and the copies of the runtime agree. -/
theorem civil_calendar : (∀ a, IsDate a → (toSysDays a.year a.month a.day).bind fromSysDays = some a) ∧
    (∀ n, (fromSysDays n).isSome = true ↔ ∃ first last, toSysDays (-2147483648) 1 1 = some first ∧
      toSysDays 2147483647 12 31 = some last ∧ first ≤ n ∧ n ≤ last) ∧
    (∀ n a, fromSysDays n = some a → IsDate a ∧ toSysDays a.year a.month a.day = some n) ∧
    (∀ a b i j, IsDate a → IsDate b → toSysDays a.year a.month a.day = some i →
      toSysDays b.year b.month b.day = some j → Before a b →
        i < j ∧ ((∀ c, IsDate c → ¬ (Before a c ∧ Before c b)) → j = i + 1)) ∧
    (∀ a, IsDate a →
      toSysDays a.year a.month a.day = some (daysFromCivil a.year a.month.toNat a.day.toNat)) ∧
    ∀ n a, fromSysDays n = some a → civilFromDays n = a := by
  refine ⟨fun a ha => ?_, isSome_iff, fun n a h => date_of_some h, fun a b i j ha hb hi hj hab => ?_,
    fun a ha => ?_, fun n a h => ?_⟩
  · rw [toSysDays_of_isDate ha]
    exact fromSysDays_number ha
  · rw [toSysDays_of_isDate ha] at hi
    rw [toSysDays_of_isDate hb] at hj
    cases hi
    cases hj
    exact ⟨dayNumber_lt ha.valid hb.valid hab, number_succ ha hb hab⟩
  · rw [toSysDays_of_isDate ha, daysFromCivil_eq ha.valid]
  · have hlimits := limits_of_some h
    rw [fromSysDays_eq, if_neg (by omega)] at h
    exact (civilFromDays_eq n).trans (Option.some.inj h)

theorem leapDay_roundTrip : (toSysDays 2024 2 29).bind fromSysDays = some ⟨2024, 2, 29⟩ :=
  civil_calendar.1 ⟨2024, 2, 29⟩ ⟨by decide, by decide⟩

end Mlang.CivilDates
