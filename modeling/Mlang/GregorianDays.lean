import Mathlib.Data.Int.ModEq

namespace Mlang.GregorianDays

/-! The days of the Gregorian calendar, in years that begin with March. -/

variable {a b : Int}

theorem tdiv_corrected (hb : 0 < b) :
    (if a < 0 ∧ a.tmod b ≠ 0 then a.tdiv b - 1 else a.tdiv b) = a / b := by
  rw [Int.tdiv_eq_ediv, Int.sign_eq_one_of_pos hb]
  by_cases hneg : a < 0
  · by_cases hmul : a.tmod b = 0
    · rw [if_neg fun h => h.2 hmul, if_pos (.inr (Int.dvd_of_tmod_eq_zero hmul)), Int.add_zero]
    · have hdvd : ¬ (0 ≤ a ∨ b ∣ a) := by
        rintro (hnonneg | hdvd)
        · omega
        · exact hmul (Int.tmod_eq_zero_of_dvd hdvd)
      rw [if_pos ⟨hneg, hmul⟩, if_neg hdvd, Int.add_sub_cancel]
  · rw [if_neg fun h => hneg h.1, if_pos (.inl (Int.not_lt.1 hneg)), Int.add_zero]

theorem tdiv_lowered (hb : 0 < b) : (if a ≥ 0 then a else a - (b - 1)).tdiv b = a / b := by
  by_cases hneg : a ≥ 0
  · rw [if_pos hneg, Int.tdiv_eq_ediv_of_nonneg hneg]
  · rw [if_neg hneg]
    have hq : b * (a / b) + a % b = a := Int.mul_ediv_add_emod a b
    have hr : 0 ≤ a % b := Int.emod_nonneg a hb.ne'
    have hr' : a % b < b := Int.emod_lt_of_pos a hb
    have hopposite : (a - (b - 1)).tdiv b = -((b - 1 - a) / b) := by
      have hflip : a - (b - 1) = -(b - 1 - a) := by omega
      rw [hflip, Int.neg_tdiv, Int.tdiv_eq_ediv_of_nonneg (by omega)]
    have hquotient : (b - 1 - a) / b = -(a / b) := by
      have hsplit : b - 1 - a = b - 1 - a % b + b * -(a / b) := by
        rw [Int.mul_neg]
        omega
      rw [hsplit, Int.add_mul_ediv_left _ _ hb.ne',
        Int.ediv_eq_zero_of_lt (by omega) (by omega), Int.zero_add]
    rw [hopposite, hquotient, Int.neg_neg]

def daysBefore (y : Int) : Int := 365 * y + y / 4 - y / 100 + y / 400

def Long (y : Int) : Prop := (y + 1) % 4 = 0 ∧ ((y + 1) % 100 ≠ 0 ∨ (y + 1) % 400 = 0)

instance (y : Int) : Decidable (Long y) := inferInstanceAs (Decidable (_ ∧ _))

def yearDays (y : Int) : Int := if Long y then 366 else 365

theorem daysBefore_succ (y : Int) : daysBefore (y + 1) = daysBefore y + yearDays y := by
  unfold daysBefore yearDays
  by_cases hlong : Long y
  · rw [if_pos hlong]
    unfold Long at hlong
    omega
  · rw [if_neg hlong]
    unfold Long at hlong
    omega

theorem daysBefore_mono {x y : Int} (h : x ≤ y) : daysBefore x ≤ daysBefore y := by
  unfold daysBefore
  omega

theorem daysBefore_era (era y : Int) : daysBefore (y + era * 400) = era * 146097 + daysBefore y := by
  unfold daysBefore
  omega

theorem yearDays_era (era y : Int) : yearDays (y + era * 400) = yearDays y := by
  unfold yearDays Long
  refine if_congr ?_ rfl rfl
  omega

variable {doe yoe n : Nat}

def yearOfEra (doe : Nat) : Nat := (doe - doe / 1460 + doe / 36524 - doe / 146096) / 365

theorem yearOfEra_mono {d e : Nat} (hle : d ≤ e) (he : e < 146096) : yearOfEra d ≤ yearOfEra e := by
  have hd : d / 146096 = 0 := Nat.div_eq_of_lt (by omega)
  have he' : e / 146096 = 0 := Nat.div_eq_of_lt he
  have hfour : d - d / 1460 ≤ e - e / 1460 := by omega
  have hcentury : d / 36524 ≤ e / 36524 := Nat.div_le_div_right hle
  rw [yearOfEra, yearOfEra, hd, he', Nat.sub_zero, Nat.sub_zero]
  exact Nat.div_le_div_right (Nat.add_le_add hfour hcentury)

theorem yearOfEra_ends : ∀ y < 400,
    yearOfEra (365 * y + y / 4 - y / 100) = y ∧
      yearOfEra (min (365 * (y + 1) + (y + 1) / 4 - (y + 1) / 100 + (y + 1) / 400 - 1) 146095) = y := by
  decide +kernel

theorem yearOfEra_eq (hyoe : yoe < 400) (hge : 365 * yoe + yoe / 4 - yoe / 100 ≤ doe)
    (hlt : doe < 365 * (yoe + 1) + (yoe + 1) / 4 - (yoe + 1) / 100 + (yoe + 1) / 400) :
    yearOfEra doe = yoe := by
  obtain ⟨hfirst, hlast⟩ := yearOfEra_ends yoe hyoe
  by_cases hend : doe = 146096
  · have hyear : yoe = 399 := by omega
    rw [hend, hyear]
    decide
  · refine Nat.le_antisymm ?_ ?_
    · exact (yearOfEra_mono (by omega) (by omega)).trans_eq hlast
    · exact hfirst.symm.trans_le (yearOfEra_mono hge (by omega))

theorem exists_year (hn : n ≤ 400) (hdoe : doe < 365 * n + n / 4 - n / 100 + n / 400) :
    ∃ yoe < n, 365 * yoe + yoe / 4 - yoe / 100 ≤ doe ∧
      doe < 365 * (yoe + 1) + (yoe + 1) / 4 - (yoe + 1) / 100 + (yoe + 1) / 400 := by
  induction n with
  | zero => exact absurd hdoe (Nat.not_lt_zero doe)
  | succ n ih =>
    by_cases hbefore : doe < 365 * n + n / 4 - n / 100 + n / 400
    · obtain ⟨yoe, hyoe, hrest⟩ := ih (by omega) hbefore
      exact ⟨yoe, Nat.lt_succ_of_lt hyoe, hrest⟩
    · exact ⟨n, Nat.lt_succ_self n, by omega, hdoe⟩

theorem yearOfEra_spec (hdoe : doe < 146097) :
    yearOfEra doe < 400 ∧ daysBefore (yearOfEra doe) ≤ doe ∧
      (doe : Int) < daysBefore (yearOfEra doe) + yearDays (yearOfEra doe) := by
  obtain ⟨yoe, hyoe, hge, hlt⟩ := exists_year (n := 400) (Nat.le_refl 400) hdoe
  have hnext : ((yoe : Int) + 1) = ((yoe + 1 : Nat) : Int) := rfl
  rw [yearOfEra_eq hyoe hge hlt, ← daysBefore_succ, hnext]
  generalize yoe + 1 = next at hlt
  unfold daysBefore
  omega

def monthStart (m : Int) : Int := (153 * m + 2) / 5

def monthDays (y m : Int) : Int :=
  if m = 11 then if Long y then 29 else 28
  else if m = 1 ∨ m = 3 ∨ m = 6 ∨ m = 8 then 30
  else 31

structure Valid (y m d : Int) : Prop where
  month : 0 ≤ m ∧ m < 12
  day : 1 ≤ d ∧ d ≤ monthDays y m

def number (y m d : Int) : Int := daysBefore y + monthStart m + d - 1

variable {y m d y' m' d' : Int}

theorem months (h : 0 ≤ m ∧ m < 12) :
    m = 0 ∨ m = 1 ∨ m = 2 ∨ m = 3 ∨ m = 4 ∨ m = 5 ∨ m = 6 ∨ m = 7 ∨ m = 8 ∨ m = 9 ∨ m = 10 ∨ m = 11 := by
  omega

theorem monthStart_succ (h : 0 ≤ m ∧ m < 11) (y : Int) : monthStart m + monthDays y m = monthStart (m + 1) := by
  rcases months ⟨h.1, h.2.trans (by decide)⟩ with
    rfl | rfl | rfl | rfl | rfl | rfl | rfl | rfl | rfl | rfl | rfl | rfl
  case inr.inr.inr.inr.inr.inr.inr.inr.inr.inr.inr => exact absurd h.2 (by decide)
  all_goals rfl

theorem monthStart_last (y : Int) : monthStart 11 + monthDays y 11 = yearDays y := by
  unfold monthDays yearDays
  rw [if_pos rfl]
  split <;> rfl

theorem monthStart_mono (h : m ≤ m') : monthStart m ≤ monthStart m' := by
  unfold monthStart
  omega

theorem monthStart_nonneg (h : 0 ≤ m) : 0 ≤ monthStart m := by
  unfold monthStart
  omega

theorem Valid.dayOfYear_lt (h : Valid y m d) : monthStart m + d - 1 < yearDays y := by
  have hday := h.day.2
  rcases Int.lt_or_le m 11 with hlt | hge
  · have hstart := monthStart_succ ⟨h.month.1, hlt⟩ y
    have hnext := monthStart_mono (by omega : m + 1 ≤ 11)
    have hlast := monthStart_last y
    have hfebruary : 0 ≤ monthDays y 11 := by
      unfold monthDays
      rw [if_pos rfl]
      split <;> decide
    omega
  · obtain rfl : m = 11 := by have hm := h.month.2; omega
    have hlast := monthStart_last y
    omega

theorem number_lt (h : Valid y m d) (h' : Valid y' m' d')
    (hlt : y < y' ∨ y = y' ∧ (m < m' ∨ m = m' ∧ d < d')) : number y m d < number y' m' d' := by
  have hday := h.day
  have hday' := h'.day
  have hstart' := monthStart_nonneg h'.month.1
  unfold number
  obtain hyear | ⟨rfl, hmonth | ⟨rfl, hd⟩⟩ := hlt
  · have hwithin := h.dayOfYear_lt
    have hnext := daysBefore_succ y
    have hmono := daysBefore_mono (x := y + 1) (y := y') (by omega)
    omega
  · have hm' := h'.month.2
    have hnext := monthStart_succ ⟨h.month.1, by omega⟩ y
    have hmono := monthStart_mono (by omega : m + 1 ≤ m')
    omega
  · omega

theorem valid_of_dayOfYear {doy : Int} (hdoy : 0 ≤ doy) (hlt : doy < yearDays y) :
    Valid y ((5 * doy + 2) / 153) (doy - monthStart ((5 * doy + 2) / 153) + 1) := by
  have hshort : doy < 366 := by
    unfold yearDays at hlt
    split at hlt <;> omega
  have hmonth : 0 ≤ (5 * doy + 2) / 153 ∧ (5 * doy + 2) / 153 < 12 := by omega
  have hfirst : monthStart ((5 * doy + 2) / 153) ≤ doy := by
    unfold monthStart
    omega
  refine ⟨hmonth, by omega, ?_⟩
  rcases Int.lt_or_le ((5 * doy + 2) / 153) 11 with hearly | hlate
  · have hnext := monthStart_succ ⟨hmonth.1, hearly⟩ y
    have hbefore : doy < monthStart ((5 * doy + 2) / 153 + 1) := by
      unfold monthStart
      omega
    omega
  · have hlast : (5 * doy + 2) / 153 = 11 := by omega
    have hend := monthStart_last y
    rw [hlast]
    omega

variable {n : Int}

def dayOfEra (n : Int) : Nat := (n - n / 146097 * 146097).toNat

def yearOf (n : Int) : Int := yearOfEra (dayOfEra n) + n / 146097 * 400

def dayOfYear (n : Int) : Int := dayOfEra n - daysBefore (yearOfEra (dayOfEra n))

def monthOf (n : Int) : Int := (5 * dayOfYear n + 2) / 153

def dayOf (n : Int) : Int := dayOfYear n - monthStart (monthOf n) + 1

theorem dayOfEra_cast (n : Int) : (dayOfEra n : Int) = n - n / 146097 * 146097 := by
  unfold dayOfEra
  omega

theorem dayOfEra_lt (n : Int) : dayOfEra n < 146097 := by
  unfold dayOfEra
  omega

theorem dayOfYear_bounds (n : Int) : 0 ≤ dayOfYear n ∧ dayOfYear n < yearDays (yearOf n) := by
  obtain ⟨_, hge, hlt⟩ := yearOfEra_spec (dayOfEra_lt n)
  rw [yearOf, yearDays_era, dayOfYear]
  omega

theorem valid_of_number (n : Int) : Valid (yearOf n) (monthOf n) (dayOf n) :=
  valid_of_dayOfYear (dayOfYear_bounds n).1 (dayOfYear_bounds n).2

theorem number_of (n : Int) : number (yearOf n) (monthOf n) (dayOf n) = n := by
  have hera := dayOfEra_cast n
  rw [number, yearOf, daysBefore_era, dayOf, dayOfYear]
  omega

end Mlang.GregorianDays
