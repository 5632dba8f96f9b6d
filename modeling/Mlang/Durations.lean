import Mlang.CheckedIntegers
import Mlang.CivilDates

namespace Mlang.Durations

open CheckedIntegers Option
open CivilDates (i32 i32_of_range)

inductive DurationUnit
  | nanosecond | microsecond | millisecond | second | minute | hour | day | week
  deriving DecidableEq

inductive DurationOrder
  | less | equivalent | greater
  deriving DecidableEq

structure Duration where
  count : Int
  unit : DurationUnit
  deriving DecidableEq

def durationUnitScale : DurationUnit → Int
  | .nanosecond => 1
  | .microsecond => 1000
  | .millisecond => 1000000
  | .second => 1000000000
  | .minute => 60000000000
  | .hour => 3600000000000
  | .day => 86400000000000
  | .week => 604800000000000

def maximum : Int := 9223372036854775807

def minimum : Int := -9223372036854775807 - 1

def nanoseconds (value : Duration) : Int := value.count * durationUnitScale value.unit

def ratio (coarse fine : DurationUnit) : Int := durationUnitScale coarse / durationUnitScale fine

theorem scale_pos (unit : DurationUnit) : 0 < durationUnitScale unit := by
  cases unit <;> decide

instance : Fintype DurationUnit where
  elems := {.nanosecond, .microsecond, .millisecond, .second, .minute, .hour, .day, .week}
  complete unit := by cases unit <;> decide

theorem ratio_spec : ∀ coarse fine : DurationUnit, durationUnitScale fine ≤ durationUnitScale coarse →
    quot 64 (durationUnitScale coarse) (durationUnitScale fine) = some (ratio coarse fine) ∧
      rem 64 (durationUnitScale coarse) (durationUnitScale fine) = some 0 ∧
      ratio coarse fine * durationUnitScale fine = durationUnitScale coarse ∧
      0 < ratio coarse fine ∧ ratio coarse fine < 2 ^ 50 := by
  decide

theorem unit_of_scale : ∀ u v : DurationUnit, durationUnitScale u = durationUnitScale v → u = v := by
  decide

theorem nanoseconds_nonneg (value : Duration) : 0 ≤ nanoseconds value ↔ 0 ≤ value.count :=
  mul_nonneg_iff_of_pos_right (scale_pos value.unit)

theorem nanoseconds_pos (value : Duration) : 0 < nanoseconds value ↔ 0 < value.count :=
  mul_pos_iff_of_pos_right (scale_pos value.unit)

section Comparison

def compareFineToCoarse (fineCount ratio coarseCount : Int) : Checked Int := do
  let quotient ← quot 64 fineCount ratio
  if quotient < coarseCount then pure (-1)
  else if quotient > coarseCount then pure 1
  else do
    let remainder ← rem 64 fineCount ratio
    if remainder < 0 then pure (-1) else if remainder > 0 then pure 1 else pure 0

def durationCompare (left right : Duration) : Checked (Option DurationOrder) := do
  let leftScale := durationUnitScale left.unit
  let rightScale := durationUnitScale right.unit
  if leftScale = 0 ∨ rightScale = 0 then pure none
  else do
    let comparison ←
      if leftScale = rightScale then
        pure (if left.count < right.count then -1 else if left.count > right.count then 1 else 0)
      else if leftScale < rightScale then do
        let ratio ← quot 64 rightScale leftScale
        compareFineToCoarse left.count ratio right.count
      else do
        let ratio ← quot 64 leftScale rightScale
        let comparison ← compareFineToCoarse right.count ratio left.count
        sub 32 0 comparison
    pure (some (if comparison < 0 then .less else if comparison > 0 then .greater else .equivalent))

def orderOf (a b : Int) : DurationOrder :=
  if a < b then .less else if a > b then .greater else .equivalent

variable {a b c r : Int} {left right : Duration}

theorem orderOf_mul (hr : 0 < r) : orderOf (a * r) (b * r) = orderOf a b := by
  rw [orderOf, orderOf]
  simp only [gt_iff_lt, Int.mul_lt_mul_right hr]

theorem compareFineToCoarse_eq (hr : 0 < r) (ha : Fits 64 a) :
    compareFineToCoarse a r b = some (if a < b * r then -1 else if a > b * r then 1 else 0) := by
  have h := truncated_tdiv hr a
  have hsplit := h.split
  have habove := h.above
  have hbelow := h.below
  rw [compareFineToCoarse, quot_eq hr ha, rem_eq hr ha]
  generalize a.tdiv r = q at hsplit
  generalize a.tmod r = m at hsplit habove hbelow
  simp only [bind_eq_bind, bind_some]
  rcases lt_trichotomy q b with hlt | rfl | hgt
  · have hle : (q + 1) * r ≤ b * r := Int.mul_le_mul_of_nonneg_right hlt (le_of_lt hr)
    rw [Int.add_mul, Int.one_mul] at hle
    rw [if_pos hlt, if_pos (by omega)]
    rfl
  · rw [if_neg (lt_irrefl q), if_neg (lt_irrefl q)]
    rcases lt_trichotomy m 0 with hneg | rfl | hpos
    · rw [if_pos hneg, if_pos (by omega)]
      rfl
    · rw [if_neg (lt_irrefl 0), if_neg (lt_irrefl 0), if_neg (by omega), if_neg (by omega)]
      rfl
    · rw [if_neg (by omega), if_pos hpos, if_neg (by omega), if_pos (by omega)]
      rfl
  · have hle : (b + 1) * r ≤ q * r := Int.mul_le_mul_of_nonneg_right hgt (le_of_lt hr)
    rw [Int.add_mul, Int.one_mul] at hle
    rw [if_neg (by omega), if_pos hgt, if_neg (by omega), if_pos (by omega)]
    rfl

theorem sub_sign (x y : Int) :
    sub 32 0 (if x < y then -1 else if x > y then 1 else 0) =
      some (if y < x then -1 else if y > x then 1 else 0) := by
  rcases lt_trichotomy x y with hlt | rfl | hgt
  · rw [if_pos hlt, if_neg (lt_asymm hlt), if_pos hlt]
    rfl
  · rw [if_neg (lt_irrefl x), if_neg (lt_irrefl x)]
    rfl
  · rw [if_neg (lt_asymm hgt), if_pos hgt, if_pos hgt]
    rfl

theorem durationCompare_eq (hleft : Fits 64 left.count) (hright : Fits 64 right.count) :
    durationCompare left right = some (some (orderOf (nanoseconds left) (nanoseconds right))) := by
  obtain ⟨a, u⟩ := left
  obtain ⟨b, v⟩ := right
  have hu := scale_pos u
  have hv := scale_pos v
  have hsign : ∀ x y : Int, (if (if x < y then (-1 : Int) else if x > y then 1 else 0) < 0 then
      DurationOrder.less else if (if x < y then (-1 : Int) else if x > y then 1 else 0) > 0 then .greater
        else .equivalent) = orderOf x y := by
    intro x y
    rw [orderOf]
    split_ifs <;> first | rfl | omega
  rw [durationCompare, nanoseconds, nanoseconds]
  dsimp only at hleft hright ⊢
  rw [if_neg (by omega)]
  rcases lt_trichotomy (durationUnitScale u) (durationUnitScale v) with hlt | heq | hgt
  · obtain ⟨hquot, -, hratio, hpos, -⟩ := ratio_spec v u (le_of_lt hlt)
    rw [if_neg (ne_of_lt hlt), if_pos hlt, hquot]
    simp only [bind_eq_bind, bind_some]
    rw [compareFineToCoarse_eq hpos hleft, bind_some, hsign, ← hratio, ← Int.mul_assoc, orderOf_mul hu]
    rfl
  · rw [if_pos heq]
    simp only [bind_eq_bind, pure_def, bind_some]
    rw [hsign, ← heq, orderOf_mul hu]
  · obtain ⟨hquot, -, hratio, hpos, -⟩ := ratio_spec u v (le_of_lt hgt)
    rw [if_neg (ne_of_gt hgt), if_neg (not_lt_of_gt hgt), hquot]
    simp only [bind_eq_bind, bind_some]
    rw [compareFineToCoarse_eq hpos hright, bind_some, sub_sign, bind_some, hsign,
      ← hratio, ← Int.mul_assoc, orderOf_mul hv]
    rfl

def NotAfter (left right : Duration) : Prop :=
  durationCompare left right = some (some .less) ∨
    durationCompare left right = some (some .equivalent)

theorem orderOf_less : orderOf a b = .less ↔ a < b := by
  rw [orderOf]
  split_ifs with hlt hgt
  · exact iff_of_true rfl hlt
  · exact iff_of_false (by decide) hlt
  · exact iff_of_false (by decide) hlt

theorem orderOf_equivalent : orderOf a b = .equivalent ↔ a = b := by
  rw [orderOf]
  split_ifs with hlt hgt
  · exact iff_of_false (by decide) hlt.ne
  · exact iff_of_false (by decide) (ne_of_gt hgt)
  · exact iff_of_true rfl (by omega)

theorem orderOf_greater : orderOf a b = .greater ↔ b < a := by
  rw [orderOf]
  split_ifs with hlt hgt
  · exact iff_of_false (by decide) (lt_asymm hlt)
  · exact iff_of_true rfl hgt
  · exact iff_of_false (by decide) hgt

theorem notAfter_iff (hleft : Fits 64 left.count) (hright : Fits 64 right.count) :
    NotAfter left right ↔ nanoseconds left ≤ nanoseconds right := by
  rw [NotAfter, durationCompare_eq hleft hright]
  simp only [Option.some.injEq, orderOf_less, orderOf_equivalent]
  exact le_iff_lt_or_eq.symm

theorem durationCompare_exact (first second third : Duration) (hfirst : Fits 64 first.count)
    (hsecond : Fits 64 second.count) (hthird : Fits 64 third.count) :
    durationCompare first second =
        some (some (orderOf (nanoseconds first) (nanoseconds second))) ∧
      (durationCompare first second = some (some .equivalent) ↔
        NotAfter first second ∧ NotAfter second first) ∧
      NotAfter first first ∧ (NotAfter first second ∨ NotAfter second first) ∧
      (NotAfter first second → NotAfter second third → NotAfter first third) := by
  rw [notAfter_iff hfirst hsecond, notAfter_iff hsecond hfirst, notAfter_iff hfirst hfirst,
    notAfter_iff hsecond hthird, notAfter_iff hfirst hthird, durationCompare_eq hfirst hsecond]
  simp only [Option.some.injEq, orderOf_equivalent, true_and]
  exact ⟨le_antisymm_iff, le_refl _, le_total _ _, le_trans⟩

/-- The shortest duration in weeks is before the longest in nanoseconds. -/
theorem shortest_compare : durationCompare ⟨minimum, .week⟩ ⟨maximum, .nanosecond⟩ = some (some .less) :=
  (durationCompare_exact ⟨minimum, .week⟩ ⟨maximum, .nanosecond⟩ ⟨0, .day⟩ (by decide) (by decide)
    (by decide)).1

end Comparison

section Products

def exceedsProduct (count factor : Int) : Checked Bool := do
  let above ← if count > 0 then (quot 64 maximum factor).map fun limit => decide (count > limit)
    else pure false
  if above then pure true
  else if count < 0 then (quot 64 minimum factor).map fun limit => decide (count < limit)
  else pure false

variable {count factor n : Int}

theorem fits_iff : Fits 64 n ↔ minimum ≤ n ∧ n ≤ maximum := by
  rw [Fits, minimum, maximum]
  omega

theorem exceedsProduct_eq (hfactor : 0 < factor) :
    exceedsProduct count factor = some (decide (¬ Fits 64 (count * factor))) := by
  have hmaximum : (0 : Int) ≤ maximum := by decide
  have hminimum : minimum ≤ 0 := by decide
  rw [exceedsProduct, quot_eq hfactor (by decide), quot_eq hfactor (by decide)]
  simp only [map_some, bind_eq_bind, fits_iff]
  rcases lt_trichotomy count 0 with hneg | rfl | hpos
  · have hproduct : count * factor < 0 := Int.mul_neg_of_neg_of_pos hneg hfactor
    have hlimit := @tdiv_le_iff count factor minimum hfactor hminimum
    rw [if_neg (by omega), pure_def, bind_some, if_neg (by decide), if_pos hneg]
    simp only [Option.some.injEq, decide_eq_decide]
    omega
  · rw [if_neg (lt_irrefl 0), pure_def, bind_some, if_neg (by decide),
      if_neg (lt_irrefl 0), Int.zero_mul, decide_eq_false (by omega)]
  · have hproduct : 0 < count * factor := Int.mul_pos hpos hfactor
    have hlimit := @le_tdiv_iff count factor maximum hfactor hmaximum
    rw [if_pos hpos, bind_some]
    by_cases hexceeds : count > maximum.tdiv factor
    · rw [decide_eq_true hexceeds, if_pos rfl, pure_def, decide_eq_true (by omega)]
    · rw [decide_eq_false hexceeds, if_neg (by decide), if_neg (by omega), pure_def,
        decide_eq_false (by omega)]

end Products

structure HhMmSs where
  isNegative : Bool
  hours : Int
  minutes : Int
  seconds : Int
  subseconds : Duration
  deriving DecidableEq

structure SignedParts where
  hours : Int
  minutes : Int
  seconds : Int
  subseconds : Int
  deriving DecidableEq

def wholeHours (count factor : Int) : Checked (Option SignedParts) := do
  if ← exceedsProduct count factor then pure none
  else do
    let hours ← mul 64 count factor
    pure (some ⟨hours, 0, 0, 0⟩)

def subsecondParts (count scale : Int) : Checked (Option SignedParts) := do
  let ticksPerSecond ← quot 64 1000000000 scale
  let ticksPerMinute ← mul 64 ticksPerSecond 60
  let ticksPerHour ← mul 64 ticksPerMinute 60
  let hours ← quot 64 count ticksPerHour
  let afterHours ← rem 64 count ticksPerHour
  let minutes ← quot 64 afterHours ticksPerMinute
  let afterMinutes ← rem 64 afterHours ticksPerMinute
  let seconds ← quot 64 afterMinutes ticksPerSecond
  let subseconds ← rem 64 afterMinutes ticksPerSecond
  pure (some ⟨hours, minutes, seconds, subseconds⟩)

def signedParts (value : Duration) : Checked (Option SignedParts) :=
  if value.unit = .week then wholeHours value.count 168
  else if value.unit = .day then wholeHours value.count 24
  else if value.unit = .hour then pure (some ⟨value.count, 0, 0, 0⟩)
  else if value.unit = .minute then do
    let hours ← quot 64 value.count 60
    let minutes ← rem 64 value.count 60
    pure (some ⟨hours, minutes, 0, 0⟩)
  else if value.unit = .second then do
    let hours ← quot 64 value.count 3600
    let remainder ← rem 64 value.count 3600
    let minutes ← quot 64 remainder 60
    let seconds ← rem 64 remainder 60
    pure (some ⟨hours, minutes, seconds, 0⟩)
  else subsecondParts value.count (durationUnitScale value.unit)

def SignedParts.negated (parts : SignedParts) : Checked SignedParts := do
  let hours ← sub 64 0 parts.hours
  let minutes ← sub 64 0 parts.minutes
  let seconds ← sub 64 0 parts.seconds
  let subseconds ← sub 64 0 parts.subseconds
  pure ⟨hours, minutes, seconds, subseconds⟩

def makeHhMmSs (value : Duration) : Checked (Option HhMmSs) := do
  if durationUnitScale value.unit = 0 then pure none
  else match ← signedParts value with
    | none => pure none
    | some signed =>
      if signed.hours = minimum then pure none
      else do
        let negative := decide (value.count < 0)
        let parts ← if negative then signed.negated else pure signed
        pure (some ⟨negative, parts.hours, i32 parts.minutes, i32 parts.seconds,
          ⟨parts.subseconds, value.unit⟩⟩)

structure Splits (value : Duration) (parts : SignedParts) : Prop where
  total : ((parts.hours * 60 + parts.minutes) * 60 + parts.seconds) * 1000000000 +
    parts.subseconds * durationUnitScale value.unit = nanoseconds value
  nonneg : 0 ≤ value.count → 0 ≤ parts.hours ∧ 0 ≤ parts.minutes ∧ 0 ≤ parts.seconds ∧
    0 ≤ parts.subseconds
  nonpos : value.count ≤ 0 → parts.hours ≤ 0 ∧ parts.minutes ≤ 0 ∧ parts.seconds ≤ 0 ∧
    parts.subseconds ≤ 0
  minutes : -60 < parts.minutes ∧ parts.minutes < 60
  seconds : -60 < parts.seconds ∧ parts.seconds < 60
  subseconds : -1000000000 < parts.subseconds * durationUnitScale value.unit ∧
    parts.subseconds * durationUnitScale value.unit < 1000000000

variable {value : Duration} {count factor scale ticks : Int} {parts : SignedParts}

theorem wholeHours_eq (hfactor : 0 < factor) :
    wholeHours count factor =
      some (if Fits 64 (count * factor) then some ⟨count * factor, 0, 0, 0⟩ else none) := by
  rw [wholeHours, exceedsProduct_eq hfactor]
  simp only [bind_eq_bind, bind_some, decide_eq_true_eq]
  by_cases hfits : Fits 64 (count * factor)
  · rw [if_neg (not_not_intro hfits), if_pos hfits, mul_eq hfits]
    rfl
  · rw [if_pos hfits, if_neg hfits]
    rfl

theorem subsecondParts_eq (hscale : 0 < scale) (hticks : ticks * scale = 1000000000)
    (hcount : Fits 64 count) :
    subsecondParts count scale =
      some (some ⟨count.tdiv (ticks * 60 * 60), (count.tmod (ticks * 60 * 60)).tdiv (ticks * 60),
        ((count.tmod (ticks * 60 * 60)).tmod (ticks * 60)).tdiv ticks,
        ((count.tmod (ticks * 60 * 60)).tmod (ticks * 60)).tmod ticks⟩) := by
  have hpos : 0 < ticks := (pos_iff_pos_of_mul_pos (by omega)).mpr hscale
  have hle : ticks * 1 ≤ ticks * scale := Int.mul_le_mul_of_nonneg_left hscale hpos.le
  have hquot : quot 64 1000000000 scale = some ticks := by
    rw [quot_eq hscale (by decide), ← hticks, Int.mul_tdiv_cancel _ hscale.ne']
  have hminute : mul 64 ticks 60 = some (ticks * 60) := mul_eq ⟨by omega, by omega⟩
  have hhour : mul 64 (ticks * 60) 60 = some (ticks * 60 * 60) := mul_eq ⟨by omega, by omega⟩
  have hticksMinute : 0 < ticks * 60 := by omega
  have hticksHour : 0 < ticks * 60 * 60 := by omega
  have hafterHours := tmod_fits hticksHour hcount
  have hafterMinutes := tmod_fits hticksMinute hafterHours
  rw [subsecondParts, hquot]
  simp only [bind_eq_bind, bind_some]
  rw [hminute, bind_some, hhour, bind_some, quot_eq hticksHour hcount,
    bind_some, rem_eq hticksHour hcount, bind_some,
    quot_eq hticksMinute hafterHours, bind_some, rem_eq hticksMinute hafterHours,
    bind_some, quot_eq hpos hafterMinutes, bind_some, rem_eq hpos hafterMinutes,
    bind_some]
  rfl

theorem splits_subseconds (hticks : ticks * durationUnitScale value.unit = 1000000000) :
    Splits value ⟨value.count.tdiv (ticks * 60 * 60),
      (value.count.tmod (ticks * 60 * 60)).tdiv (ticks * 60),
      ((value.count.tmod (ticks * 60 * 60)).tmod (ticks * 60)).tdiv ticks,
      ((value.count.tmod (ticks * 60 * 60)).tmod (ticks * 60)).tmod ticks⟩ := by
  have hscale := scale_pos value.unit
  have hpos : 0 < ticks := (pos_iff_pos_of_mul_pos (by omega)).mpr hscale
  have hhours := truncated_tdiv (show 0 < ticks * 60 * 60 by omega) value.count
  generalize value.count.tmod (ticks * 60 * 60) = afterHours at *
  generalize value.count.tdiv (ticks * 60 * 60) = hours at *
  have hminutes := truncated_tdiv (show 0 < ticks * 60 by omega) afterHours
  have hminutesBound := @tdiv_bounded afterHours (ticks * 60) (by omega) 60
    (by have habove := hhours.above; omega) (by have hbelow := hhours.below; omega)
  generalize afterHours.tmod (ticks * 60) = afterMinutes at *
  generalize afterHours.tdiv (ticks * 60) = minutes at *
  have hseconds := truncated_tdiv hpos afterMinutes
  have hsecondsBound := @tdiv_bounded afterMinutes ticks hpos 60
    (by have habove := hminutes.above; omega) (by have hbelow := hminutes.below; omega)
  generalize afterMinutes.tmod ticks = subseconds at *
  generalize afterMinutes.tdiv ticks = seconds at *
  refine ⟨?_, fun hsign => ?_, fun hsign => ?_, hminutesBound, hsecondsBound, ?_⟩
  · have hhoursSplit := hhours.split
    have hminutesSplit := hminutes.split
    have hsecondsSplit := hseconds.split
    dsimp only
    rw [nanoseconds, ← hticks, ← hhoursSplit, ← hminutesSplit, ← hsecondsSplit]
    ring
  · have hafterHours := hhours.nonneg hsign
    have hafterMinutes := hminutes.nonneg hafterHours.1
    have hrest := hseconds.nonneg hafterMinutes.1
    exact ⟨hafterHours.2, hafterMinutes.2, hrest.2, hrest.1⟩
  · have hafterHours := hhours.nonpos hsign
    have hafterMinutes := hminutes.nonpos hafterHours.1
    have hrest := hseconds.nonpos hafterMinutes.1
    exact ⟨hafterHours.2, hafterMinutes.2, hrest.2, hrest.1⟩
  · have habove := Int.mul_lt_mul_of_pos_right hseconds.above hscale
    have hbelow := Int.mul_lt_mul_of_pos_right hseconds.below hscale
    rw [Int.neg_mul, hticks] at habove
    rw [hticks] at hbelow
    exact ⟨habove, hbelow⟩

theorem splits_whole (hunit : durationUnitScale value.unit = factor * durationUnitScale .hour)
    (hfactor : 0 < factor) : Splits value ⟨value.count * factor, 0, 0, 0⟩ where
  total := by
    dsimp only
    rw [nanoseconds, hunit, durationUnitScale]
    ring
  nonneg hsign := ⟨Int.mul_nonneg hsign hfactor.le, le_rfl, le_rfl, le_rfl⟩
  nonpos hsign := ⟨Int.mul_nonpos_of_nonpos_of_nonneg hsign hfactor.le, le_rfl, le_rfl, le_rfl⟩
  minutes := show -60 < (0 : Int) ∧ (0 : Int) < 60 by decide
  seconds := show -60 < (0 : Int) ∧ (0 : Int) < 60 by decide
  subseconds := by
    dsimp only
    rw [Int.zero_mul]
    decide

theorem splits_minutes (hunit : value.unit = .minute) :
    Splits value ⟨value.count.tdiv 60, value.count.tmod 60, 0, 0⟩ := by
  obtain ⟨hsplit, hnonneg, hnonpos, habove, hbelow⟩ :=
    truncated_tdiv (show 0 < 60 by decide) value.count
  have hnanoseconds : nanoseconds value = value.count * 60000000000 := by
    rw [nanoseconds, hunit]
    rfl
  generalize value.count.tdiv 60 = hours at *
  generalize value.count.tmod 60 = minutes at *
  constructor <;> dsimp only <;> omega

theorem splits_seconds (hunit : value.unit = .second) :
    Splits value ⟨value.count.tdiv 3600, (value.count.tmod 3600).tdiv 60,
      (value.count.tmod 3600).tmod 60, 0⟩ := by
  obtain ⟨hsplit, hnonneg, hnonpos, habove, hbelow⟩ :=
    truncated_tdiv (show 0 < 3600 by decide) value.count
  have hnanoseconds : nanoseconds value = value.count * 1000000000 := by
    rw [nanoseconds, hunit]
    rfl
  generalize value.count.tdiv 3600 = hours at *
  generalize value.count.tmod 3600 = remainder at *
  obtain ⟨hsplit', hnonneg', hnonpos', habove', hbelow'⟩ :=
    truncated_tdiv (show 0 < 60 by decide) remainder
  generalize remainder.tdiv 60 = minutes at *
  generalize remainder.tmod 60 = seconds at *
  constructor <;> dsimp only <;> omega

theorem Splits.hours_eq (h : Splits value parts) :
    (nanoseconds value).tdiv (durationUnitScale .hour) = parts.hours := by
  obtain ⟨htotal, hnonneg, hnonpos, hminutes, hseconds, hsubseconds⟩ := h
  have hscale := scale_pos value.unit
  have hsign := nanoseconds_nonneg value
  have hsign' := nanoseconds_pos value
  have hrest : Truncated (nanoseconds value) (durationUnitScale .hour) parts.hours
      ((parts.minutes * 60 + parts.seconds) * 1000000000 +
        parts.subseconds * durationUnitScale value.unit) := by
    have hpositive : 0 ≤ parts.subseconds → 0 ≤ parts.subseconds * durationUnitScale value.unit :=
      fun h => Int.mul_nonneg h hscale.le
    have hnegative : parts.subseconds ≤ 0 → parts.subseconds * durationUnitScale value.unit ≤ 0 :=
      fun h => Int.mul_nonpos_of_nonpos_of_nonneg h hscale.le
    generalize parts.subseconds * durationUnitScale value.unit = subseconds at *
    rw [durationUnitScale]
    constructor <;> omega
  exact hrest.tdiv_eq (scale_pos .hour)

theorem signedParts_spec (hcount : Fits 64 value.count) :
    (signedParts value = some none ∧ ¬ Fits 64 ((nanoseconds value).tdiv (durationUnitScale .hour))) ∨
    ∃ parts, signedParts value = some (some parts) ∧ Fits 64 parts.hours ∧ Splits value parts := by
  have hwhole : ∀ factor, 0 < factor →
      durationUnitScale value.unit = factor * durationUnitScale .hour →
      signedParts value = wholeHours value.count factor →
      (signedParts value = some none ∧ ¬ Fits 64 ((nanoseconds value).tdiv (durationUnitScale .hour))) ∨
      ∃ parts, signedParts value = some (some parts) ∧ Fits 64 parts.hours ∧
        Splits value parts := by
    intro factor hfactor hunit hparts
    have hsplits := splits_whole hunit hfactor
    rw [hparts, wholeHours_eq hfactor, hsplits.hours_eq]
    by_cases hfits : Fits 64 (value.count * factor)
    · rw [if_pos hfits]
      exact .inr ⟨_, rfl, hfits, hsplits⟩
    · rw [if_neg hfits]
      exact .inl ⟨rfl, hfits⟩
  have hsubseconds : ∀ ticks, ticks * durationUnitScale value.unit = 1000000000 →
      signedParts value = subsecondParts value.count (durationUnitScale value.unit) →
      ∃ parts, signedParts value = some (some parts) ∧ Fits 64 parts.hours ∧
        Splits value parts := by
    intro ticks hticks hparts
    have hpos : 0 < ticks := (pos_iff_pos_of_mul_pos (by omega)).mpr (scale_pos value.unit)
    rw [hparts, subsecondParts_eq (scale_pos value.unit) hticks hcount]
    exact ⟨_, rfl, tdiv_fits (by omega) hcount, splits_subseconds hticks⟩
  cases hunit : value.unit with
  | week => exact hwhole 168 (by decide) (by rw [hunit]; rfl) (by rw [signedParts, hunit]; rfl)
  | day => exact hwhole 24 (by decide) (by rw [hunit]; rfl) (by rw [signedParts, hunit]; rfl)
  | hour =>
    have hsplits := @splits_whole value 1 (by rw [hunit]; rfl) (by decide)
    rw [Int.mul_one] at hsplits
    exact .inr ⟨_, by rw [signedParts, hunit]; rfl, hcount, hsplits⟩
  | minute =>
    refine .inr ⟨_, ?_, tdiv_fits (by decide) hcount, splits_minutes hunit⟩
    rw [signedParts, hunit, quot_eq (by decide) hcount, rem_eq (by decide) hcount]
    rfl
  | second =>
    have hremainder := @tmod_fits 64 value.count 3600 (by decide) hcount
    refine .inr ⟨_, ?_, tdiv_fits (by decide) hcount, splits_seconds hunit⟩
    rw [signedParts, hunit, if_neg (by decide), if_neg (by decide), if_neg (by decide),
      if_neg (by decide), if_pos rfl, quot_eq (by decide) hcount, rem_eq (by decide) hcount]
    simp only [bind_eq_bind, bind_some]
    rw [quot_eq (by decide) hremainder, rem_eq (by decide) hremainder]
    rfl
  | millisecond => exact .inr (hsubseconds 1000 (by rw [hunit]; rfl) (by rw [signedParts, hunit]; rfl))
  | microsecond =>
    exact .inr (hsubseconds 1000000 (by rw [hunit]; rfl) (by rw [signedParts, hunit]; rfl))
  | nanosecond =>
    exact .inr (hsubseconds 1000000000 (by rw [hunit]; rfl) (by rw [signedParts, hunit]; rfl))

structure Decomposes (value : Duration) (parts : HhMmSs) : Prop where
  nonneg : 0 ≤ parts.hours ∧ 0 ≤ parts.minutes ∧ 0 ≤ parts.seconds ∧ 0 ≤ parts.subseconds.count
  hours : Fits 64 parts.hours
  minutes : parts.minutes < 60
  seconds : parts.seconds < 60
  subseconds : nanoseconds parts.subseconds < durationUnitScale .second
  unit : parts.subseconds.unit = value.unit
  negative : parts.isNegative = true ↔ value.count < 0
  total : (if parts.isNegative then -1 else 1) *
    ((parts.hours * 3600 + parts.minutes * 60 + parts.seconds) * durationUnitScale .second +
      nanoseconds parts.subseconds) = nanoseconds value

theorem subseconds_fit (hscale : 0 < scale) {n : Int} (hlow : -1000000000 < n * scale)
    (hhigh : n * scale < 1000000000) : -1000000000 < n ∧ n < 1000000000 := by
  constructor
  · by_contra hle
    have hmul : n * scale ≤ n * 1 := Int.mul_le_mul_of_nonpos_left (by omega) hscale
    omega
  · by_contra hge
    have hmul : n * 1 ≤ n * scale := Int.mul_le_mul_of_nonneg_left hscale (by omega)
    omega

theorem Splits.negated_eq (h : Splits value parts) (hhours : Fits 64 parts.hours)
    (hne : parts.hours ≠ minimum) :
    parts.negated = some ⟨-parts.hours, -parts.minutes, -parts.seconds, -parts.subseconds⟩ := by
  obtain ⟨-, -, -, hminutes, hseconds, hsubseconds⟩ := h
  have hbound := subseconds_fit (scale_pos value.unit) hsubseconds.1 hsubseconds.2
  rw [fits_iff] at hhours
  have hfits : ∀ n, minimum < n → n ≤ maximum → sub 64 0 n = some (-n) := by
    intro n hlow hhigh
    rw [minimum] at hlow
    rw [maximum] at hhigh
    rw [sub_eq ⟨by omega, by omega⟩, Int.zero_sub]
  have hsmall : ∀ n : Int, -1000000000 < n ∧ n < 1000000000 → sub 64 0 n = some (-n) :=
    fun n hn => hfits n (by rw [minimum]; omega) (by rw [maximum]; omega)
  rw [SignedParts.negated, hfits _ (by omega) hhours.2, hsmall _ (by omega), hsmall _ (by omega),
    hsmall _ hbound]
  rfl

theorem makeHhMmSs_of_splits (hparts : signedParts value = some (some parts))
    (h : Splits value parts) (hhours : Fits 64 parts.hours) (hne : parts.hours ≠ minimum) :
    ∃ result, makeHhMmSs value = some (some result) ∧ Decomposes value result := by
  have hscale := scale_pos value.unit
  rw [makeHhMmSs, if_neg hscale.ne', hparts]
  simp only [bind_eq_bind, bind_some]
  rw [if_neg hne]
  by_cases hsign : value.count < 0
  · rw [decide_eq_true hsign, if_pos rfl, h.negated_eq hhours hne]
    refine ⟨_, rfl, ?_⟩
    obtain ⟨htotal, -, hnonpos, hminutes, hseconds, hsubseconds⟩ := h
    have hsigns := hnonpos hsign.le
    rw [fits_iff, minimum, maximum] at hhours
    rw [minimum] at hne
    rw [i32_of_range (by dsimp only; omega), i32_of_range (by dsimp only; omega)]
    have hnegated : nanoseconds ⟨-parts.subseconds, value.unit⟩ =
        -(parts.subseconds * durationUnitScale value.unit) := by
      rw [nanoseconds, Int.neg_mul]
    generalize parts.subseconds * durationUnitScale value.unit = subseconds at *
    refine ⟨by dsimp only; omega, ⟨by dsimp only; omega, by dsimp only; omega⟩,
      by dsimp only; omega, by dsimp only; omega, ?_, rfl, by simpa using hsign, ?_⟩
    · rw [hnegated, durationUnitScale]
      omega
    · rw [hnegated, if_pos rfl, durationUnitScale]
      dsimp only
      omega
  · rw [decide_eq_false hsign, if_neg (by decide)]
    refine ⟨_, rfl, ?_⟩
    obtain ⟨htotal, hnonneg, -, hminutes, hseconds, hsubseconds⟩ := h
    have hsigns := hnonneg (not_lt.mp hsign)
    rw [i32_of_range (by omega), i32_of_range (by omega)]
    have hkept : nanoseconds ⟨parts.subseconds, value.unit⟩ =
        parts.subseconds * durationUnitScale value.unit := rfl
    generalize parts.subseconds * durationUnitScale value.unit = subseconds at *
    refine ⟨hsigns, hhours, hminutes.2, hseconds.2, ?_, rfl, by simpa using hsign, ?_⟩
    · rw [hkept, durationUnitScale]
      omega
    · dsimp only
      rw [hkept, if_neg (by decide), durationUnitScale]
      omega

theorem abs_hours (n : Int) :
    |n| / durationUnitScale .hour = |n.tdiv (durationUnitScale .hour)| := by
  have hpos : 0 ≤ durationUnitScale .hour := (scale_pos .hour).le
  rcases le_total 0 n with hsign | hsign
  · rw [abs_of_nonneg hsign, abs_of_nonneg (Int.tdiv_nonneg hsign hpos),
      Int.tdiv_eq_ediv_of_nonneg hsign]
  · have hneg : 0 ≤ -n := by omega
    have hquot := Int.tdiv_nonneg hneg hpos
    rw [Int.neg_tdiv] at hquot
    rw [abs_of_nonpos hsign, abs_of_nonpos (by omega), ← Int.neg_tdiv, Int.tdiv_eq_ediv_of_nonneg hneg]

/-- A duration has its parts exactly where the hours are not too many. -/
theorem makeHhMmSs_exact (value : Duration) (hcount : Fits 64 value.count) :
    (makeHhMmSs value = some none ↔ ¬ Fits 64 (|nanoseconds value| / durationUnitScale .hour)) ∧
    (Fits 64 (|nanoseconds value| / durationUnitScale .hour) →
      ∃ parts, makeHhMmSs value = some (some parts) ∧ Decomposes value parts) := by
  have hscale := scale_pos value.unit
  rw [abs_hours]
  rcases signedParts_spec hcount with ⟨hnone, hexceeds⟩ | ⟨parts, hparts, hhours, hsplits⟩
  · have hresult : makeHhMmSs value = some none := by
      rw [makeHhMmSs, if_neg hscale.ne', hnone]
      rfl
    have habs : ¬ Fits 64 |(nanoseconds value).tdiv (durationUnitScale .hour)| := by
      rw [Fits] at hexceeds ⊢
      rcases abs_cases ((nanoseconds value).tdiv (durationUnitScale .hour)) with h | h <;> omega
    exact ⟨⟨fun _ => habs, fun _ => hresult⟩, fun h => absurd h habs⟩
  · rw [hsplits.hours_eq]
    by_cases hne : parts.hours = minimum
    · have hresult : makeHhMmSs value = some none := by
        rw [makeHhMmSs, if_neg hscale.ne', hparts]
        simp only [bind_eq_bind, bind_some]
        rw [if_pos hne]
        rfl
      have habs : ¬ Fits 64 |parts.hours| := by
        rw [hne]
        decide
      exact ⟨⟨fun _ => habs, fun _ => hresult⟩, fun h => absurd h habs⟩
    · obtain ⟨result, hresult, hdecomposes⟩ := makeHhMmSs_of_splits hparts hsplits hhours hne
      have habs : Fits 64 |parts.hours| := by
        rw [minimum] at hne
        rw [Fits] at hhours ⊢
        rcases abs_cases parts.hours with h | h <;> omega
      refine ⟨⟨fun h => ?_, fun h => absurd habs h⟩, fun _ => ⟨result, hresult, hdecomposes⟩⟩
      rw [hresult] at h
      exact absurd h (by simp)

/-- The shortest duration in hours has no parts, and that in nanoseconds has. -/
theorem shortest_parts :
    makeHhMmSs ⟨minimum, .hour⟩ = some none ∧
      ∃ parts, makeHhMmSs ⟨minimum, .nanosecond⟩ = some (some parts) ∧
        Decomposes ⟨minimum, .nanosecond⟩ parts :=
  ⟨(makeHhMmSs_exact ⟨minimum, .hour⟩ (by decide)).1.mpr (by decide),
    (makeHhMmSs_exact ⟨minimum, .nanosecond⟩ (by decide)).2 (by decide)⟩

end Mlang.Durations
