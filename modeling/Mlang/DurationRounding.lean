import Mlang.Durations

namespace Mlang.DurationRounding

open CheckedIntegers Durations Option

def durationCast (value : Duration) (unit : DurationUnit) : Checked (Option Duration) := do
  let sourceScale := durationUnitScale value.unit
  let targetScale := durationUnitScale unit
  if sourceScale = 0 ∨ targetScale = 0 then pure none
  else if sourceScale > targetScale then do
    let remainder ← rem 64 sourceScale targetScale
    if remainder ≠ 0 then pure none
    else do
      let multiplier ← quot 64 sourceScale targetScale
      if ← exceedsProduct value.count multiplier then pure none
      else do
        let converted ← mul 64 value.count multiplier
        pure (some ⟨converted, unit⟩)
  else if sourceScale < targetScale then do
    let remainder ← rem 64 targetScale sourceScale
    if remainder ≠ 0 then pure none
    else do
      let divisor ← quot 64 targetScale sourceScale
      let converted ← quot 64 value.count divisor
      pure (some ⟨converted, unit⟩)
  else pure (some ⟨value.count, unit⟩)

def represent (n : Int) (unit : DurationUnit) : Option Duration :=
  if Fits 64 n then some ⟨n, unit⟩ else none

def inUnit (value : Duration) (unit : DurationUnit) : ℚ :=
  nanoseconds value / durationUnitScale unit

variable {value : Duration} {unit : DurationUnit}

theorem nanoseconds_coarse (h : durationUnitScale unit ≤ durationUnitScale value.unit) :
    nanoseconds value = value.count * ratio value.unit unit * durationUnitScale unit := by
  rw [nanoseconds, Int.mul_assoc, (ratio_spec value.unit unit h).2.2.1]

theorem tdiv_coarse (h : durationUnitScale unit ≤ durationUnitScale value.unit) :
    (nanoseconds value).tdiv (durationUnitScale unit) = value.count * ratio value.unit unit := by
  rw [nanoseconds_coarse h, Int.mul_tdiv_cancel _ (scale_pos unit).ne']

theorem tdiv_fine (h : durationUnitScale value.unit ≤ durationUnitScale unit) :
    (nanoseconds value).tdiv (durationUnitScale unit) = value.count.tdiv (ratio unit value.unit) := by
  rw [nanoseconds, ← (ratio_spec unit value.unit h).2.2.1,
    Int.mul_tdiv_mul_of_pos_left _ _ (scale_pos value.unit)]

theorem durationCast_eq (hcount : Fits 64 value.count) :
    durationCast value unit =
      some (represent ((nanoseconds value).tdiv (durationUnitScale unit)) unit) := by
  have hsource := scale_pos value.unit
  have htarget := scale_pos unit
  rw [durationCast, if_neg (by omega)]
  rcases lt_trichotomy (durationUnitScale value.unit) (durationUnitScale unit) with
    hlt | heq | hgt
  · obtain ⟨hquot, hrem, -, hpos, -⟩ := ratio_spec unit value.unit hlt.le
    rw [if_neg (lt_asymm hlt), if_pos hlt, hrem, hquot, tdiv_fine hlt.le, represent,
      if_pos (tdiv_fits hpos hcount)]
    simp only [bind_eq_bind, bind_some]
    rw [if_neg (not_not_intro rfl), quot_eq hpos hcount]
    rfl
  · rw [if_neg heq.not_gt, if_neg heq.not_lt, nanoseconds, heq,
      Int.mul_tdiv_cancel _ htarget.ne', represent, if_pos hcount]
    rfl
  · obtain ⟨hquot, hrem, -, hpos, -⟩ := ratio_spec value.unit unit hgt.le
    rw [if_pos hgt, hrem, hquot, tdiv_coarse hgt.le, represent]
    simp only [bind_eq_bind, bind_some]
    rw [if_neg (not_not_intro rfl), exceedsProduct_eq hpos, bind_some]
    simp only [decide_eq_true_eq]
    by_cases hfits : Fits 64 (value.count * ratio value.unit unit)
    · rw [if_neg (not_not_intro hfits), if_pos hfits, mul_eq hfits]
      rfl
    · rw [if_pos hfits, if_neg hfits]
      rfl

theorem inUnit_coarse (h : durationUnitScale unit ≤ durationUnitScale value.unit) :
    inUnit value unit = (value.count * ratio value.unit unit : ℤ) := by
  have hpos : (durationUnitScale unit : ℚ) ≠ 0 := by exact_mod_cast (scale_pos unit).ne'
  rw [inUnit, nanoseconds_coarse h, Int.cast_mul, mul_div_cancel_right₀ _ hpos]

theorem inUnit_fine (h : durationUnitScale value.unit ≤ durationUnitScale unit) :
    inUnit value unit = (value.count : ℚ) / (ratio unit value.unit : ℤ) := by
  have hpos : (durationUnitScale value.unit : ℚ) ≠ 0 := by exact_mod_cast (scale_pos value.unit).ne'
  rw [inUnit, nanoseconds, ← (ratio_spec unit value.unit h).2.2.1, Int.cast_mul, Int.cast_mul,
    mul_div_mul_right _ _ hpos]

def lowered (count : Int) : Checked (Option Int) :=
  if count = minimum then pure none else (sub 64 count 1).map some

def raised (count : Int) : Checked (Option Int) :=
  if count = maximum then pure none else (add 64 count 1).map some

def floorCorrection (count divisor truncated : Int) : Checked (Option Int) := do
  let remainder ← rem 64 count divisor
  if remainder < 0 then lowered truncated else pure (some truncated)

def ceilCorrection (count divisor truncated : Int) : Checked (Option Int) := do
  let remainder ← rem 64 count divisor
  if remainder > 0 then raised truncated else pure (some truncated)

def withoutSign (remainder : Int) : Checked Int :=
  if remainder < 0 then sub 64 0 remainder else pure remainder

def roundAway (twiceRemainder divisor truncated : Int) : Checked Bool :=
  if twiceRemainder > divisor then pure true
  else if twiceRemainder = divisor then
    (rem 64 truncated 2).map fun parity => decide (parity ≠ 0)
  else pure false

def roundCorrection (count divisor truncated : Int) : Checked (Option Int) := do
  let remainder ← rem 64 count divisor
  let remainder ← withoutSign remainder
  let twiceRemainder ← mul 64 remainder 2
  if !(← roundAway twiceRemainder divisor truncated) then pure (some truncated)
  else if count > 0 then raised truncated
  else if count < 0 then lowered truncated
  else pure (some truncated)

def corrected (correction : Int → Int → Int → Checked (Option Int)) (value : Duration)
    (unit : DurationUnit) : Checked (Option Duration) := do
  match ← durationCast value unit with
  | none => pure none
  | some result =>
    let sourceScale := durationUnitScale value.unit
    let targetScale := durationUnitScale unit
    if sourceScale ≥ targetScale then pure (some result)
    else do
      let divisor ← quot 64 targetScale sourceScale
      let count ← correction value.count divisor result.count
      pure (count.map fun count => { result with count := count })

def durationFloor : Duration → DurationUnit → Checked (Option Duration) :=
  corrected floorCorrection

def durationCeil : Duration → DurationUnit → Checked (Option Duration) :=
  corrected ceilCorrection

def durationRound : Duration → DurationUnit → Checked (Option Duration) :=
  corrected roundCorrection

variable {n count divisor : Int}

def kept (n : Int) : Option Int := if Fits 64 n then some n else none

theorem lowered_eq (h : Fits 64 n) : lowered n = some (kept (n - 1)) := by
  rw [lowered, kept]
  by_cases hmin : n = minimum
  · rw [if_pos hmin, hmin, if_neg (by decide)]
    rfl
  · rw [fits_iff] at h
    have hfits : Fits 64 (n - 1) := fits_iff.mpr ⟨by omega, by omega⟩
    rw [if_neg hmin, if_pos hfits, sub_eq hfits]
    rfl

theorem raised_eq (h : Fits 64 n) : raised n = some (kept (n + 1)) := by
  rw [raised, kept]
  by_cases hmax : n = maximum
  · rw [if_pos hmax, hmax, if_neg (by decide)]
    rfl
  · rw [fits_iff] at h
    have hfits : Fits 64 (n + 1) := fits_iff.mpr ⟨by omega, by omega⟩
    rw [if_neg hmax, if_pos hfits, add_eq hfits]
    rfl

/-- What a correction is to give. -/
def Corrects (correction : Int → Int → Int → Checked (Option Int)) (rounded : ℚ → ℤ → Prop) :
    Prop :=
  ∀ count divisor : Int, 0 < divisor → divisor < 2 ^ 50 → Fits 64 count →
    ∃ n, rounded ((count : ℚ) / divisor) n ∧
      correction count divisor (count.tdiv divisor) = some (kept n)

theorem corrected_eq {correction : Int → Int → Int → Checked (Option Int)} {rounded : ℚ → ℤ → Prop}
    (hwhole : ∀ n : ℤ, rounded n n) (hcorrects : Corrects correction rounded)
    (hcount : Fits 64 value.count) :
    ∃ n, rounded (inUnit value unit) n ∧ corrected correction value unit = some (represent n unit) := by
  rw [corrected, durationCast_eq hcount]
  simp only [bind_eq_bind, bind_some]
  rcases le_or_gt (durationUnitScale unit) (durationUnitScale value.unit) with hle | hlt
  · refine ⟨value.count * ratio value.unit unit, ?_, ?_⟩
    · rw [inUnit_coarse hle]
      exact hwhole _
    · rw [tdiv_coarse hle, represent]
      by_cases hfits : Fits 64 (value.count * ratio value.unit unit)
      · rw [if_pos hfits]
        exact if_pos hle
      · rw [if_neg hfits]
        rfl
  · obtain ⟨hquot, -, -, hpos, hbound⟩ := ratio_spec unit value.unit hlt.le
    obtain ⟨n, hrounded, hcorrection⟩ := hcorrects value.count _ hpos hbound hcount
    refine ⟨n, ?_, ?_⟩
    · rw [inUnit_fine hlt.le]
      exact hrounded
    · rw [tdiv_fine hlt.le, represent, if_pos (tdiv_fits hpos hcount)]
      dsimp only
      rw [if_neg (not_le_of_gt hlt), hquot, bind_some, hcorrection, bind_some, kept, represent]
      split_ifs <;> rfl

theorem corrects_floor : Corrects floorCorrection fun q n => n = ⌊q⌋ := by
  intro count divisor hpos _ hcount
  have hfits := tdiv_fits hpos hcount
  obtain ⟨hsplit, -, -, habove, hbelow⟩ := truncated_tdiv hpos count
  refine ⟨_, rfl, ?_⟩
  rw [floorCorrection, rem_eq hpos hcount]
  simp only [bind_eq_bind, bind_some]
  generalize count.tdiv divisor = q at *
  generalize count.tmod divisor = m at *
  by_cases hneg : m < 0
  · have hfloor : ⌊(count : ℚ) / divisor⌋ = q - 1 :=
      floor_quotient hpos (by rw [Int.sub_mul]; omega) (by rw [Int.sub_add_cancel]; omega)
    rw [if_pos hneg, lowered_eq hfits, hfloor]
  · have hfloor : ⌊(count : ℚ) / divisor⌋ = q :=
      floor_quotient hpos (by omega) (by rw [Int.add_mul]; omega)
    rw [if_neg hneg, hfloor, kept, if_pos hfits]
    rfl

theorem corrects_ceil : Corrects ceilCorrection fun q n => n = ⌈q⌉ := by
  intro count divisor hpos _ hcount
  have hfits := tdiv_fits hpos hcount
  obtain ⟨hsplit, -, -, habove, hbelow⟩ := truncated_tdiv hpos count
  refine ⟨_, rfl, ?_⟩
  rw [ceilCorrection, rem_eq hpos hcount]
  simp only [bind_eq_bind, bind_some]
  generalize count.tdiv divisor = q at *
  generalize count.tmod divisor = m at *
  by_cases hgt : m > 0
  · have hceil : ⌈(count : ℚ) / divisor⌉ = q + 1 :=
      ceil_quotient hpos (by rw [Int.add_sub_cancel]; omega) (by rw [Int.add_mul]; omega)
    rw [if_pos hgt, raised_eq hfits, hceil]
  · have hceil : ⌈(count : ℚ) / divisor⌉ = q :=
      ceil_quotient hpos (by rw [Int.sub_mul]; omega) (by omega)
    rw [if_neg hgt, hceil, kept, if_pos hfits]
    rfl

theorem withoutSign_eq {m : Int} (hlow : -divisor < m) (hbound : divisor < 2 ^ 50) :
    withoutSign m = some |m| := by
  rw [withoutSign]
  by_cases hneg : m < 0
  · rw [if_pos hneg, sub_eq ⟨by omega, by omega⟩, abs_of_neg hneg, Int.zero_sub]
  · rw [if_neg hneg, abs_of_nonneg (not_lt.mp hneg)]
    rfl

theorem roundAway_eq {q twice : Int} (hq : Fits 64 q) :
    roundAway twice divisor q = some (decide (divisor < twice ∨ twice = divisor ∧ ¬ Even q)) := by
  have hparity : ((rem 64 q 2).map fun parity => decide (parity ≠ 0)) =
      some (decide (¬ Even q)) := by
    obtain ⟨hsplit, -, -, habove, hbelow⟩ := truncated_tdiv (show 0 < 2 by decide) q
    have hiff : q.tmod 2 ≠ 0 ↔ ¬ Even q := by
      rw [Int.even_iff]
      omega
    rw [rem_eq (by decide) hq, map_some, decide_eq_decide.mpr hiff]
  rw [roundAway, hparity]
  rcases lt_trichotomy twice divisor with hlt | rfl | hgt
  · rw [if_neg (lt_asymm hlt), if_neg hlt.ne, decide_eq_false (by omega)]
    rfl
  · have hiff : ¬ Even q ↔ twice < twice ∨ twice = twice ∧ ¬ Even q := by simp
    rw [if_neg (lt_irrefl twice), if_pos rfl, decide_eq_decide.mpr hiff]
  · rw [if_pos hgt, decide_eq_true (Or.inl hgt)]
    rfl

theorem corrects_round : Corrects roundCorrection NearestEven := by
  intro count divisor hpos hbound hcount
  have hfits := tdiv_fits hpos hcount
  obtain ⟨hsplit, hnonneg, hnonpos, habove, hbelow⟩ := truncated_tdiv hpos count
  rw [roundCorrection, rem_eq hpos hcount]
  simp only [bind_eq_bind, bind_some]
  generalize count.tdiv divisor = q at *
  generalize count.tmod divisor = m at *
  have hdistance : count - q * divisor = m := by omega
  have habs : |m| < divisor := abs_lt.mpr ⟨habove, hbelow⟩
  have habsNonneg : 0 ≤ |m| := abs_nonneg m
  rw [withoutSign_eq habove hbound, bind_some, mul_eq ⟨by omega, by omega⟩,
    bind_some, roundAway_eq hfits, bind_some]
  by_cases haway : divisor < |m| * 2 ∨ |m| * 2 = divisor ∧ ¬ Even q
  · rw [decide_eq_true haway, if_neg (by decide)]
    rcases lt_trichotomy count 0 with hneg | rfl | hgt
    · have hm : |m| = -m := abs_of_nonpos (hnonpos hneg.le).1
      have hnext : |count - (q - 1) * divisor| = divisor - |m| := by
        rw [Int.sub_mul, Int.one_mul, abs_of_nonneg (by omega)]
        omega
      rw [if_neg (lt_asymm hneg), if_pos hneg, lowered_eq hfits]
      refine ⟨_, nearestEven_quotient hpos ?_ fun hhalf => ?_, rfl⟩
      · omega
      · rw [hnext] at hhalf
        have hodd : ¬ Even q := (haway.resolve_left (by omega)).2
        rw [Int.even_iff] at hodd ⊢
        omega
    · -- a zero leaves no remainder
      have hzero : m = 0 := le_antisymm (hnonpos le_rfl).1 (hnonneg le_rfl).1
      rw [hzero, abs_zero] at haway
      omega
    · have hm : |m| = m := abs_of_nonneg (hnonneg hgt.le).1
      have hnext : |count - (q + 1) * divisor| = divisor - |m| := by
        rw [Int.add_mul, Int.one_mul, abs_of_nonpos (by omega)]
        omega
      rw [if_pos hgt, raised_eq hfits]
      refine ⟨_, nearestEven_quotient hpos ?_ fun hhalf => ?_, rfl⟩
      · omega
      · rw [hnext] at hhalf
        have hodd : ¬ Even q := (haway.resolve_left (by omega)).2
        rw [Int.even_iff] at hodd ⊢
        omega
  · rw [decide_eq_false haway, if_pos (by decide)]
    refine ⟨q, nearestEven_quotient hpos ?_ fun hhalf => ?_, by rw [kept, if_pos hfits]; rfl⟩
    · rw [hdistance]
      omega
    · rw [hdistance] at hhalf
      by_contra hodd
      exact haway (.inr ⟨by omega, hodd⟩)

/-- Every rounding gives the integer that it stands for, or nothing where the type lacks it. -/
theorem durationRounding_exact (value : Duration) (unit : DurationUnit) (hcount : Fits 64 value.count) :
    durationCast value unit = some (represent (truncate (inUnit value unit)) unit) ∧
      durationFloor value unit = some (represent ⌊inUnit value unit⌋ unit) ∧
      durationCeil value unit = some (represent ⌈inUnit value unit⌉ unit) ∧
      ∃ n, NearestEven (inUnit value unit) n ∧ (∀ m, NearestEven (inUnit value unit) m → m = n) ∧
        durationRound value unit = some (represent n unit) := by
  refine ⟨?_, ?_, ?_, ?_⟩
  · rw [durationCast_eq hcount, inUnit, truncate_quotient (scale_pos unit)]
  · obtain ⟨n, hn, hresult⟩ := @corrected_eq value unit _ _
      (fun n => (Int.floor_intCast n).symm) corrects_floor hcount
    rw [durationFloor, hresult, hn]
  · obtain ⟨n, hn, hresult⟩ := @corrected_eq value unit _ _
      (fun n => (Int.ceil_intCast n).symm) corrects_ceil hcount
    rw [durationCeil, hresult, hn]
  · obtain ⟨n, hn, hresult⟩ := @corrected_eq value unit _ _ nearestEven_intCast corrects_round hcount
    exact ⟨n, hn, fun m hm => hm.unique hn, hresult⟩

/-- Half a minute before the epoch, in minutes. -/
theorem half_minute_rounds :
    ∃ n, NearestEven (inUnit ⟨-30, .second⟩ .minute) n ∧
      (∀ m, NearestEven (inUnit ⟨-30, .second⟩ .minute) m → m = n) ∧
      durationRound ⟨-30, .second⟩ .minute = some (represent n .minute) :=
  (durationRounding_exact ⟨-30, .second⟩ .minute (by decide)).2.2.2

end Mlang.DurationRounding
