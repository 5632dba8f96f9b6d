import Mlang.DurationRounding

namespace Mlang.TimePoints

open CheckedIntegers Durations DurationRounding Option

def exceedsSum : Int → Int → Checked Bool := exceeds 64 minimum maximum

def exceedsDifference (a b : Int) : Checked Bool := do
  if b > 0 then
    let limit ← add 64 minimum b
    pure (decide (a < limit))
  else if b < 0 then
    let limit ← add 64 maximum b
    pure (decide (a > limit))
  else pure false

def combined (exceeds : Int → Int → Checked Bool) (combine : Int → Int → Checked Int)
    (left right : Duration) (unit : DurationUnit) : Checked (Option Duration) := do
  let convertedLeft ← durationCast left unit
  let convertedRight ← durationCast right unit
  match convertedLeft, convertedRight with
  | some left, some right =>
    if ← exceeds left.count right.count then pure none
    else do
      let count ← combine left.count right.count
      pure (some ⟨count, unit⟩)
  | _, _ => pure none

def durationAdd : Duration → Duration → DurationUnit → Checked (Option Duration) :=
  combined exceedsSum (add 64)

def durationSubtract : Duration → Duration → DurationUnit → Checked (Option Duration) :=
  combined exceedsDifference (sub 64)

def whole (value : Duration) (unit : DurationUnit) : Int :=
  (nanoseconds value).tdiv (durationUnitScale unit)

variable {a b : Int} {left right : Duration} {unit : DurationUnit}

theorem exceedsSum_eq (ha : Fits 64 a) (hb : Fits 64 b) :
    exceedsSum a b = some (decide (¬ Fits 64 (a + b))) := by
  rw [decide_eq_decide.mpr (not_congr fits_iff)]
  exact exceeds_eq (by decide) (by decide) (by decide) (by decide) (fits_iff.mp ha) hb

theorem exceedsDifference_eq (ha : Fits 64 a) (hb : Fits 64 b) :
    exceedsDifference a b = some (decide (¬ Fits 64 (a - b))) := by
  rw [exceedsDifference]
  rw [fits_iff] at ha hb
  have hmaximum : maximum = 9223372036854775807 := rfl
  have hminimum : minimum = -9223372036854775808 := rfl
  rcases lt_trichotomy b 0 with hneg | rfl | hpos
  · have hlimit : add 64 maximum b = some (maximum + b) := add_eq (by rw [fits_iff]; omega)
    have hiff : a > maximum + b ↔ ¬ Fits 64 (a - b) := by
      rw [fits_iff]
      omega
    rw [if_neg (lt_asymm hneg), if_pos hneg, hlimit, ← decide_eq_decide.mpr hiff]
    rfl
  · have hfits : Fits 64 (a - 0) := by
      rw [fits_iff]
      omega
    rw [if_neg (lt_irrefl 0), if_neg (lt_irrefl 0), decide_eq_false (not_not_intro hfits)]
    rfl
  · have hlimit : add 64 minimum b = some (minimum + b) := add_eq (by rw [fits_iff]; omega)
    have hiff : a < minimum + b ↔ ¬ Fits 64 (a - b) := by
      rw [fits_iff]
      omega
    rw [if_pos hpos, hlimit, ← decide_eq_decide.mpr hiff]
    rfl

theorem combined_eq {exceeds : Int → Int → Checked Bool} {combine : Int → Int → Checked Int}
    {op : Int → Int → Int}
    (hexceeds : ∀ a b, Fits 64 a → Fits 64 b → exceeds a b = some (decide (¬ Fits 64 (op a b))))
    (hcombine : ∀ a b, Fits 64 (op a b) → combine a b = some (op a b))
    (hleft : Fits 64 left.count) (hright : Fits 64 right.count) :
    combined exceeds combine left right unit =
      some (if Fits 64 (whole left unit) ∧ Fits 64 (whole right unit) then
        represent (op (whole left unit) (whole right unit)) unit else none) := by
  rw [combined, durationCast_eq hleft, durationCast_eq hright, ← whole, ← whole, represent, represent]
  simp only [bind_eq_bind, bind_some]
  by_cases hl : Fits 64 (whole left unit)
  · by_cases hr : Fits 64 (whole right unit)
    · rw [if_pos hl, if_pos hr, if_pos ⟨hl, hr⟩, represent]
      dsimp only
      rw [hexceeds _ _ hl hr, bind_some]
      by_cases hfits : Fits 64 (op (whole left unit) (whole right unit))
      · rw [decide_eq_false (not_not_intro hfits), if_neg (by decide), if_pos hfits, hcombine _ _ hfits]
        rfl
      · rw [decide_eq_true hfits, if_pos rfl, if_neg hfits]
        rfl
    · have hnot : ¬ (Fits 64 (whole left unit) ∧ Fits 64 (whole right unit)) := fun h => hr h.2
      rw [if_pos hl, if_neg hr, if_neg hnot]
      rfl
  · have hnot : ¬ (Fits 64 (whole left unit) ∧ Fits 64 (whole right unit)) := fun h => hl h.1
    rw [if_neg hl, if_neg hnot]
    split_ifs <;> rfl

theorem durationAdd_eq (hleft : Fits 64 left.count) (hright : Fits 64 right.count) :
    durationAdd left right unit =
      some (if Fits 64 (whole left unit) ∧ Fits 64 (whole right unit) then
        represent (whole left unit + whole right unit) unit else none) :=
  combined_eq (fun _ _ => exceedsSum_eq) (fun _ _ => add_eq) hleft hright

theorem durationSubtract_eq (hleft : Fits 64 left.count) (hright : Fits 64 right.count) :
    durationSubtract left right unit =
      some (if Fits 64 (whole left unit) ∧ Fits 64 (whole right unit) then
        represent (whole left unit - whole right unit) unit else none) :=
  combined_eq (fun _ _ => exceedsDifference_eq) (fun _ _ => sub_eq) hleft hright

inductive ClockKind
  | steady | system
  deriving DecidableEq

structure TimePoint where
  sinceEpoch : Duration
  clock : ClockKind
  deriving DecidableEq

def isValidClockKind (clock : ClockKind) : Bool := clock == .steady || clock == .system

def moved (combine : Duration → Duration → DurationUnit → Checked (Option Duration))
    (value : TimePoint) (offset : Duration) : Checked (Option TimePoint) := do
  if !isValidClockKind value.clock then pure none
  else
    let pointScale := durationUnitScale value.sinceEpoch.unit
    let offsetScale := durationUnitScale offset.unit
    if pointScale = 0 ∨ offsetScale = 0 then pure none
    else
      let commonUnit := if offsetScale < pointScale then offset.unit else value.sinceEpoch.unit
      match ← combine value.sinceEpoch offset commonUnit with
      | none => pure none
      | some updated => pure (some ⟨updated, value.clock⟩)

def timePointAdd : TimePoint → Duration → Checked (Option TimePoint) := moved durationAdd

def timePointSubtract : TimePoint → Duration → Checked (Option TimePoint) := moved durationSubtract

def timePointDifference (left right : TimePoint) (unit : DurationUnit) :
    Checked (Option Duration) :=
  if !isValidClockKind left.clock ∨ !isValidClockKind right.clock ∨ left.clock ≠ right.clock then
    pure none
  else durationSubtract left.sinceEpoch right.sinceEpoch unit

def timePointCompare (left right : TimePoint) : Checked (Option DurationOrder) :=
  if !isValidClockKind left.clock ∨ !isValidClockKind right.clock ∨ left.clock ≠ right.clock then
    pure none
  else durationCompare left.sinceEpoch right.sinceEpoch

def finer (u v : DurationUnit) : DurationUnit :=
  if durationUnitScale v < durationUnitScale u then v else u

variable {value t u : TimePoint} {offset d : Duration}

theorem finer_spec (u v : DurationUnit) :
    durationUnitScale (finer u v) = min (durationUnitScale u) (durationUnitScale v) := by
  rw [finer]
  split_ifs with h
  · exact (min_eq_right h.le).symm
  · exact (min_eq_left (not_lt.mp h)).symm

theorem isValid (clock : ClockKind) : (!isValidClockKind clock) = false := by
  cases clock <;> rfl

theorem moved_eq {combine : Duration → Duration → DurationUnit → Checked (Option Duration)}
    {result : Option Duration}
    (hcombine : combine value.sinceEpoch offset (finer value.sinceEpoch.unit offset.unit) = some result) :
    moved combine value offset = some (result.map fun updated => ⟨updated, value.clock⟩) := by
  have hpoint := scale_pos value.sinceEpoch.unit
  have hoffset := scale_pos offset.unit
  rw [moved, isValid, if_neg (by decide), if_neg (by omega), ← finer]
  dsimp only
  rw [hcombine]
  cases result <;> rfl

theorem whole_mul {value : Duration} (h : durationUnitScale unit ≤ durationUnitScale value.unit) :
    whole value unit * durationUnitScale unit = nanoseconds value := by
  rw [whole, tdiv_coarse h, ← nanoseconds_coarse h]

variable (ht : Fits 64 t.sinceEpoch.count)
include ht

theorem timePointCompare_eq (hu : Fits 64 u.sinceEpoch.count)
    (hclock : t.clock = u.clock) :
    timePointCompare t u =
      some (some (orderOf (nanoseconds t.sinceEpoch) (nanoseconds u.sinceEpoch))) := by
  rw [timePointCompare, isValid, isValid, if_neg (by simp [hclock]), durationCompare_eq ht hu]

def movedBy (op : Int → Int → Int) (t : TimePoint) (d : Duration) : Option TimePoint :=
  let unit := finer t.sinceEpoch.unit d.unit
  if Fits 64 (whole t.sinceEpoch unit) ∧ Fits 64 (whole d unit) then
    (represent (op (whole t.sinceEpoch unit) (whole d unit)) unit).map fun updated =>
      ⟨updated, t.clock⟩
  else none

theorem timePointAdd_eq (hd : Fits 64 d.count) :
    timePointAdd t d = some (movedBy (· + ·) t d) := by
  rw [timePointAdd, moved_eq (durationAdd_eq ht hd), movedBy]
  split_ifs <;> rfl

theorem timePointSubtract_eq (hd : Fits 64 d.count) :
    timePointSubtract t d = some (movedBy (· - ·) t d) := by
  rw [timePointSubtract, moved_eq (durationSubtract_eq ht hd), movedBy]
  split_ifs <;> rfl

omit ht

variable {op inverse : Int → Int → Int}

theorem movedBy_some : movedBy op t d = some u ↔
    Fits 64 (whole t.sinceEpoch (finer t.sinceEpoch.unit d.unit)) ∧
    Fits 64 (whole d (finer t.sinceEpoch.unit d.unit)) ∧ Fits 64
    (op (whole t.sinceEpoch (finer t.sinceEpoch.unit d.unit)) (whole d (finer t.sinceEpoch.unit d.unit))) ∧
    u =
    ⟨⟨op (whole t.sinceEpoch (finer t.sinceEpoch.unit d.unit)) (whole d (finer t.sinceEpoch.unit d.unit)),
      finer t.sinceEpoch.unit d.unit⟩, t.clock⟩ := by
  rw [movedBy, represent]
  split_ifs with hfits hresult
  · simp only [map_some, Option.some.injEq, hfits, hresult, true_and]
    exact eq_comm
  · simp [hresult]
  · simp only [false_iff]
    exact fun h => hfits ⟨h.1, h.2.1⟩

theorem finer_left (u v : DurationUnit) : durationUnitScale (finer u v) ≤ durationUnitScale u := by
  rw [finer_spec]
  exact min_le_left _ _

theorem finer_right (u v : DurationUnit) : durationUnitScale (finer u v) ≤ durationUnitScale v := by
  rw [finer_spec]
  exact min_le_right _ _

theorem finer_finer (u v : DurationUnit) : finer (finer u v) v = finer u v :=
  unit_of_scale _ _ (by rw [finer_spec, min_eq_left (finer_right u v)])

theorem whole_self (n : Int) (unit : DurationUnit) : whole ⟨n, unit⟩ unit = n :=
  Int.mul_tdiv_cancel _ (scale_pos unit).ne'

theorem movedBy_back (hinverse : ∀ a b, inverse (op a b) b = a) (hmoved : movedBy op t d = some u) : ∃ s,
    movedBy inverse u d = some s ∧ s.clock = t.clock ∧ Fits 64 s.sinceEpoch.count ∧
    nanoseconds s.sinceEpoch = nanoseconds t.sinceEpoch := by
  obtain ⟨hpoint, hoffset, hresult, rfl⟩ := movedBy_some.mp hmoved
  have hexact := whole_mul (finer_left t.sinceEpoch.unit d.unit)
  generalize whole t.sinceEpoch (finer t.sinceEpoch.unit d.unit) = a at *
  refine ⟨⟨⟨a, finer t.sinceEpoch.unit d.unit⟩, t.clock⟩, movedBy_some.mpr ?_, rfl, hpoint, hexact⟩
  dsimp only
  rw [finer_finer, whole_self, hinverse]
  exact ⟨hresult, hoffset, hpoint, rfl⟩

theorem timePoint_undone (hinverse : ∀ a b, inverse (op a b) b = a) (ht : Fits 64 t.sinceEpoch.count)
    (hmoved : movedBy op t d = some u) :
    ∃ s, movedBy inverse u d = some s ∧ timePointCompare s t = some (some .equivalent) := by
  obtain ⟨s, hs, hclock, hfits, hsame⟩ := movedBy_back hinverse hmoved
  exact ⟨s, hs, by rw [timePointCompare_eq hfits ht hclock, hsame, orderOf_equivalent.mpr rfl]⟩

theorem movedBy_fits (hmoved : movedBy op t d = some u) : Fits 64 u.sinceEpoch.count := by
  obtain ⟨-, -, hresult, rfl⟩ := movedBy_some.mp hmoved
  exact hresult

theorem timePointDifference_sign {n : Duration} (ht : Fits 64 t.sinceEpoch.count)
    (hu : Fits 64 u.sinceEpoch.count) (hdifference : timePointDifference t u unit = some (some n))
    (hne : n.count ≠ 0) :
    timePointCompare t u = some (some (if n.count < 0 then .less else .greater)) := by
  have hscale := scale_pos unit
  rw [timePointDifference, isValid, isValid] at hdifference
  by_cases hclock : t.clock = u.clock
  · rw [if_neg (by simp [hclock]), durationSubtract_eq ht hu] at hdifference
    rw [timePointCompare_eq ht hu hclock]
    have hcount : n.count = whole t.sinceEpoch unit - whole u.sinceEpoch unit := by
      rw [represent] at hdifference
      split_ifs at hdifference <;> simp_all
      rw [← hdifference]
    rw [hcount] at hne ⊢
    have hmonotone : ∀ a b : Int, a ≤ b →
        a.tdiv (durationUnitScale unit) ≤ b.tdiv (durationUnitScale unit) :=
      fun a b hle => Int.tdiv_le_tdiv hscale hle
    rw [whole, whole] at hne ⊢
    split_ifs with hneg
    · have hlt : nanoseconds t.sinceEpoch < nanoseconds u.sinceEpoch := by
        by_contra hle
        have h := hmonotone _ _ (not_lt.mp hle)
        omega
      rw [orderOf_less.mpr hlt]
    · have hgt : nanoseconds u.sinceEpoch < nanoseconds t.sinceEpoch := by
        by_contra hle
        have h := hmonotone _ _ (not_lt.mp hle)
        omega
      rw [orderOf_greater.mpr hgt]
  · rw [if_pos (by simp [hclock])] at hdifference
    exact absurd hdifference (by simp)

theorem movedBy_none :
    movedBy (· + ·) t d = none ↔
      ¬ (Fits 64 (nanoseconds t.sinceEpoch /
          min (durationUnitScale t.sinceEpoch.unit) (durationUnitScale d.unit)) ∧
        Fits 64 (nanoseconds d / min (durationUnitScale t.sinceEpoch.unit) (durationUnitScale d.unit)) ∧
        Fits 64 ((nanoseconds t.sinceEpoch + nanoseconds d) /
          min (durationUnitScale t.sinceEpoch.unit) (durationUnitScale d.unit))) := by
  have hpoint := whole_mul (finer_left t.sinceEpoch.unit d.unit)
  have hoffset := whole_mul (finer_right t.sinceEpoch.unit d.unit)
  have hscale := scale_pos (finer t.sinceEpoch.unit d.unit)
  rw [← finer_spec, ← hpoint, ← hoffset, ← Int.add_mul, Int.mul_ediv_cancel _ hscale.ne',
    Int.mul_ediv_cancel _ hscale.ne', Int.mul_ediv_cancel _ hscale.ne', movedBy, represent]
  split_ifs with hfits hsum
  · simp [hfits, hsum]
  · simp [hsum]
  · simp only [true_iff]
    exact fun h => hfits ⟨h.1, h.2.1⟩

theorem timePoints_consistent (t u : TimePoint) (d : Duration) (unit : DurationUnit)
    (ht : Fits 64 t.sinceEpoch.count) (hu : Fits 64 u.sinceEpoch.count) (hd : Fits 64 d.count) :
    (∀ t', timePointAdd t d = some (some t') →
      ∃ s, timePointSubtract t' d = some (some s) ∧ timePointCompare s t = some (some .equivalent)) ∧
    (∀ t', timePointSubtract t d = some (some t') →
      ∃ s, timePointAdd t' d = some (some s) ∧ timePointCompare s t = some (some .equivalent)) ∧
    (timePointAdd t d = some none ↔ ¬ (Fits 64 (nanoseconds t.sinceEpoch /
          min (durationUnitScale t.sinceEpoch.unit) (durationUnitScale d.unit)) ∧
        Fits 64 (nanoseconds d / min (durationUnitScale t.sinceEpoch.unit) (durationUnitScale d.unit)) ∧
        Fits 64 ((nanoseconds t.sinceEpoch + nanoseconds d) /
          min (durationUnitScale t.sinceEpoch.unit) (durationUnitScale d.unit)))) ∧
    (timePointAdd t d).isSome ∧
    (∀ n, timePointDifference t u unit = some (some n) → n.count ≠ 0 →
      timePointCompare t u = some (some (if n.count < 0 then .less else .greater))) := by
  rw [timePointAdd_eq ht hd, timePointSubtract_eq ht hd]
  simp only [Option.some.injEq]
  refine ⟨fun t' hmoved => ?_, fun t' hmoved => ?_, movedBy_none, rfl,
    fun n hdifference hne => timePointDifference_sign ht hu hdifference hne⟩
  · rw [timePointSubtract_eq (movedBy_fits hmoved) hd]
    simp only [Option.some.injEq]
    exact timePoint_undone (fun a b => Int.add_sub_cancel a b) ht hmoved
  · rw [timePointAdd_eq (movedBy_fits hmoved) hd]
    simp only [Option.some.injEq]
    exact timePoint_undone (fun a b => Int.sub_add_cancel a b) ht hmoved

/-- A minute and ten seconds after an hour, and back. -/
theorem hour_and_back :
    ∃ s, timePointSubtract ⟨⟨3670, .second⟩, .steady⟩ ⟨70, .second⟩ = some (some s) ∧
      timePointCompare s ⟨⟨1, .hour⟩, .steady⟩ = some (some .equivalent) :=
  (timePoints_consistent ⟨⟨1, .hour⟩, .steady⟩ ⟨⟨0, .week⟩, .steady⟩ ⟨70, .second⟩ .minute
    (by decide) (by decide) (by decide)).1 ⟨⟨3670, .second⟩, .steady⟩ (by decide)

end Mlang.TimePoints
