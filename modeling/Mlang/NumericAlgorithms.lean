import Mlang.CheckedIntegers

namespace Mlang.NumericAlgorithms

open CheckedIntegers (Checked some_bind truncated_tdiv)

inductive IntType
  | i8
  | i16
  | i32
  | i64
  | u8
  | u16
  | u32
  | u64
  deriving DecidableEq

def IntType.low : IntType → Int
  | .i8 => -2 ^ 7
  | .i16 => -2 ^ 15
  | .i32 => -2 ^ 31
  | .i64 => -2 ^ 63
  | _ => 0

def IntType.high : IntType → Int
  | .i8 => 2 ^ 7 - 1
  | .i16 => 2 ^ 15 - 1
  | .i32 => 2 ^ 31 - 1
  | .i64 => 2 ^ 63 - 1
  | .u8 => 2 ^ 8 - 1
  | .u16 => 2 ^ 16 - 1
  | .u32 => 2 ^ 32 - 1
  | .u64 => 2 ^ 64 - 1

def IntType.Fits (t : IntType) (x : Int) : Prop := t.low ≤ x ∧ x ≤ t.high

instance (t : IntType) (x : Int) : Decidable (t.Fits x) := inferInstanceAs (Decidable (_ ∧ _))

def IntType.value (t : IntType) (x : Int) : Checked Int := if t.Fits x then some x else none

def IntType.quot (t : IntType) (a b : Int) : Checked Int := if b = 0 then none else t.value (a.tdiv b)

def IntType.rem (t : IntType) (a b : Int) : Checked Int := (t.quot a b).map fun _ => a.tmod b

theorem value_eq {t : IntType} {x : Int} (h : t.Fits x) : t.value x = some x := if_pos h

theorem rem_cases {t : IntType} {a b r : Int} (h : t.rem a b = some r) : r = a.tmod b := by
  obtain ⟨q, -, hr⟩ := Option.map_eq_some_iff.1 h
  exact hr.symm

theorem high_le (t : IntType) : 127 ≤ t.high := by cases t <;> decide

variable (t : IntType)

def signedMidpoint (first second : Int) : Checked Int := do
  let middle ← t.value ((← t.quot first 2) + (← t.quot second 2))
  let remainder ← t.value ((← t.rem first 2) + (← t.rem second 2))
  if remainder = 2 then t.value (middle + 1)
  else if remainder = -2 then t.value (middle - 1)
  else if remainder = 1 ∧ first > second then t.value (middle + 1)
  else if remainder = -1 ∧ first < second then t.value (middle - 1)
  else pure middle

def unsignedMidpoint (first second : Int) : Checked Int := do
  let middle ← t.value ((← t.quot first 2) + (← t.quot second 2))
  let remainder ← t.value ((← t.rem first 2) + (← t.rem second 2))
  if remainder = 2 then t.value (middle + 1)
  else if remainder = 1 ∧ first > second then t.value (middle + 1)
  else pure middle

def midpointI8 : Int → Int → Checked Int := signedMidpoint .i8

def midpointI16 : Int → Int → Checked Int := signedMidpoint .i16

def midpointI32 : Int → Int → Checked Int := signedMidpoint .i32

def midpointI64 : Int → Int → Checked Int := signedMidpoint .i64

def midpointU8 : Int → Int → Checked Int := unsignedMidpoint .u8

def midpointU16 : Int → Int → Checked Int := unsignedMidpoint .u16

def midpointU32 : Int → Int → Checked Int := unsignedMidpoint .u32

def midpointU64 : Int → Int → Checked Int := unsignedMidpoint .u64

def midpoint : IntType → Int → Int → Checked Int
  | .i8 => midpointI8
  | .i16 => midpointI16
  | .i32 => midpointI32
  | .i64 => midpointI64
  | .u8 => midpointU8
  | .u16 => midpointU16
  | .u32 => midpointU32
  | .u64 => midpointU64

def gcdLoop (left right : Int) : Checked Int :=
  if right = 0 then some left
  else
    match _h : t.rem left right with
    | none => none
    | some remainder => gcdLoop right remainder
termination_by right.natAbs
decreasing_by
  rw [rem_cases _h, Int.natAbs_tmod]
  exact Nat.mod_lt _ (by omega)

def absolute (x : Int) : Checked Int := if x < 0 then t.value (0 - x) else some x

def gcd (a b : Int) : Checked Int := do
  let left ← absolute t a
  let right ← absolute t b
  gcdLoop t left right

def lcm (a b : Int) : Checked Int := do
  if a = 0 ∨ b = 0 then pure 0
  else
    let divisor ← gcd t a b
    let left ← t.quot a divisor
    let left ← absolute t left
    let right ← absolute t b
    t.value (left * right)

section Means

variable {t : IntType} {first second : Int}

def MeanToward (first second m : Int) : Prop :=
  2 * m = first + second ∨ first < second ∧ 2 * m = first + second - 1 ∨
    second < first ∧ 2 * m = first + second + 1

theorem half_eq {a : Int} (hlow : t.low ≤ 0) (ha : t.Fits a) :
    t.quot a 2 = some (a.tdiv 2) ∧ t.rem a 2 = some (a.tmod 2) := by
  obtain ⟨hsplit, hnonneg, hnonpos, -, -⟩ := truncated_tdiv (by decide : (0 : Int) < 2) a
  have hhigh := high_le t
  obtain ⟨hmin, hmax⟩ := ha
  have hquot : t.quot a 2 = some (a.tdiv 2) := value_eq ⟨by omega, by omega⟩
  exact ⟨hquot, by rw [IntType.rem, hquot, Option.map_some]⟩

theorem signedMidpoint_mean (hlow : t.low ≤ -2) (hfirst : t.Fits first) (hsecond : t.Fits second) :
    ∃ m, signedMidpoint t first second = some m ∧ MeanToward first second m := by
  have hhigh := high_le t
  obtain ⟨hquot, hrem⟩ := half_eq (by omega) hfirst
  obtain ⟨hquot', hrem'⟩ := half_eq (by omega) hsecond
  obtain ⟨hsplit, hnonneg, hnonpos, habove, hbelow⟩ := truncated_tdiv (by decide : (0 : Int) < 2) first
  obtain ⟨hsplit', hnonneg', hnonpos', habove', hbelow'⟩ := truncated_tdiv (by decide : (0 : Int) < 2) second
  obtain ⟨hmin, hmax⟩ := hfirst
  obtain ⟨hmin', hmax'⟩ := hsecond
  unfold signedMidpoint MeanToward
  simp only [hquot, hquot', hrem, hrem', some_bind]
  generalize first.tdiv 2 = q at *
  generalize second.tdiv 2 = q' at *
  generalize first.tmod 2 = r at *
  generalize second.tmod 2 = r' at *
  rw [value_eq ⟨by omega, by omega⟩, some_bind, value_eq ⟨by omega, by omega⟩, some_bind]
  split_ifs
  · exact ⟨_, value_eq ⟨by omega, by omega⟩, by omega⟩
  · exact ⟨_, value_eq ⟨by omega, by omega⟩, by omega⟩
  · exact ⟨_, value_eq ⟨by omega, by omega⟩, by omega⟩
  · exact ⟨_, value_eq ⟨by omega, by omega⟩, by omega⟩
  · exact ⟨_, rfl, by omega⟩

theorem unsignedMidpoint_mean (hlow : t.low = 0) (hfirst : t.Fits first) (hsecond : t.Fits second) :
    ∃ m, unsignedMidpoint t first second = some m ∧ MeanToward first second m := by
  have hhigh := high_le t
  obtain ⟨hquot, hrem⟩ := half_eq (by omega) hfirst
  obtain ⟨hquot', hrem'⟩ := half_eq (by omega) hsecond
  obtain ⟨hsplit, hnonneg, -, -, hbelow⟩ := truncated_tdiv (by decide : (0 : Int) < 2) first
  obtain ⟨hsplit', hnonneg', -, -, hbelow'⟩ := truncated_tdiv (by decide : (0 : Int) < 2) second
  obtain ⟨hmin, hmax⟩ := hfirst
  obtain ⟨hmin', hmax'⟩ := hsecond
  unfold unsignedMidpoint MeanToward
  simp only [hquot, hquot', hrem, hrem', some_bind]
  generalize first.tdiv 2 = q at *
  generalize second.tdiv 2 = q' at *
  generalize first.tmod 2 = r at *
  generalize second.tmod 2 = r' at *
  rw [value_eq ⟨by omega, by omega⟩, some_bind, value_eq ⟨by omega, by omega⟩, some_bind]
  split_ifs
  · exact ⟨_, value_eq ⟨by omega, by omega⟩, by omega⟩
  · exact ⟨_, value_eq ⟨by omega, by omega⟩, by omega⟩
  · exact ⟨_, rfl, by omega⟩

theorem midpoint_mean (t : IntType) (hfirst : t.Fits first) (hsecond : t.Fits second) :
    ∃ m, midpoint t first second = some m ∧ MeanToward first second m := by
  cases t with
  | i8 | i16 | i32 | i64 => exact signedMidpoint_mean (by decide) hfirst hsecond
  | u8 | u16 | u32 | u64 => exact unsignedMidpoint_mean rfl hfirst hsecond

end Means

section Divisors

variable {t : IntType} {a b : Int}

def IntType.Measures (t : IntType) (x : Int) : Prop := t.Fits x ∧ (x.natAbs : Int) ≤ t.high

theorem low_nonpos (t : IntType) : t.low ≤ 0 := by cases t <;> decide

theorem absolute_eq (h : (a.natAbs : Int) ≤ t.high) : absolute t a = some (a.natAbs : Int) := by
  have hlow := low_nonpos t
  unfold absolute
  split_ifs with hneg
  · rw [value_eq ⟨by omega, by omega⟩]
    exact congrArg some (by omega)
  · exact congrArg some (by omega)

theorem gcdLoop_eq {m n : Nat} (hn : (n : Int) ≤ t.high) (hm : (m : Int) ≤ t.high) :
    gcdLoop t m n = some (Nat.gcd m n : Int) := by
  have hlow := low_nonpos t
  induction n using Nat.strong_induction_on generalizing m with
  | _ n ih =>
    rw [gcdLoop]
    split_ifs with hzero
    · obtain rfl : n = 0 := by omega
      rw [Nat.gcd_zero_right]
    · have hlt : m % n < n := Nat.mod_lt m (by omega)
      have hdiv : m / n ≤ m := Nat.div_le_self m n
      have hfits : t.Fits ((m / n : Nat) : Int) := by
        generalize m / n = q at hdiv
        exact ⟨by omega, by omega⟩
      have hrem : t.rem m n = some ((m % n : Nat) : Int) := by
        rw [IntType.rem, IntType.quot, if_neg hzero, ← Int.ofNat_tdiv, value_eq hfits]
        rfl
      split
      · rename_i hnone
        cases hnone.symm.trans hrem
      · rename_i r hsome
        obtain rfl := Option.some.inj (hsome.symm.trans hrem)
        rw [ih (m % n) hlt (by omega) hn, Nat.gcd_comm, ← Nat.gcd_rec, Nat.gcd_comm]

theorem gcd_eq (ha : t.Measures a) (hb : t.Measures b) : gcd t a b = some (Int.gcd a b : Int) := by
  rw [gcd, absolute_eq ha.2, some_bind, absolute_eq hb.2, some_bind, gcdLoop_eq hb.2 ha.2]
  rfl

theorem quot_mul (hzero : ¬(a = 0 ∨ b = 0)) :
    0 < Int.gcd a b ∧ (a.tdiv (Int.gcd a b)).natAbs * b.natAbs = Int.lcm a b ∧
      (a.tdiv (Int.gcd a b)).natAbs ≤ a.natAbs := by
  have hpos : 0 < Int.gcd a b := Int.gcd_pos_iff.2 (by omega)
  have hquot : (a.tdiv (Int.gcd a b)).natAbs = a.natAbs / Int.gcd a b := Int.natAbs_tdiv a _
  have hdvd : Int.gcd a b ∣ a.natAbs := Nat.gcd_dvd_left a.natAbs b.natAbs
  refine ⟨hpos, ?_, ?_⟩
  · rw [hquot, Nat.div_mul_right_comm hdvd]
    rfl
  · rw [hquot]
    exact Nat.div_le_self _ _

theorem lcm_eq (ha : t.Measures a) (hb : t.Measures b) (hlcm : (Int.lcm a b : Int) ≤ t.high) :
    lcm t a b = some (Int.lcm a b : Int) := by
  have hlow := low_nonpos t
  unfold lcm
  split_ifs with hzero
  · obtain rfl | rfl := hzero
    · rw [Int.lcm_zero_left]
      rfl
    · rw [Int.lcm_zero_right]
      rfl
  · obtain ⟨hpos, hmul, hle⟩ := quot_mul hzero
    have ha' := ha.2
    have hdivided : t.quot a (Int.gcd a b) = some (a.tdiv (Int.gcd a b)) := by
      rw [IntType.quot, if_neg (by omega)]
      refine value_eq ?_
      obtain ⟨-, hnonneg, hnonpos, -, -⟩ := truncated_tdiv (Int.natCast_pos.2 hpos) a
      obtain ⟨hmin, hmax⟩ := ha.1
      generalize a.tdiv (Int.gcd a b) = q at hle hnonneg hnonpos
      exact ⟨by omega, by omega⟩
    rw [gcd_eq ha hb, some_bind, hdivided, some_bind, absolute_eq (by omega), some_bind, absolute_eq hb.2,
      some_bind, ← Int.natCast_mul, hmul]
    exact value_eq ⟨by omega, hlcm⟩

end Divisors

/-- Means, divisors and multiples are exact, and no step of them leaves the type. -/
theorem numeric_exact (t : IntType) (a b : Int) (ha : t.Fits a) (hb : t.Fits b) :
    (∃ m, midpoint t a b = some m ∧ MeanToward a b m) ∧
    (t.Measures a → t.Measures b → gcd t a b = some (Int.gcd a b : Int) ∧
      ((Int.lcm a b : Int) ≤ t.high → lcm t a b = some (Int.lcm a b : Int) ∧
        ∃ d l, gcd t a b = some d ∧ lcm t a b = some l ∧ d * l = (a * b).natAbs)) := by
  refine ⟨midpoint_mean t ha hb, fun hma hmb => ⟨gcd_eq hma hmb, fun hlcm => ?_⟩⟩
  refine ⟨lcm_eq hma hmb hlcm, _, _, gcd_eq hma hmb, lcm_eq hma hmb hlcm, ?_⟩
  rw [← Int.natCast_mul, Int.gcd_mul_lcm, Int.natAbs_mul]

theorem numeric_exact_small : (∃ m, midpoint .i8 (-128) 127 = some m ∧ MeanToward (-128) 127 m) ∧
    gcd .i8 (-4) 6 = some (Int.gcd (-4) 6 : Int) ∧ lcm .i8 (-4) 6 = some (Int.lcm (-4) 6 : Int) :=
  have hsmall := (numeric_exact .i8 (-4) 6 (by decide) (by decide)).2 ⟨by decide, by decide⟩ ⟨by decide, by decide⟩
  ⟨(numeric_exact .i8 (-128) 127 (by decide) (by decide)).1, hsmall.1, (hsmall.2 (by decide)).1⟩

end Mlang.NumericAlgorithms
