import Mathlib

namespace Mlang.CheckedIntegers

abbrev Checked (α : Type) : Type := Option α

def Fits (bits : Nat) (x : Int) : Prop := -2 ^ (bits - 1) ≤ x ∧ x < 2 ^ (bits - 1)

instance (bits : Nat) (x : Int) : Decidable (Fits bits x) := inferInstanceAs (Decidable (_ ∧ _))

def checked (bits : Nat) (x : Int) : Checked Int := if Fits bits x then some x else none

def add (bits : Nat) (a b : Int) : Checked Int := checked bits (a + b)

def sub (bits : Nat) (a b : Int) : Checked Int := checked bits (a - b)

def mul (bits : Nat) (a b : Int) : Checked Int := checked bits (a * b)

def quot (bits : Nat) (a b : Int) : Checked Int := if b = 0 then none else checked bits (a.tdiv b)

def rem (bits : Nat) (a b : Int) : Checked Int := (quot bits a b).map fun _ => a.tmod b

/-- The test before a sum that is to stay between limits, which takes a summand from them. -/
def exceeds (bits : Nat) (low high a b : Int) : Checked Bool := do
  if b > 0 then
    let limit ← sub bits high b
    pure (decide (a > limit))
  else if b < 0 then
    let limit ← sub bits low b
    pure (decide (a < limit))
  else pure false

def unwrap {α : Type} (value : Option α) : Checked α := value

theorem some_bind {α β : Type} (a : α) (f : α → Checked β) : ((some a : Checked α) >>= f) = f a := rfl

variable {bits : Nat} {a b x q r q' r' : Int}

theorem checked_eq (h : Fits bits x) : checked bits x = some x := if_pos h

theorem add_eq (h : Fits bits (a + b)) : add bits a b = some (a + b) := checked_eq h

theorem sub_eq (h : Fits bits (a - b)) : sub bits a b = some (a - b) := checked_eq h

theorem mul_eq (h : Fits bits (a * b)) : mul bits a b = some (a * b) := checked_eq h

structure Truncated (a b q r : Int) : Prop where
  split : q * b + r = a
  nonneg : 0 ≤ a → 0 ≤ r ∧ 0 ≤ q
  nonpos : a ≤ 0 → r ≤ 0 ∧ q ≤ 0
  above : -b < r
  below : r < b

theorem truncated_tdiv (hb : 0 < b) (a : Int) : Truncated a b (a.tdiv b) (a.tmod b) where
  split := Int.tdiv_mul_add_tmod a b
  nonneg ha := ⟨Int.tmod_nonneg b ha, Int.tdiv_nonneg ha (le_of_lt hb)⟩
  nonpos ha := by
    have hneg : 0 ≤ -a := by omega
    have hrem := Int.tmod_nonneg b hneg
    have hquot := Int.tdiv_nonneg hneg (le_of_lt hb)
    rw [Int.neg_tmod] at hrem
    rw [Int.neg_tdiv] at hquot
    omega
  above := by
    have h := Int.tmod_lt_of_pos (-a) hb
    rw [Int.neg_tmod] at h
    omega
  below := Int.tmod_lt_of_pos a hb

theorem Truncated.le (h : Truncated a b q r) (h' : Truncated a b q' r') : q ≤ q' := by
  by_contra hlt
  have hb : 0 ≤ b := by
    have habove := h.above
    have hbelow := h.below
    omega
  have hstep : (q' + 1) * b ≤ q * b := Int.mul_le_mul_of_nonneg_right (not_le.mp hlt) hb
  rw [Int.add_mul, Int.one_mul] at hstep
  obtain ⟨hsplit, hnonneg, hnonpos, habove, hbelow⟩ := h
  obtain ⟨hsplit', hnonneg', hnonpos', habove', hbelow'⟩ := h'
  rcases le_total 0 a with hsign | hsign
  · have hrem := hnonneg hsign
    omega
  · have hrem := hnonpos' hsign
    omega

variable (hb : 0 < b)
include hb

theorem Truncated.tdiv_eq (h : Truncated a b q r) : a.tdiv b = q :=
  le_antisymm ((truncated_tdiv hb a).le h) (h.le (truncated_tdiv hb a))

theorem tdiv_bounded {k : Int} (hlow : -(k * b) < a) (hhigh : a < k * b) :
    -k < a.tdiv b ∧ a.tdiv b < k := by
  obtain ⟨hsplit, hnonneg, hnonpos, -, -⟩ := truncated_tdiv hb a
  generalize a.tdiv b = q at *
  rcases le_total 0 a with hsign | hsign
  · obtain ⟨hrem, hquot⟩ := hnonneg hsign
    have hlt : q < k := lt_of_mul_lt_mul_right (by omega) hb.le
    exact ⟨by omega, hlt⟩
  · obtain ⟨hrem, hquot⟩ := hnonpos hsign
    have hlt : -k < q := lt_of_mul_lt_mul_right (by rw [Int.neg_mul]; omega) hb.le
    exact ⟨hlt, by omega⟩

theorem tdiv_fits (ha : Fits bits a) : Fits bits (a.tdiv b) := by
  obtain ⟨hlow, hhigh⟩ := ha
  have htruncated := truncated_tdiv hb a
  have hle : (a.tdiv b).natAbs ≤ a.natAbs := Int.natAbs_tdiv_le_natAbs a b
  rcases le_total 0 a with hsign | hsign
  · have hquot := (htruncated.nonneg hsign).2
    exact ⟨by omega, by omega⟩
  · have hquot := (htruncated.nonpos hsign).2
    exact ⟨by omega, by omega⟩

theorem tmod_fits (ha : Fits bits a) : Fits bits (a.tmod b) := by
  obtain ⟨hlow, hhigh⟩ := ha
  obtain ⟨hsplit, hnonneg, hnonpos, -, -⟩ := truncated_tdiv hb a
  rcases le_total 0 a with hsign | hsign
  · obtain ⟨hrem, hquot⟩ := hnonneg hsign
    have hproduct := Int.mul_nonneg hquot hb.le
    exact ⟨by omega, by omega⟩
  · obtain ⟨hrem, hquot⟩ := hnonpos hsign
    have hproduct := Int.mul_nonpos_of_nonpos_of_nonneg hquot hb.le
    exact ⟨by omega, by omega⟩

theorem quot_eq (ha : Fits bits a) : quot bits a b = some (a.tdiv b) := by
  rw [quot, if_neg (by omega), checked_eq (tdiv_fits hb ha)]

theorem rem_eq (ha : Fits bits a) : rem bits a b = some (a.tmod b) := by
  rw [rem, quot_eq hb ha]
  rfl

omit hb

variable {m low high : Int}

theorem le_tdiv_iff (hm : 0 < m) (hhigh : 0 ≤ high) : a ≤ high.tdiv m ↔ a * m ≤ high := by
  rw [Int.tdiv_eq_ediv_of_nonneg hhigh, Int.le_ediv_iff_mul_le hm]

theorem tdiv_le_iff (hm : 0 < m) (hlow : low ≤ 0) : low.tdiv m ≤ a ↔ low ≤ a * m := by
  have hneg := @le_tdiv_iff (-a) m (-low) hm (by omega)
  rw [Int.neg_tdiv, Int.neg_mul] at hneg
  omega

theorem exceeds_eq {b : Int} (hlow : Fits bits low) (hhigh : Fits bits high) (hnegative : low < 0)
    (hnonneg : 0 ≤ high) (ha : low ≤ a ∧ a ≤ high) (hb : Fits bits b) :
    exceeds bits low high a b = some (decide (¬ (low ≤ a + b ∧ a + b ≤ high))) := by
  obtain ⟨hblow, hbhigh⟩ := hb
  obtain ⟨hlowest, -⟩ := hlow
  obtain ⟨-, hhighest⟩ := hhigh
  rw [exceeds]
  rcases lt_trichotomy b 0 with hneg | rfl | hpos
  · have hlimit : sub bits low b = some (low - b) := sub_eq ⟨by omega, by omega⟩
    have hiff : a < low - b ↔ ¬ (low ≤ a + b ∧ a + b ≤ high) := by omega
    rw [if_neg (lt_asymm hneg), if_pos hneg, hlimit, ← decide_eq_decide.mpr hiff]
    rfl
  · have hwithin : low ≤ a + 0 ∧ a + 0 ≤ high := by omega
    rw [if_neg (lt_irrefl 0), if_neg (lt_irrefl 0), decide_eq_false (not_not_intro hwithin)]
    rfl
  · have hlimit : sub bits high b = some (high - b) := sub_eq ⟨by omega, by omega⟩
    have hiff : a > high - b ↔ ¬ (low ≤ a + b ∧ a + b ≤ high) := by omega
    rw [if_pos hpos, hlimit, ← decide_eq_decide.mpr hiff]
    rfl

variable {K : Type} [Field K] [LinearOrder K] [IsStrictOrderedRing K] [FloorRing K]

def truncate (q : K) : ℤ := if 0 ≤ q then ⌊q⌋ else ⌈q⌉

structure NearestEven (q : K) (n : ℤ) : Prop where
  near : |q - n| ≤ 1 / 2
  even : |q - n| = 1 / 2 → Even n

variable {q : K} {a d m n : ℤ}

theorem NearestEven.le (hm : NearestEven q m) (hn : NearestEven q n) : m ≤ n := by
  by_contra hlt
  have hstep : (n : K) + 1 ≤ m := by exact_mod_cast Int.lt_iff_add_one_le.mp (not_le.mp hlt)
  have hmNear := abs_le.mp hm.near
  have hnNear := abs_le.mp hn.near
  -- both are half a unit away, on either side
  have hqm : q - m = -(1 / 2) := by linarith
  have hqn : q - n = 1 / 2 := by linarith
  have hmEven : Even m := hm.even (by rw [hqm, abs_neg, abs_of_pos (by norm_num)])
  have hnEven : Even n := hn.even (by rw [hqn, abs_of_pos (by norm_num)])
  have hnext : m = n + 1 := by
    have hcast : (m : K) = n + 1 := by linarith
    exact_mod_cast hcast
  obtain ⟨i, hi⟩ := hmEven
  obtain ⟨j, hj⟩ := hnEven
  omega

theorem NearestEven.unique (hm : NearestEven q m) (hn : NearestEven q n) : m = n :=
  le_antisymm (hm.le hn) (hn.le hm)

theorem nearestEven_intCast (n : ℤ) : NearestEven (n : K) n where
  near := by
    rw [sub_self, abs_zero]
    norm_num
  even h := by
    rw [sub_self, abs_zero] at h
    norm_num at h

theorem floor_quotient (hd : 0 < d) (hlow : n * d ≤ a) (hhigh : a < (n + 1) * d) : ⌊(a : K) / d⌋ = n := by
  have hpos : (0 : K) < d := by exact_mod_cast hd
  rw [Int.floor_eq_iff, le_div_iff₀ hpos, div_lt_iff₀ hpos]
  exact ⟨by exact_mod_cast hlow, by exact_mod_cast hhigh⟩

theorem ceil_quotient (hd : 0 < d) (hlow : (n - 1) * d < a) (hhigh : a ≤ n * d) : ⌈(a : K) / d⌉ = n := by
  have hpos : (0 : K) < d := by exact_mod_cast hd
  rw [Int.ceil_eq_iff, lt_div_iff₀ hpos, div_le_iff₀ hpos]
  exact ⟨by exact_mod_cast hlow, by exact_mod_cast hhigh⟩

theorem truncate_quotient (hd : 0 < d) (a : ℤ) : truncate ((a : K) / d) = a.tdiv d := by
  have hpos : (0 : K) < d := by exact_mod_cast hd
  obtain ⟨hsplit, hnonneg, hnonpos, habove, hbelow⟩ := truncated_tdiv hd a
  generalize a.tdiv d = q at *
  rw [truncate]
  rcases le_or_gt 0 a with hsign | hsign
  · have hcast : (0 : K) ≤ a := by exact_mod_cast hsign
    rw [if_pos (div_nonneg hcast hpos.le)]
    have hrem := (hnonneg hsign).1
    exact floor_quotient hd (by omega) (by rw [Int.add_mul, Int.one_mul]; omega)
  · have hcast : (a : K) < 0 := by exact_mod_cast hsign
    rw [if_neg (not_le_of_gt (div_neg_of_neg_of_pos hcast hpos))]
    have hrem := (hnonpos hsign.le).1
    exact ceil_quotient hd (by rw [Int.sub_mul, Int.one_mul]; omega) (by omega)

theorem nearestEven_quotient (hd : 0 < d) (hnear : 2 * |a - n * d| ≤ d)
    (heven : 2 * |a - n * d| = d → Even n) : NearestEven ((a : K) / d) n := by
  have hpos : (0 : K) < d := by exact_mod_cast hd
  have hdistance : |(a : K) / d - n| = (|a - n * d| : ℤ) / d := by
    rw [Int.cast_abs, Int.cast_sub, Int.cast_mul, eq_div_iff hpos.ne', ← abs_of_pos hpos,
      ← abs_mul, abs_of_pos hpos, sub_mul, div_mul_cancel₀ _ hpos.ne']
  refine ⟨?_, fun h => heven ?_⟩
  · rw [hdistance, div_le_iff₀ hpos]
    have hcast : (2 : K) * (|a - n * d| : ℤ) ≤ d := by exact_mod_cast hnear
    linarith
  · rw [hdistance, div_eq_iff hpos.ne'] at h
    have hcast : (2 : K) * (|a - n * d| : ℤ) = d := by linarith
    exact_mod_cast hcast

end Mlang.CheckedIntegers
