import Mathlib.Algebra.Order.Ring.Int
import Mathlib.Data.Nat.Log

namespace Mlang.IntegerRounding

/-! Rounding of integers to a number of significant binary digits, to the nearest and from the
middle to the even one. -/

/-- The digits of a number beyond the first `p`. -/
def excess (p n : Nat) : Nat := n.log2 + 1 - p

def roundNat (p n : Nat) : Nat :=
  let unit := 2 ^ excess p n
  if unit < 2 * (n % unit) ∨ (2 * (n % unit) = unit ∧ n / unit % 2 = 1) then (n / unit + 1) * unit
  else n / unit * unit

def roundInt (p : Nat) (n : Int) : Int := n.sign * roundNat p n.natAbs

/-- Written with `p` digits and zeros behind them. -/
def Exact (p n : Nat) : Prop := ∃ m e, m < 2 ^ p ∧ n = m * 2 ^ e

variable {p n : Nat}

theorem Exact.dvd (h : Exact p n) : 2 ^ excess p n ∣ n := by
  obtain ⟨m, e, hm, rfl⟩ := h
  rcases Nat.eq_zero_or_pos (m * 2 ^ e) with hzero | hpos
  · rw [hzero]
    exact Nat.dvd_zero _
  · have hlt : m * 2 ^ e < 2 ^ (p + e) := by
      rw [Nat.pow_add]
      exact Nat.mul_lt_mul_of_pos_right hm (Nat.two_pow_pos e)
    have hlog := (Nat.log2_lt hpos.ne').2 hlt
    have hexcess : excess p (m * 2 ^ e) ≤ e := by
      rw [excess]
      omega
    exact (Nat.pow_dvd_pow 2 hexcess).trans (Nat.dvd_mul_left _ _)

theorem roundNat_of_exact (h : Exact p n) : roundNat p n = n := by
  have hmod : n % 2 ^ excess p n = 0 := Nat.mod_eq_zero_of_dvd h.dvd
  have hpos := Nat.two_pow_pos (excess p n)
  simp only [roundNat, hmod]
  rw [if_neg (by omega), Nat.div_mul_cancel h.dvd]

theorem roundInt_of_exact {n : Int} (h : Exact p n.natAbs) : roundInt p n = n := by
  rw [roundInt, roundNat_of_exact h, Int.sign_mul_natAbs]

theorem roundInt_nonpos {n : Int} (h : n < 0) : roundInt p n ≤ 0 := by
  rw [roundInt, Int.sign_eq_neg_one_of_neg h]
  omega

end Mlang.IntegerRounding
