import Mlang.IntegerIR
import Mathlib.Tactic.Ring
import Mathlib.Tactic.Linarith

namespace Mlang.SignedInstructions

open IntegerIR
open BitVec (eq_of_toNat_eq toNat_inj toNat_udiv toNat_umod udiv_eq)

variable {w : Nat}

theorem two_pow_eq_half (hw : 2 ≤ w) : 2 ^ w = 2 * 2 ^ (w - 1) ∧ 2 ≤ 2 ^ (w - 1) := by
  obtain ⟨n, rfl⟩ : ∃ n, w = n + 2 := ⟨w - 2, by omega⟩
  have hn : 0 < 2 ^ n := Nat.two_pow_pos n
  simp only [Nat.add_one_sub_one, pow_succ]
  omega

theorem msb_true_iff (x : BitVec w) : x.msb = true ↔ 2 ^ (w - 1) ≤ x.toNat := by
  rw [BitVec.msb_eq_decide, decide_eq_true_iff]

theorem msb_false_iff (x : BitVec w) : x.msb = false ↔ x.toNat < 2 ^ (w - 1) := by
  rw [BitVec.msb_eq_decide, decide_eq_false_iff_not, Nat.not_le]

theorem toNat_neg_pos {x : BitVec w} (hx : x.toNat ≠ 0) : (-x).toNat = 2 ^ w - x.toNat := by
  rw [BitVec.toNat_neg, Nat.mod_eq_of_lt]
  have hlt := x.isLt
  omega

theorem toNat_neg_of_msb (hw : 2 ≤ w) {x : BitVec w} (hx : x.msb = true) :
    (-x).toNat = 2 ^ w - x.toNat ∧ 0 < (-x).toNat ∧ (-x).toNat ≤ 2 ^ (w - 1) := by
  obtain ⟨hp, hh⟩ := two_pow_eq_half hw
  have hle := (msb_true_iff x).mp hx
  have hlt := x.isLt
  rw [toNat_neg_pos (by omega)]
  omega

theorem neg_eq_zero_iff (x : BitVec w) : -x = 0 ↔ x = 0 := by
  simp

def SdivAgrees (x y : BitVec w) : Prop :=
  match x.msb, y.msb with
  | false, false => True
  | false, true => x.toNat < (-y).toNat
  | true, false => y = 1
  | true, true => x = y

def SremAgrees (x y : BitVec w) : Prop :=
  match x.msb, y.msb with
  | false, false => True
  | false, true => x.toNat < (-y).toNat
  | true, false => x % y = 0 ∧ -x % y = 0
  | true, true => x = y

instance (x y : BitVec w) : Decidable (SdivAgrees x y) := by
  unfold SdivAgrees
  split <;> infer_instance

instance (x y : BitVec w) : Decidable (SremAgrees x y) := by
  unfold SremAgrees
  split <;> infer_instance

theorem sdiv_eq_udiv_iff (hw : 2 ≤ w) (x y : BitVec w) (hy : y ≠ 0) :
    x.sdiv y = x / y ↔ SdivAgrees x y := by
  obtain ⟨hp, hh⟩ := two_pow_eq_half hw
  have hyz : y.toNat ≠ 0 := fun h => hy (eq_of_toNat_eq (by simpa using h))
  have hxlt := x.isLt
  have hylt := y.isLt
  rw [BitVec.sdiv_eq]
  unfold SdivAgrees
  cases hx : x.msb with
  | false =>
    have hxh := (msb_false_iff x).mp hx
    cases hy' : y.msb with
    | false => simp [udiv_eq]
    | true =>
      have hyh := (msb_true_iff y).mp hy'
      obtain ⟨hn, hnpos, -⟩ := toNat_neg_of_msb hw hy'
      have hz : x / y = 0 := by
        apply eq_of_toNat_eq
        rw [toNat_udiv, Nat.div_eq_of_lt (by omega)]
        rfl
      simp only [udiv_eq, hz, neg_eq_zero_iff]
      rw [← toNat_inj, toNat_udiv]
      simpa using Nat.div_eq_zero_iff_lt hnpos
  | true =>
    have hxh := (msb_true_iff x).mp hx
    obtain ⟨hn, hnpos, hnle⟩ := toNat_neg_of_msb hw hx
    cases hy' : y.msb with
    | false =>
      have hyh := (msb_false_iff y).mp hy'
      simp only [udiv_eq]
      constructor
      · intro h
        by_contra hne
        have hy2 : 2 ≤ y.toNat := by
          by_contra hlt
          apply hne
          apply eq_of_toNat_eq
          have h1 : (1 : BitVec w).toNat = 1 := by
            rw [show (1 : BitVec w) = BitVec.ofNat w 1 from rfl, BitVec.toNat_ofNat,
              Nat.mod_eq_of_lt (by omega)]
          omega
        have hq : (x / y).toNat ≤ x.toNat / 2 := by
          rw [toNat_udiv]
          exact Nat.div_le_div_left hy2 (by omega)
        have hqpos : 0 < (x / y).toNat := by
          rw [toNat_udiv]
          exact Nat.div_pos (by omega) (by omega)
        have hr : (-x / y).toNat ≤ (-x).toNat / 2 := by
          rw [toNat_udiv]
          exact Nat.div_le_div_left hy2 (by omega)
        rw [← h] at hqpos hq
        have hrz : (-x / y).toNat ≠ 0 := by
          intro hz
          have hz' : -x / y = 0 := eq_of_toNat_eq (by simpa using hz)
          rw [hz'] at hqpos
          simp at hqpos
        rw [toNat_neg_pos hrz] at hq
        omega
      · rintro rfl
        simp
    | true =>
      have hyh := (msb_true_iff y).mp hy'
      obtain ⟨hny, hnypos, -⟩ := toNat_neg_of_msb hw hy'
      simp only [udiv_eq]
      rw [← toNat_inj, toNat_udiv, toNat_udiv]
      constructor
      · intro h
        rcases Nat.lt_trichotomy x.toNat y.toNat with hlt | heq | hgt
        · rw [Nat.div_eq_of_lt hlt] at h
          have hpos : 0 < (-x).toNat / (-y).toNat := Nat.div_pos (by omega) hnypos
          omega
        · exact eq_of_toNat_eq heq
        · have hlt : (-x).toNat < (-y).toNat := by omega
          rw [Nat.div_eq_of_lt hlt] at h
          have hpos : 0 < x.toNat / y.toNat := Nat.div_pos (by omega) (by omega)
          omega
      · rintro rfl
        rw [Nat.div_self hnypos, Nat.div_self (by omega)]

theorem srem_eq_umod_iff (hw : 2 ≤ w) (x y : BitVec w) (hy : y ≠ 0) :
    x.srem y = x % y ↔ SremAgrees x y := by
  obtain ⟨hp, hh⟩ := two_pow_eq_half hw
  have hyz : y.toNat ≠ 0 := fun h => hy (eq_of_toNat_eq (by simpa using h))
  have hxlt := x.isLt
  have hylt := y.isLt
  rw [BitVec.srem_eq]
  unfold SremAgrees
  cases hx : x.msb with
  | false =>
    have hxh := (msb_false_iff x).mp hx
    cases hy' : y.msb with
    | false => simp
    | true =>
      have hyh := (msb_true_iff y).mp hy'
      obtain ⟨hn, hnpos, -⟩ := toNat_neg_of_msb hw hy'
      simp only
      rw [← toNat_inj, toNat_umod, toNat_umod,
        Nat.mod_eq_of_lt (show x.toNat < y.toNat by omega)]
      constructor
      · intro h
        rw [← h]
        exact Nat.mod_lt _ hnpos
      · exact Nat.mod_eq_of_lt
  | true =>
    have hxh := (msb_true_iff x).mp hx
    obtain ⟨hn, hnpos, hnle⟩ := toNat_neg_of_msb hw hx
    cases hy' : y.msb with
    | false =>
      have hyh := (msb_false_iff y).mp hy'
      simp only
      constructor
      · intro h
        have hm : (x % y).toNat < y.toNat := by
          rw [toNat_umod]
          exact Nat.mod_lt _ (by omega)
        have hr : (-x % y).toNat < y.toNat := by
          rw [toNat_umod]
          exact Nat.mod_lt _ (by omega)
        have hz : -x % y = 0 := by
          by_contra hne
          have hnz : (-x % y).toNat ≠ 0 := fun h0 =>
            hne (eq_of_toNat_eq (by simpa using h0))
          rw [← h, toNat_neg_pos hnz] at hm
          omega
        refine ⟨?_, hz⟩
        rw [← h, hz]
        simp
      · rintro ⟨h1, h2⟩
        rw [h1, h2]
        simp
    | true =>
      have hyh := (msb_true_iff y).mp hy'
      obtain ⟨hny, hnypos, -⟩ := toNat_neg_of_msb hw hy'
      simp only
      constructor
      · intro h
        rcases Nat.lt_trichotomy x.toNat y.toNat with hlt | heq | hgt
        · exfalso
          have hm : (-x % -y).toNat < (-y).toNat := by
            rw [toNat_umod]
            exact Nat.mod_lt _ hnypos
          have hu : (x % y).toNat = x.toNat := by
            rw [toNat_umod, Nat.mod_eq_of_lt hlt]
          have hnz : (-x % -y).toNat ≠ 0 := by
            intro h0
            have h0' : -x % -y = 0 := eq_of_toNat_eq (by simpa using h0)
            rw [← h, h0'] at hu
            simp at hu
            omega
          rw [← h, toNat_neg_pos hnz] at hu
          omega
        · exact eq_of_toNat_eq heq
        · exfalso
          have hlt : (-x).toNat < (-y).toNat := by omega
          have hm : -x % -y = -x := by
            apply eq_of_toNat_eq
            rw [toNat_umod, Nat.mod_eq_of_lt hlt]
          have hu : (x % y).toNat = x.toNat - y.toNat := by
            rw [toNat_umod, Nat.mod_eq_sub_mod (by omega), Nat.mod_eq_of_lt (by omega)]
          rw [← h, hm] at hu
          simp at hu
          omega
      · rintro rfl
        simp [BitVec.umod_self]

theorem ashr_eq_lshr_iff (x : BitVec w) {n : Nat} (hn : n < w) :
    x.sshiftRight n = x >>> n ↔ x.msb = false ∨ n = 0 := by
  constructor
  · intro h
    rcases Nat.eq_zero_or_pos n with hz | hpos
    · exact Or.inr hz
    · left
      have hm := congrArg BitVec.msb h
      rw [BitVec.msb_sshiftRight] at hm
      rw [hm, BitVec.msb_ushiftRight]
      simp [Nat.pos_iff_ne_zero.mp hpos]
  · rintro (h | rfl)
    · exact BitVec.sshiftRight_eq_of_msb_false h
    · simp

theorem slt_eq_ult_iff (x y : BitVec w) : x.slt y = x.ult y ↔ x.msb = y.msb := by
  rw [BitVec.slt_eq_ult]
  cases x.msb <;> cases y.msb <;> cases x.ult y <;> simp

theorem sle_eq_ule_iff (x y : BitVec w) : x.sle y = x.ule y ↔ x.msb = y.msb := by
  rw [BitVec.sle_eq_ule]
  cases x.msb <;> cases y.msb <;> cases x.ule y <;> simp

theorem overflow_disagrees (hw : 2 ≤ w) :
    ¬ SdivAgrees (BitVec.intMin w) (BitVec.allOnes w) ∧
      ¬ SremAgrees (BitVec.intMin w) (BitVec.allOnes w) := by
  obtain ⟨hp, hh⟩ := two_pow_eq_half hw
  have h1 : (BitVec.intMin w).toNat = 2 ^ (w - 1) := by
    rw [BitVec.toNat_intMin, Nat.mod_eq_of_lt (by omega)]
  have h2 : (BitVec.allOnes w).toNat = 2 ^ w - 1 := BitVec.toNat_allOnes
  have hm1 : (BitVec.intMin w).msb = true := (msb_true_iff _).mpr (by omega)
  have hm2 : (BitVec.allOnes w).msb = true := (msb_true_iff _).mpr (by omega)
  have hne : BitVec.intMin w ≠ BitVec.allOnes w := fun h => by
    rw [h] at h1
    omega
  exact ⟨by simpa [SdivAgrees, hm1, hm2] using hne, by simpa [SremAgrees, hm1, hm2] using hne⟩

theorem exec_sdiv_eq_udiv_iff (hw : 2 ≤ w) (x y : BitVec w) (hy : y ≠ 0) :
    Opcode.sdiv.exec x y = Opcode.udiv.exec x y ↔ SdivAgrees x y := by
  by_cases ho : x = BitVec.intMin w ∧ y = BitVec.allOnes w
  · obtain ⟨rfl, rfl⟩ := ho
    simpa [Opcode.exec, hy, show w ≠ 0 by omega] using (overflow_disagrees hw).1
  · simp only [Opcode.exec, hy, ho, or_self, if_false, Option.some.injEq]
    exact sdiv_eq_udiv_iff hw x y hy

theorem exec_srem_eq_urem_iff (hw : 2 ≤ w) (x y : BitVec w) (hy : y ≠ 0) :
    Opcode.srem.exec x y = Opcode.urem.exec x y ↔ SremAgrees x y := by
  by_cases ho : x = BitVec.intMin w ∧ y = BitVec.allOnes w
  · obtain ⟨rfl, rfl⟩ := ho
    simpa [Opcode.exec, hy, show w ≠ 0 by omega] using (overflow_disagrees hw).2
  · simp only [Opcode.exec, hy, ho, or_self, if_false, Option.some.injEq]
    exact srem_eq_umod_iff hw x y hy

theorem exec_ashr_eq_lshr_iff (x y : BitVec w) (hy : y.toNat < w) :
    Opcode.ashr.exec x y = Opcode.lshr.exec x y ↔ x.msb = false ∨ y.toNat = 0 := by
  simp only [Opcode.exec, hy, if_true, Option.some.injEq]
  exact ashr_eq_lshr_iff x hy

end Mlang.SignedInstructions
