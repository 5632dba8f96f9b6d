import Mlang.IntegerIR
import Mathlib.Tactic.Ring
import Mathlib.Tactic.Positivity
import Mathlib.Tactic.Zify

namespace Mlang.IntegerReadings

open IntegerIR
open BitVec (eq_of_toNat_eq ofInt_add ofInt_mul ofInt_natCast ofInt_toInt ofNat_toNat setWidth_eq toNat_ofInt)

def valueOf (unsigned : Bool) {w : Nat} (X : BitVec w) : Int :=
  if unsigned then X.toNat else X.toInt

variable {w m n : Nat} {u : Bool} {X Y : BitVec w}

theorem valueOf_true (X : BitVec w) : valueOf true X = X.toNat := rfl

theorem valueOf_false (X : BitVec w) : valueOf false X = X.toInt := rfl

theorem ofInt_valueOf (u : Bool) (X : BitVec w) : BitVec.ofInt w (valueOf u X) = X := by
  cases u <;> simp [valueOf]

theorem valueOf_inj (h : valueOf u X = valueOf u Y) : X = Y := by
  rw [← ofInt_valueOf u X, h, ofInt_valueOf]

theorem intCast_eq_ofInt (u : Bool) (X : BitVec w) (m : Nat) :
    IRInt.intCast (!u) m ⟨w, X⟩ = ⟨m, BitVec.ofInt m (valueOf u X)⟩ := by
  cases u with
  | false => simp [IRInt.intCast, valueOf, BitVec.signExtend]
  | true =>
    simp only [IRInt.intCast, valueOf, Bool.not_true, Bool.false_eq_true, if_false, if_true]
    congr 1
    apply eq_of_toNat_eq
    simp

theorem setWidth_ofInt (h : m ≤ n) (x : Int) : (BitVec.ofInt n x).setWidth m = BitVec.ofInt m x := by
  apply eq_of_toNat_eq
  have hd : (2 : Int) ^ m ∣ 2 ^ n := pow_dvd_pow 2 h
  have hn : (0 : Int) ≤ x % 2 ^ n := Int.emod_nonneg _ (by positivity)
  have hm : (0 : Int) ≤ x % 2 ^ m := Int.emod_nonneg _ (by positivity)
  have he : x % 2 ^ n % 2 ^ m = x % 2 ^ m := Int.emod_emod_of_dvd x hd
  simp only [BitVec.toNat_setWidth, toNat_ofInt]
  zify
  rw [Int.toNat_of_nonneg hn, Int.toNat_of_nonneg hm, he]

theorem ofInt_toInt_setWidth (h : m ≤ n) (X : BitVec n) : BitVec.ofInt m X.toInt = X.setWidth m := by
  rw [← setWidth_ofInt h, ofInt_toInt]

theorem ofInt_valueOf_of_le (h : m ≤ n) (u : Bool) (x : Int) :
    BitVec.ofInt m (valueOf u (BitVec.ofInt n x)) = BitVec.ofInt m x := by
  rw [← setWidth_ofInt h, ofInt_valueOf, setWidth_ofInt h]

def Opcode.integers (o : Opcode) (x y : Int) : Option Int :=
  match o with
  | .add => some (x + y)
  | .sub => some (x - y)
  | .mul => some (x * y)
  | .udiv | .sdiv => if y = 0 then none else some (x.tdiv y)
  | .urem | .srem => if y = 0 then none else some (x.tmod y)
  | .and => some (BitVec.ofInt 64 x &&& BitVec.ofInt 64 y).toInt
  | .or => some (BitVec.ofInt 64 x ||| BitVec.ofInt 64 y).toInt
  | .xor => some (BitVec.ofInt 64 x ^^^ BitVec.ofInt 64 y).toInt
  | .shl => if 0 ≤ y ∧ y < 64 then some (x * 2 ^ y.toNat) else none
  | .lshr | .ashr => if 0 ≤ y ∧ y < 64 then some (x / 2 ^ y.toNat) else none

def Predicate.integers (p : Predicate) (x y : Int) : Bool :=
  match p with
  | .eq => x == y
  | .ne => x != y
  | .ult | .slt => x < y
  | .ugt | .sgt => y < x
  | .ule | .sle => x ≤ y
  | .uge | .sge => y ≤ x

def Predicate.Reads (p : Predicate) (u : Bool) : Prop :=
  match p with
  | .eq | .ne => True
  | .ult | .ugt | .ule | .uge => u = true
  | .slt | .sgt | .sle | .sge => u = false

theorem valueOf_beq (u : Bool) (X Y : BitVec w) : (valueOf u X == valueOf u Y) = (X == Y) := by
  rw [Bool.eq_iff_iff, beq_iff_eq, beq_iff_eq]
  exact ⟨valueOf_inj, fun h => by rw [h]⟩

theorem test_eq_integers {p : Predicate} (h : Predicate.Reads p u) (X Y : BitVec w) :
    p.test X Y = Predicate.integers p (valueOf u X) (valueOf u Y) := by
  cases p with
  | eq => exact (valueOf_beq u X Y).symm
  | ne =>
    simp only [Predicate.test, Predicate.integers, bne, valueOf_beq]
  | ult | ugt | ule | uge =>
    obtain rfl : u = true := h
    simp [Predicate.test, Predicate.integers, valueOf, BitVec.ult, BitVec.ule]
  | slt | sgt | sle | sge =>
    obtain rfl : u = false := h
    simp [Predicate.test, Predicate.integers, valueOf, BitVec.slt, BitVec.sle]

def Opcode.Defined (o : Opcode) {w : Nat} (X Y : BitVec w) : Prop :=
  match o with
  | .udiv | .urem => Y ≠ 0
  | .sdiv | .srem => Y ≠ 0 ∧ ¬ (X = BitVec.intMin w ∧ Y = BitVec.allOnes w)
  | .shl | .lshr | .ashr => Y.toNat < w
  | _ => True

theorem Opcode.exec_isSome_iff (o : Opcode) (X Y : BitVec w) :
    (o.exec X Y).isSome ↔ Opcode.Defined o X Y := by
  cases o <;> simp [Opcode.exec, Opcode.Defined]

theorem valueOf_eq_zero_iff (u : Bool) (X : BitVec w) : valueOf u X = 0 ↔ X = 0 := by
  constructor
  · intro h
    rw [← ofInt_valueOf u X, h]
    rfl
  · rintro rfl
    cases u <;> simp [valueOf]

theorem valueOf_of_lt_width (h : Y.toNat < w) (u : Bool) : valueOf u Y = Y.toNat := by
  cases u with
  | true => rfl
  | false =>
    have hp : w - 1 < 2 ^ (w - 1) := Nat.lt_two_pow_self
    have hw : 2 ^ w = 2 * 2 ^ (w - 1) := by
      rw [← pow_succ', Nat.sub_add_cancel (by omega)]
    have hi := BitVec.toInt_eq_toNat_cond Y
    rw [if_pos (by omega)] at hi
    exact hi

/-- An instruction whose result depends on the sign of its operands reads them accordingly. -/
def Opcode.Reads (o : Opcode) (u : Bool) : Prop :=
  match o with
  | .udiv | .urem | .lshr => u = true
  | .sdiv | .srem | .ashr => u = false
  | _ => True

theorem ofInt_two_pow (w n : Nat) : BitVec.ofInt w (2 ^ n) = BitVec.twoPow w n := by
  apply eq_of_toNat_eq
  rw [toNat_ofInt, BitVec.toNat_twoPow]
  norm_cast

theorem ofInt_bitwise (u : Bool) (hw : w ≤ 64) (X : BitVec w) :
    (BitVec.ofInt 64 (valueOf u X)).setWidth w = X := by
  rw [setWidth_ofInt hw, ofInt_valueOf]

theorem exec_sdiv_integers (h : Opcode.Defined .sdiv X Y) :
    Opcode.sdiv.exec X Y = some (BitVec.ofInt w (X.toInt.tdiv Y.toInt)) := by
  obtain ⟨hy, ho⟩ := h
  simp only [Opcode.exec, hy, ho, or_self, if_false, Option.some.injEq]
  apply BitVec.eq_of_toInt_eq
  rw [BitVec.toInt_sdiv, BitVec.toInt_ofInt]

theorem exec_srem_integers (h : Opcode.Defined .srem X Y) :
    Opcode.srem.exec X Y = some (BitVec.ofInt w (X.toInt.tmod Y.toInt)) := by
  obtain ⟨hy, ho⟩ := h
  simp only [Opcode.exec, hy, ho, or_self, if_false, Option.some.injEq]
  rw [← BitVec.toInt_srem, ofInt_toInt]

theorem exec_eq_ofInt_integers {o : Opcode} (hu : Opcode.Reads o u) (hw : w ≤ 64)
    (hd : Opcode.Defined o X Y) : ∃ r, Opcode.integers o (valueOf u X) (valueOf u Y) = some r ∧
    o.exec X Y = some (BitVec.ofInt w r) := by
  cases o with
  | add =>
    refine ⟨_, rfl, ?_⟩
    rw [ofInt_add, ofInt_valueOf, ofInt_valueOf]
    rfl
  | sub =>
    refine ⟨_, rfl, ?_⟩
    rw [Int.sub_eq_add_neg, ofInt_add, BitVec.ofInt_neg, ofInt_valueOf, ofInt_valueOf,
      ← BitVec.sub_eq_add_neg]
    rfl
  | mul =>
    refine ⟨_, rfl, ?_⟩
    rw [ofInt_mul, ofInt_valueOf, ofInt_valueOf]
    rfl
  | and =>
    refine ⟨_, rfl, ?_⟩
    rw [ofInt_toInt_setWidth hw, BitVec.setWidth_and, ofInt_bitwise u hw, ofInt_bitwise u hw]
    rfl
  | or =>
    refine ⟨_, rfl, ?_⟩
    rw [ofInt_toInt_setWidth hw, BitVec.setWidth_or, ofInt_bitwise u hw, ofInt_bitwise u hw]
    rfl
  | xor =>
    refine ⟨_, rfl, ?_⟩
    rw [ofInt_toInt_setWidth hw, BitVec.setWidth_xor, ofInt_bitwise u hw, ofInt_bitwise u hw]
    rfl
  | udiv =>
    obtain rfl : u = true := hu
    refine ⟨_, if_neg (by rwa [valueOf_eq_zero_iff]), ?_⟩
    simp only [Opcode.exec, show Y ≠ 0 from hd, if_false, Option.some.injEq]
    rw [valueOf_true, valueOf_true, ← Int.ofNat_tdiv, ofInt_natCast, ← BitVec.toNat_udiv,
      ofNat_toNat, setWidth_eq]
  | urem =>
    obtain rfl : u = true := hu
    refine ⟨_, if_neg (by rwa [valueOf_eq_zero_iff]), ?_⟩
    simp only [Opcode.exec, show Y ≠ 0 from hd, if_false, Option.some.injEq]
    rw [valueOf_true, valueOf_true, ← Int.ofNat_tmod, ofInt_natCast, ← BitVec.toNat_umod,
      ofNat_toNat, setWidth_eq]
  | sdiv =>
    obtain rfl : u = false := hu
    exact ⟨_, if_neg (by rw [valueOf_eq_zero_iff]; exact hd.1), exec_sdiv_integers hd⟩
  | srem =>
    obtain rfl : u = false := hu
    exact ⟨_, if_neg (by rw [valueOf_eq_zero_iff]; exact hd.1), exec_srem_integers hd⟩
  | shl =>
    have hy := valueOf_of_lt_width hd u
    have hlt : Y.toNat < w := hd
    refine ⟨_, if_pos (by omega), ?_⟩
    rw [ofInt_mul, ofInt_valueOf, ofInt_two_pow, hy, Int.toNat_natCast, ← BitVec.shiftLeft_eq_mul_twoPow]
    simp [Opcode.exec, hlt]
  | lshr =>
    obtain rfl : u = true := hu
    have hy := valueOf_of_lt_width hd true
    have hlt : Y.toNat < w := hd
    refine ⟨_, if_pos (by omega), ?_⟩
    rw [hy, Int.toNat_natCast, valueOf_true]
    simp only [Opcode.exec, hlt, if_true, Option.some.injEq]
    rw [show ((X.toNat : Int) / 2 ^ Y.toNat) = ((X >>> Y.toNat).toNat : Int) by
      rw [BitVec.toNat_ushiftRight, Nat.shiftRight_eq_div_pow]; norm_cast]
    rw [ofInt_natCast, ofNat_toNat, setWidth_eq]
  | ashr =>
    obtain rfl : u = false := hu
    have hy := valueOf_of_lt_width hd false
    have hlt : Y.toNat < w := hd
    refine ⟨_, if_pos (by omega), ?_⟩
    rw [hy, Int.toNat_natCast]
    simp only [Opcode.exec, hlt, if_true, Option.some.injEq]
    rw [valueOf_false, show X.toInt / 2 ^ Y.toNat = (X.sshiftRight Y.toNat).toInt by
      rw [BitVec.toInt_sshiftRight, Int.shiftRight_eq_div_pow]; norm_cast]
    rw [ofInt_toInt]

end Mlang.IntegerReadings
