import Mathlib.Data.BitVec
import Mlang.TypeKinds

namespace Mlang.EmittedIntegers

open TypeKinds

def withoutSign (k : TypeKind) : Bool := isUnsignedType k || k = .bool || k = .bit

def numberOf (k : TypeKind) {width : Nat} (bits : BitVec width) : Int :=
  if withoutSign k then bits.toNat else bits.toInt

/-- The machine integer that is generated for an expression. It has the width of the expression's type,
but an integer literal is an `i64` constant whatever its type. -/
structure EmittedInteger where
  kind : TypeKind
  typeWidth : Nat
  width : Nat
  bits : BitVec width
  lowered : getLLVMIntWidth kind = some typeWidth
  emitted : width = typeWidth ∨ (width = 64 ∧ isIntegerInferKind kind = true)
  fits : if withoutSign kind then bits.toNat < 2 ^ typeWidth
    else -2 ^ (typeWidth - 1) ≤ bits.toInt ∧ bits.toInt < 2 ^ (typeWidth - 1)

theorem u8_fits (bits : BitVec 8) : if withoutSign .u8 then bits.toNat < 2 ^ 8
    else -2 ^ (8 - 1) ≤ bits.toInt ∧ bits.toInt < 2 ^ (8 - 1) :=
  bits.isLt

namespace EmittedInteger

/-- What a variable holds. -/
def ofVariable (kind : TypeKind) {width : Nat} (bits : BitVec width)
    (lowered : getLLVMIntWidth kind = some width)
    (fits : if withoutSign kind then bits.toNat < 2 ^ width
      else -2 ^ (width - 1) ≤ bits.toInt ∧ bits.toInt < 2 ^ (width - 1)) : EmittedInteger :=
  ⟨kind, width, width, bits, lowered, .inl rfl, fits⟩

variable (v : EmittedInteger)

def number : Int := numberOf v.kind v.bits

/-- Its top bit is no part of an unsigned number. -/
def Plain : Prop := withoutSign v.kind = true → v.bits.msb = false

theorem width_le : v.width ≤ 64 := by
  have hwidth := getLLVMIntWidth_le v.lowered
  rcases v.emitted with h | h
  · exact h ▸ hwidth.2
  · exact Nat.le_of_eq h.1

variable {v}

theorem toInt_of_plain (h : v.Plain) : v.bits.toInt = v.number := by
  unfold number numberOf
  split
  · next hunsigned => rw [BitVec.toInt_eq_msb_cond, h hunsigned, if_neg Bool.false_ne_true]
  · rfl

theorem toInt_of_not_plain (h : ¬ v.Plain) :
    v.bits.toInt = v.number - 2 ^ v.width ∧ 0 < v.number ∧ v.number < 2 ^ v.width := by
  obtain ⟨hunsigned, hmsb⟩ : withoutSign v.kind = true ∧ v.bits.msb = true := by
    simpa [Plain] using h
  have hint : v.bits.toInt = v.bits.toNat - 2 ^ v.width := by
    rw [BitVec.toInt_eq_msb_cond, if_pos hmsb]
    push_cast
    rfl
  have htop := BitVec.msb_eq_true_iff_two_mul_ge.1 hmsb
  have hlt : (v.bits.toNat : Int) < 2 ^ v.width := by exact_mod_cast v.bits.isLt
  have hpos := Nat.two_pow_pos v.width
  rw [number, numberOf, if_pos hunsigned]
  exact ⟨hint, by omega, hlt⟩

theorem plain_iff : v.Plain ↔ v.number = v.bits.toInt := by
  refine ⟨fun h => (toInt_of_plain h).symm, fun hsame => by_contra fun h => ?_⟩
  obtain ⟨hint, -, -⟩ := toInt_of_not_plain h
  have hpos : (0 : Int) < 2 ^ v.width := Int.pow_pos (by decide)
  omega

end EmittedInteger

end Mlang.EmittedIntegers
