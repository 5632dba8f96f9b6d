import Mathlib.Logic.Basic

namespace Mlang.TypeKinds

inductive TypeKind
  | void | bool | bit | int | float | double | string | str8 | str16 | list | map | tuple
  | ptr | traitObject | struct | i8 | i16 | i32 | i64 | u8 | u16 | u32 | u64 | ref | refMut
  | function
  deriving DecidableEq

def isUnsignedType : TypeKind → Bool
  | .u8 | .u16 | .u32 | .u64 => true
  | _ => false

def normalizeInferredKind : TypeKind → TypeKind
  | .int => .i32
  | .str8 | .str16 => .string
  | k => k

def isIntegerInferKind (k : TypeKind) : Bool :=
  match normalizeInferredKind k with
  | .i8 | .i16 | .i32 | .i64 | .u8 | .u16 | .u32 | .u64 => true
  | _ => false

def isFloatInferKind (k : TypeKind) : Bool :=
  normalizeInferredKind k = .float || normalizeInferredKind k = .double

def getLLVMIntWidth : TypeKind → Option Nat
  | .bool | .bit => some 1
  | .i8 | .u8 => some 8
  | .i16 | .u16 => some 16
  | .int | .i32 | .u32 => some 32
  | .i64 | .u64 => some 64
  | _ => none

theorem getLLVMIntWidth_u8 : getLLVMIntWidth .u8 = some 8 := rfl

theorem normalizeInferredKind_idem (k : TypeKind) :
    normalizeInferredKind (normalizeInferredKind k) = normalizeInferredKind k := by
  cases k <;> rfl

theorem getLLVMIntWidth_normalize (k : TypeKind) :
    getLLVMIntWidth (normalizeInferredKind k) = getLLVMIntWidth k := by
  cases k <;> rfl

theorem getLLVMIntWidth_le {k : TypeKind} {w : Nat} (h : getLLVMIntWidth k = some w) :
    0 < w ∧ w ≤ 64 := by
  cases k <;> simp [getLLVMIntWidth] at h <;> omega

end Mlang.TypeKinds
