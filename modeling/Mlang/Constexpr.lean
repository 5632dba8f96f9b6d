import Mlang.Expressions

namespace Mlang.Constexpr

open TypeKinds IntegerIR Expressions

/-- An integer or bool value of compile-time evaluation. An integer is kept on 64 bits whatever its
kind; `boolValue` and `intValue` of the source always describe the same value. -/
inductive ConstexprValue
  | int (intValue : BitVec 64) (typeKind : TypeKind)
  | bool (boolValue : Bool)
  deriving DecidableEq

namespace ConstexprValue

def typeKind : ConstexprValue → TypeKind
  | .int _ typeKind => typeKind
  | .bool _ => .bool

def constexprValueAsInt : ConstexprValue → BitVec 64
  | .int intValue _ => intValue
  | .bool boolValue => if boolValue then 1 else 0

def boolValue : ConstexprValue → Bool
  | .int intValue _ => intValue != 0
  | .bool boolValue => boolValue

theorem boolValue_eq (v : ConstexprValue) : v.boolValue = (v.constexprValueAsInt != 0) := by
  cases v with
  | int x k => rfl
  | bool b => cases b <;> rfl

end ConstexprValue

open ConstexprValue

def coerceConstexprValueToKind (value : ConstexprValue) (targetKind : TypeKind) :
    Option ConstexprValue :=
  let targetKind := normalizeInferredKind targetKind
  if targetKind = .bool then some (.bool value.boolValue)
  else if isIntegerInferKind targetKind then some (.int value.constexprValueAsInt targetKind)
  else none

def buildLLVMConstantFromConstexprValue (value : ConstexprValue) (targetType : TypeKind) :
    Option IRInt :=
  let kind := normalizeInferredKind targetType
  if kind = .bool then some (.ofBool value.boolValue)
  else (getLLVMIntWidth kind).map fun width => ⟨width, value.constexprValueAsInt.setWidth width⟩

def evalArithmetic (unsignedOps : Bool) (op : BinaryOp) (lhs rhs : BitVec 64) :
    Option (BitVec 64) :=
  match op with
  | .plus => some (lhs + rhs)
  | .minus => some (lhs - rhs)
  | .multiply => some (lhs * rhs)
  | .divide =>
    if rhs = 0 then none
    else if unsignedOps then some (lhs / rhs)
    else if lhs = BitVec.intMin 64 ∧ rhs = BitVec.allOnes 64 then none
    else some (lhs.sdiv rhs)
  | .modulo =>
    if rhs = 0 then none
    else if unsignedOps then some (lhs % rhs)
    else if lhs = BitVec.intMin 64 ∧ rhs = BitVec.allOnes 64 then none
    else some (lhs.srem rhs)
  | .bitAnd => some (lhs &&& rhs)
  | .bitOr => some (lhs ||| rhs)
  | .bitXor => some (lhs ^^^ rhs)
  | .shl => if rhs.toInt < 0 ∨ 64 ≤ rhs.toNat then none else some (lhs <<< rhs.toNat)
  | .shr =>
    if rhs.toInt < 0 ∨ 64 ≤ rhs.toNat then none
    else if unsignedOps then some (lhs >>> rhs.toNat)
    else some (lhs.sshiftRight rhs.toNat)
  | _ => none

def evalComparison (unsignedOps : Bool) (op : BinaryOp) (lhs rhs : BitVec 64) : Option Bool :=
  match op with
  | .lt => some (if unsignedOps then lhs.ult rhs else lhs.slt rhs)
  | .gt => some (if unsignedOps then rhs.ult lhs else rhs.slt lhs)
  | .le => some (if unsignedOps then lhs.ule rhs else lhs.sle rhs)
  | .ge => some (if unsignedOps then rhs.ule lhs else rhs.sle lhs)
  | .eq => some (lhs == rhs)
  | .ne => some (lhs != rhs)
  | .and => some (lhs != 0 && rhs != 0)
  | .or => some (lhs != 0 || rhs != 0)
  | _ => none

def unsignedOperands (l r : TypeKind) : Bool := isUnsignedType l || isUnsignedType r

def integerResultKind (l r : TypeKind) : TypeKind :=
  if unsignedOperands l r && !isUnsignedType l then r else l

def evalBinary (op : BinaryOp) (lhsValue rhsValue : ConstexprValue) : Option ConstexprValue :=
  let unsignedOps := unsignedOperands lhsValue.typeKind rhsValue.typeKind
  let lhs := lhsValue.constexprValueAsInt
  let rhs := rhsValue.constexprValueAsInt
  if op.yieldsBool then (evalComparison unsignedOps op lhs rhs).map .bool
  else
    (evalArithmetic unsignedOps op lhs rhs).map
      fun result => .int result (integerResultKind lhsValue.typeKind rhsValue.typeKind)

def evalUnary (op : UnaryOp) (operand : ConstexprValue) : ConstexprValue :=
  match op with
  | .neg => .int (-operand.constexprValueAsInt) operand.typeKind
  | .not => .bool (!operand.boolValue)
  | .bitNot => .int (~~~operand.constexprValueAsInt) operand.typeKind

/-- Evaluation at compile time. `lookup` reads the environment and the compile-time constants. -/
def evalConstexprExpression (lookup : String → Option ConstexprValue) (depth : Nat)
    (expr : ExpressionNode) : Option ConstexprValue :=
  if depth > 64 then none
  else
    match expr with
    | .intLiteral value explicitType => some (.int value (explicitType.getD .i64))
    | .boolLiteral value => some (.bool value)
    | .identifier name => lookup name
    | .cast targetType expression => do
      let out ← evalConstexprExpression lookup (depth + 1) expression
      coerceConstexprValueToKind out targetType
    | .unaryOp op operand => do
      let operand ← evalConstexprExpression lookup (depth + 1) operand
      return evalUnary op operand
    | .binaryOp op left right => do
      let lhsValue ← evalConstexprExpression lookup (depth + 1) left
      if op.shortCircuits lhsValue.boolValue then return .bool lhsValue.boolValue
      let rhsValue ← evalConstexprExpression lookup (depth + 1) right
      evalBinary op lhsValue rhsValue
    | .ternary condition trueExpr falseExpr => do
      let condValue ← evalConstexprExpression lookup (depth + 1) condition
      if condValue.boolValue then evalConstexprExpression lookup (depth + 1) trueExpr
      else evalConstexprExpression lookup (depth + 1) falseExpr

theorem evalArithmetic_eq_exec {u : Bool} {op : BinaryOp} {o : Opcode}
    (h : arithmeticOpcode u op = some o) (lhs rhs : BitVec 64) :
    evalArithmetic u op lhs rhs = o.exec lhs rhs := by
  have hs : (rhs.toInt < 0 ∨ 64 ≤ rhs.toNat) ↔ ¬ rhs.toNat < 64 := by
    have hi := BitVec.toInt_eq_toNat_cond rhs
    have hlt := rhs.isLt
    split at hi <;> omega
  cases op with
  | divide | modulo =>
    cases u <;> cases h
    · by_cases hz : rhs = 0 <;>
        simp only [evalArithmetic, Opcode.exec, hz, if_true, if_false, true_or, false_or,
          Bool.false_eq_true]
    · rfl
  | shl =>
    cases h
    by_cases hlt : rhs.toNat < 64 <;> simp [evalArithmetic, Opcode.exec, hs, hlt]
  | shr =>
    by_cases hlt : rhs.toNat < 64 <;> cases u <;> obtain rfl := Option.some.inj h <;>
      simp [evalArithmetic, Opcode.exec, hs, hlt]
  | plus | minus | multiply | bitAnd | bitOr | bitXor =>
    cases h
    rfl
  | lt | gt | le | ge | eq | ne | and | or => simp [arithmeticOpcode] at h

theorem evalComparison_eq_test {u : Bool} {op : BinaryOp} {p : Predicate}
    (h : comparisonPredicate u op = some p) (lhs rhs : BitVec 64) :
    evalComparison u op lhs rhs = some (p.test lhs rhs) := by
  cases op with
  | lt | gt | le | ge =>
    cases u <;> obtain rfl := Option.some.inj h <;> rfl
  | eq | ne =>
    cases h
    rfl
  | plus | minus | multiply | divide | modulo | bitAnd | bitOr | bitXor | shl | shr | and | or =>
    simp [comparisonPredicate] at h

end Mlang.Constexpr
