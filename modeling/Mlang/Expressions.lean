import Mlang.TypeKinds
import Mlang.IntegerIR

namespace Mlang.Expressions

open TypeKinds IntegerIR

inductive UnaryOp
  | neg | not | bitNot
  deriving DecidableEq

inductive BinaryOp
  | plus | minus | multiply | divide | modulo | bitAnd | bitOr | bitXor | shl | shr
  | lt | gt | le | ge | eq | ne | and | or
  deriving DecidableEq

inductive ExpressionNode
  | intLiteral (value : BitVec 64) (explicitType : Option TypeKind)
  | boolLiteral (value : Bool)
  | identifier (name : String)
  | cast (targetType : TypeKind) (expression : ExpressionNode)
  | unaryOp (op : UnaryOp) (operand : ExpressionNode)
  | binaryOp (op : BinaryOp) (left right : ExpressionNode)
  | ternary (condition trueExpr falseExpr : ExpressionNode)
  deriving DecidableEq

def BinaryOp.yieldsBool : BinaryOp → Bool
  | .lt | .gt | .le | .ge | .eq | .ne | .and | .or => true
  | _ => false

def BinaryOp.isShift : BinaryOp → Bool
  | .shl | .shr => true
  | _ => false

def BinaryOp.isLogical : BinaryOp → Bool
  | .and | .or => true
  | _ => false

def BinaryOp.shortCircuits (op : BinaryOp) (left : Bool) : Bool :=
  op == .and && !left || op == .or && left

variable (variableTypes : String → Option TypeKind)

def getExpressionTypeKind : ExpressionNode → TypeKind
  | .boolLiteral _ => .bool
  | .intLiteral _ _ => .int
  | .cast targetType _ => targetType
  | .identifier name => (variableTypes name).getD .int
  | .binaryOp op left right =>
    if op.yieldsBool then .bool
    else if getExpressionTypeKind left = .double ∨ getExpressionTypeKind right = .double then
      .double
    else if getExpressionTypeKind left = .float ∨ getExpressionTypeKind right = .float then
      .float
    else .int
  | .unaryOp _ _ | .ternary _ _ _ => .int

def getLValueType : ExpressionNode → Option TypeKind
  | .identifier name => variableTypes name
  | _ => none

def resolveExprKind (expr : ExpressionNode) : TypeKind :=
  (getLValueType variableTypes expr).getD (getExpressionTypeKind variableTypes expr)

def useUnsignedIntOps (left right : ExpressionNode) : Bool :=
  isUnsignedType (resolveExprKind variableTypes left) ||
    isUnsignedType (resolveExprKind variableTypes right)

def inferExpressionTypeNode : ExpressionNode → Option TypeKind
  | .identifier name => variableTypes name
  | .boolLiteral _ => some .bool
  | .intLiteral _ explicitType => some (explicitType.getD .i64)
  | .cast targetType _ => some targetType
  | .unaryOp .not _ => some .bool
  | .unaryOp _ operand => inferExpressionTypeNode operand
  | .ternary _ trueExpr falseExpr =>
    (inferExpressionTypeNode trueExpr).or (inferExpressionTypeNode falseExpr)
  | .binaryOp op left right =>
    if op.yieldsBool then some .bool
    else (inferExpressionTypeNode left).or (inferExpressionTypeNode right)

def generatedWidth : ExpressionNode → Option Nat
  | .intLiteral _ _ => some 64
  | .boolLiteral _ => some 1
  | .identifier name => (variableTypes name).bind getLLVMIntWidth
  | .cast targetType _ => getLLVMIntWidth targetType
  | .unaryOp .not _ => some 1
  | .unaryOp _ operand => generatedWidth operand
  | .binaryOp op left right =>
    if op.yieldsBool then some 1
    else if op.isShift then generatedWidth left
    else do return max (← generatedWidth left) (← generatedWidth right)
  | .ternary _ trueExpr falseExpr => do
    return max (← generatedWidth trueExpr) (← generatedWidth falseExpr)

def arithmeticOpcode (useUnsigned : Bool) : BinaryOp → Option Opcode
  | .plus => some .add
  | .minus => some .sub
  | .multiply => some .mul
  | .divide => some (if useUnsigned then .udiv else .sdiv)
  | .modulo => some (if useUnsigned then .urem else .srem)
  | .bitAnd => some .and
  | .bitOr => some .or
  | .bitXor => some .xor
  | .shl => some .shl
  | .shr => some (if useUnsigned then .lshr else .ashr)
  | _ => none

def comparisonPredicate (useUnsigned : Bool) : BinaryOp → Option Predicate
  | .lt => some (if useUnsigned then .ult else .slt)
  | .gt => some (if useUnsigned then .ugt else .sgt)
  | .le => some (if useUnsigned then .ule else .sle)
  | .ge => some (if useUnsigned then .uge else .sge)
  | .eq => some .eq
  | .ne => some .ne
  | _ => none

/-- A shift amount is converted to the type of the shifted value. -/
def matchOperands (useUnsigned : Bool) (op : BinaryOp) (L R : IRInt) : IRInt × IRInt :=
  if op.isShift then (L, R.intCast false L.width)
  else if R.width < L.width then (L, R.intCast (!useUnsigned) L.width)
  else if L.width < R.width then (L.intCast (!useUnsigned) R.width, R)
  else (L, R)

def areBools (L R : IRInt) : Bool := L.width == 1 && R.width == 1

/-- Two bools are compared without a sign, whatever their kinds. -/
def generateBinaryInstruction (useUnsigned : Bool) (op : BinaryOp) (L R : IRInt) :
    Option IRInt :=
  let operands := matchOperands useUnsigned op L R
  match arithmeticOpcode useUnsigned op with
  | some opcode => IRInt.binary opcode operands.1 operands.2
  | none =>
    (comparisonPredicate (useUnsigned || areBools L R) op).map
      fun predicate => IRInt.compare predicate operands.1 operands.2

def generateUnaryOp (op : UnaryOp) (value : IRInt) : IRInt :=
  match op with
  | .neg => ⟨value.width, -value.bits⟩
  | .not => .ofBool (!value.isNonzero)
  | .bitNot => ⟨value.width, ~~~value.bits⟩

/-- Casts to integer types and to bool. -/
def generateCastExpression (targetType : TypeKind) (sourceType : Option TypeKind)
    (value : IRInt) : Option IRInt :=
  if targetType = .bit then none
  else
    (getLLVMIntWidth targetType).map fun targetWidth =>
      if value.width = targetWidth then value
      else
        let sourceUnsigned := value.width == 1 || sourceType.any isUnsignedType
        value.intCast (!sourceUnsigned) targetWidth

structure CodegenEnv where
  variableTypes : String → Option TypeKind
  namedValues : String → Option IRInt

/-- The value the emitted instructions compute. -/
def generateExpression (env : CodegenEnv) : ExpressionNode → Option IRInt
  | .intLiteral value _ => some ⟨64, value⟩
  | .boolLiteral value => some (.ofBool value)
  | .identifier name => env.namedValues name
  | .cast targetType expression => do
    let value ← generateExpression env expression
    generateCastExpression targetType (inferExpressionTypeNode env.variableTypes expression) value
  | .unaryOp op operand => do
    let value ← generateExpression env operand
    return generateUnaryOp op value
  | .binaryOp op left right => do
    let L ← generateExpression env left
    if op.shortCircuits L.isNonzero then return .ofBool L.isNonzero
    let R ← generateExpression env right
    if op.isLogical then return .ofBool R.isNonzero
    else
      generateBinaryInstruction (useUnsignedIntOps env.variableTypes left right) op L R
  | .ternary condition trueExpr falseExpr => do
    let C ← generateExpression env condition
    let trueWidth ← generatedWidth env.variableTypes trueExpr
    let falseWidth ← generatedWidth env.variableTypes falseExpr
    let value ← if C.isNonzero then generateExpression env trueExpr
      else generateExpression env falseExpr
    return value.intCast true (max trueWidth falseWidth)

variable {op : BinaryOp} {w : Nat} {u : Bool} {L R : IRInt} {x y : BitVec w}

theorem BinaryOp.shortCircuits_of_not_logical (h : op.isLogical = false) (b : Bool) :
    op.shortCircuits b = false := by
  cases op <;> first | rfl | exact absurd h (by decide)

theorem matchOperands_same_width (u : Bool) (op : BinaryOp) (x y : BitVec w) :
    matchOperands u op ⟨w, x⟩ ⟨w, y⟩ = (⟨w, x⟩, ⟨w, y⟩) := by
  unfold matchOperands
  by_cases hs : op.isShift = true
  · have hc : IRInt.intCast false w ⟨w, y⟩ = ⟨w, y⟩ := IRInt.intCast_self false ⟨w, y⟩
    simp only [hs, if_true, hc]
  · simp [hs]

theorem generateBinaryInstruction_of_opcode {o : Opcode} (h : arithmeticOpcode u op = some o)
    (hm : matchOperands u op L R = (⟨w, x⟩, ⟨w, y⟩)) :
    generateBinaryInstruction u op L R = (o.exec x y).map (IRInt.mk w) := by
  simp only [generateBinaryInstruction, h, hm, IRInt.binary_mk]

theorem generateBinaryInstruction_of_predicate {p : Predicate}
    (h : comparisonPredicate (u || areBools L R) op = some p)
    (hm : matchOperands u op L R = (⟨w, x⟩, ⟨w, y⟩)) :
    generateBinaryInstruction u op L R = some (IRInt.ofBool (p.test x y)) := by
  have ha : arithmeticOpcode u op = none := by
    cases op <;> simp [comparisonPredicate] at h <;> rfl
  simp only [generateBinaryInstruction, ha, h, hm, IRInt.compare_mk, Option.map_some]

end Mlang.Expressions
