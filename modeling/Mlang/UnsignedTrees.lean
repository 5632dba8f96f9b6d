import Mathlib
import Mlang.Expressions
import Mlang.SignedInstructions

namespace Mlang.UnsignedTrees

open TypeKinds IntegerIR Expressions SignedInstructions Option

structure UnsignedType where
  kind : TypeKind
  width : Nat
  unsigned : isUnsignedType kind = true
  lowered : getLLVMIntWidth kind = some width

def u8 : UnsignedType := ⟨.u8, 8, rfl, getLLVMIntWidth_u8⟩

theorem UnsignedType.two_le (T : UnsignedType) : 2 ≤ T.width := by
  obtain ⟨k, w, hu, hl⟩ := T
  cases k <;> simp [isUnsignedType] at hu <;> simp [getLLVMIntWidth] at hl <;> simp only <;> omega

def isArithmetic (op : BinaryOp) : Bool := (arithmeticOpcode true op).isSome

def isComparison (op : BinaryOp) : Bool := (comparisonPredicate true op).isSome

inductive Tree
  | leaf (name : String)
  | operation (op : BinaryOp) (arithmetic : isArithmetic op = true) (left right : Tree)

inductive Root
  | tree (t : Tree)
  | comparison (op : BinaryOp) (compares : isComparison op = true) (left right : Tree)

variable {op : BinaryOp} {r l : Tree}

namespace Tree

def toExpression : Tree → ExpressionNode
  | .leaf name => .identifier name
  | .operation op _ left right => .binaryOp op left.toExpression right.toExpression

def isLeaf : Tree → Bool
  | .leaf _ => true
  | .operation _ _ _ _ => false

def subtrees : Tree → List Tree
  | .leaf name => [.leaf name]
  | .operation op h left right => .operation op h left right :: (left.subtrees ++ right.subtrees)

theorem mem_subtrees_self (t : Tree) : t ∈ t.subtrees := by
  cases t <;> simp [subtrees]

theorem forall_subtrees_operation {h : isArithmetic op = true} (P : Tree → Prop) :
    (∀ s ∈ (operation op h l r).subtrees, P s) ↔ P (operation op h l r) ∧ (∀ s ∈ l.subtrees, P s) ∧
    ∀ s ∈ r.subtrees, P s := by
  rw [subtrees, List.forall_mem_cons, List.forall_mem_append]

end Tree

def Root.toExpression : Root → ExpressionNode
  | .tree t => t.toExpression
  | .comparison op _ left right => .binaryOp op left.toExpression right.toExpression

def environment (T : UnsignedType) (σ : String → BitVec T.width) : CodegenEnv where
  variableTypes _ := some T.kind
  namedValues name := some ⟨T.width, σ name⟩

variable (T : UnsignedType) (σ : String → BitVec T.width)

def unsignedOperation {w : Nat} (op : BinaryOp) (x y : BitVec w) : Option (BitVec w) :=
  (arithmeticOpcode true op).bind fun opcode => opcode.exec x y

def unsignedComparison {w : Nat} (op : BinaryOp) (x y : BitVec w) : Option Bool :=
  (comparisonPredicate true op).map fun predicate => predicate.test x y

/-- The value with every operation unsigned at the width of the type. -/
def unsignedValue : Tree → Option (BitVec T.width)
  | .leaf name => some (σ name)
  | .operation op _ left right => do
    unsignedOperation op (← unsignedValue left) (← unsignedValue right)

def Root.unsignedValue : Root → Option IRInt
  | .tree t => (UnsignedTrees.unsignedValue T σ t).map (IRInt.mk T.width)
  | .comparison op _ left right => do
    (unsignedComparison op (← UnsignedTrees.unsignedValue T σ left)
      (← UnsignedTrees.unsignedValue T σ right)).map IRInt.ofBool

/-- On these operand values the signed instruction of an operator gives the unsigned result. -/
def SignedAgrees {w : Nat} (op : BinaryOp) (x y : BitVec w) : Prop :=
  match op with
  | .divide => SdivAgrees x y
  | .modulo => SremAgrees x y
  | .shr => x.msb = false ∨ y.toNat = 0
  | .lt | .gt | .le | .ge => x.msb = y.msb
  | _ => True

variable {w : Nat} {x y : BitVec w}

theorem arithmetic_agrees_iff (hw : 2 ≤ w) (hd : (unsignedOperation op x y).isSome) (o : Opcode)
    (ho : arithmeticOpcode false op = some o) :
    o.exec x y = unsignedOperation op x y ↔ SignedAgrees op x y := by
  have hz : (op = .divide ∨ op = .modulo) → y ≠ 0 := by
    rintro (rfl | rfl) rfl <;> simp [unsignedOperation, arithmeticOpcode, Opcode.exec] at hd
  have hs : op = .shr → y.toNat < w := by
    rintro rfl
    by_contra hlt
    simp [unsignedOperation, arithmeticOpcode, Opcode.exec, hlt] at hd
  cases op with
  | divide =>
    obtain rfl : Opcode.sdiv = o := by simpa [arithmeticOpcode] using ho
    exact exec_sdiv_eq_udiv_iff hw x y (hz (.inl rfl))
  | modulo =>
    obtain rfl : Opcode.srem = o := by simpa [arithmeticOpcode] using ho
    exact exec_srem_eq_urem_iff hw x y (hz (.inr rfl))
  | shr =>
    obtain rfl : Opcode.ashr = o := by simpa [arithmeticOpcode] using ho
    exact exec_ashr_eq_lshr_iff x y (hs rfl)
  | plus | minus | multiply | bitAnd | bitOr | bitXor | shl =>
    simp only [arithmeticOpcode, Option.some.injEq] at ho
    subst ho
    simp [SignedAgrees, unsignedOperation, arithmeticOpcode]
  | lt | gt | le | ge | eq | ne | and | or => simp [arithmeticOpcode] at ho

theorem comparison_agrees_iff (p : Predicate) (hp : comparisonPredicate false op = some p) :
    some (p.test x y) = unsignedComparison op x y ↔ SignedAgrees op x y := by
  cases op with
  | lt | gt =>
    simp only [comparisonPredicate, Option.some.injEq] at hp
    subst hp
    simp [unsignedComparison, comparisonPredicate, Predicate.test, SignedAgrees, slt_eq_ult_iff, eq_comm]
  | le | ge =>
    simp only [comparisonPredicate, Option.some.injEq] at hp
    subst hp
    simp [unsignedComparison, comparisonPredicate, Predicate.test, SignedAgrees, sle_eq_ule_iff, eq_comm]
  | eq | ne =>
    simp only [comparisonPredicate, Option.some.injEq] at hp
    subst hp
    simp [unsignedComparison, comparisonPredicate, SignedAgrees]
  | plus | minus | multiply | divide | modulo | bitAnd | bitOr | bitXor | shl | shr | and | or =>
    simp [comparisonPredicate] at hp

theorem resolveExprKind_leaf (name : String) :
    resolveExprKind (environment T σ).variableTypes (Tree.leaf name).toExpression = T.kind := by
  rfl

theorem isUnsignedType_operation (op : BinaryOp) (h : isArithmetic op = true) (l r : Tree) :
    isUnsignedType (resolveExprKind (environment T σ).variableTypes
      (Tree.operation op h l r).toExpression) = false := by
  have hb : op.yieldsBool = false := by
    cases op <;> first | rfl | exact absurd h (by decide)
  simp only [Tree.toExpression, resolveExprKind, getLValueType, getD_none,
    getExpressionTypeKind, hb, Bool.false_eq_true, if_false]
  split
  · rfl
  · split <;> rfl

theorem isUnsignedType_resolve (t : Tree) :
    isUnsignedType (resolveExprKind (environment T σ).variableTypes t.toExpression) =
      t.isLeaf := by
  cases t with
  | leaf name => rw [resolveExprKind_leaf, T.unsigned]; rfl
  | operation op h l r => exact isUnsignedType_operation T σ op h l r

theorem useUnsignedIntOps_trees (l r : Tree) :
    useUnsignedIntOps (environment T σ).variableTypes l.toExpression r.toExpression =
      (l.isLeaf || r.isLeaf) := by
  simp only [useUnsignedIntOps, isUnsignedType_resolve]

def Computes (t : Tree) : Prop :=
  generateExpression (environment T σ) t.toExpression =
    (unsignedValue T σ t).map (IRInt.mk T.width)

/-- Where both operands of a node are themselves operations, the signed instruction agrees with the
unsigned one on the operands' values. -/
def NodeAgrees (op : BinaryOp) (l r : Tree) : Prop :=
  l.isLeaf = false → r.isLeaf = false → ∀ x y, unsignedValue T σ l = some x →
    unsignedValue T σ r = some y → SignedAgrees op x y

def TreeAgrees : Tree → Prop
  | .leaf _ => True
  | .operation op _ l r => NodeAgrees T σ op l r

theorem computes_leaf (name : String) : Computes T σ (.leaf name) := by
  rfl

theorem generate_operation (hb : op.yieldsBool = false ∨ isComparison op = true) {x y : BitVec T.width}
    (hl : generateExpression (environment T σ) l.toExpression = some ⟨T.width, x⟩)
    (hr : generateExpression (environment T σ) r.toExpression = some ⟨T.width, y⟩) :
    generateExpression (environment T σ) (.binaryOp op l.toExpression r.toExpression) =
    generateBinaryInstruction (l.isLeaf || r.isLeaf) op ⟨T.width, x⟩ ⟨T.width, y⟩ := by
  have hlog : op.isLogical = false := by
    cases op <;> first | rfl | revert hb; decide
  simp only [generateExpression, hl, hr, bind_eq_bind, bind_some,
    BinaryOp.shortCircuits_of_not_logical hlog, hlog, Bool.false_eq_true, if_false,
    useUnsignedIntOps_trees]

theorem computes_operation_iff (h : isArithmetic op = true)
    (hd : (unsignedValue T σ (.operation op h l r)).isSome) (hl : Computes T σ l) (hr : Computes T σ r) :
    Computes T σ (.operation op h l r) ↔ NodeAgrees T σ op l r := by
  have hy : op.yieldsBool = false := by
    cases op <;> first | rfl | exact absurd h (by decide)
  obtain ⟨x, hx⟩ : ∃ x, unsignedValue T σ l = some x := by
    cases hx : unsignedValue T σ l with
    | none => simp [unsignedValue, hx] at hd
    | some x => exact ⟨x, rfl⟩
  obtain ⟨y, hyv⟩ : ∃ y, unsignedValue T σ r = some y := by
    cases hyv : unsignedValue T σ r with
    | none => simp [unsignedValue, hx, hyv] at hd
    | some y => exact ⟨y, rfl⟩
  have hv : unsignedValue T σ (.operation op h l r) = unsignedOperation op x y := by
    simp [unsignedValue, hx, hyv]
  rw [hv] at hd
  unfold Computes
  rw [hv, Tree.toExpression, generate_operation T σ (.inl hy) (by rw [hl, hx]; rfl)
    (by rw [hr, hyv]; rfl)]
  obtain ⟨o, ho⟩ : ∃ o, arithmeticOpcode (l.isLeaf || r.isLeaf) op = some o := by
    cases op <;> first | exact ⟨_, rfl⟩ | exact absurd h (by decide)
  rw [generateBinaryInstruction_of_opcode ho (matchOperands_same_width _ op x y)]
  have hinj : (o.exec x y).map (IRInt.mk T.width) = (unsignedOperation op x y).map (IRInt.mk T.width)
      ↔ o.exec x y = unsignedOperation op x y := by
    constructor
    · exact fun he => map_injective (fun a b hab => by cases hab; rfl) he
    · exact fun he => by rw [he]
  rw [hinj]
  cases hc : (l.isLeaf || r.isLeaf) with
  | true =>
    rw [hc] at ho
    have he : o.exec x y = unsignedOperation op x y := by simp [unsignedOperation, ho]
    simp only [he, true_iff]
    intro h1 h2
    simp [h1, h2] at hc
  | false =>
    rw [hc] at ho
    rw [Bool.or_eq_false_iff] at hc
    rw [arithmetic_agrees_iff T.two_le hd o ho]
    simp only [NodeAgrees, hc.1, hc.2, hx, hyv, Option.some.injEq, true_imp_iff]
    constructor
    · rintro ha _ _ rfl rfl
      exact ha
    · exact fun ha => ha x y rfl rfl

theorem unsignedValue_operands {h : isArithmetic op = true}
    (hd : (unsignedValue T σ (.operation op h l r)).isSome) :
    (unsignedValue T σ l).isSome ∧ (unsignedValue T σ r).isSome := by
  cases hl : unsignedValue T σ l <;> cases hr : unsignedValue T σ r <;>
    simp [unsignedValue, hl, hr] at hd ⊢

theorem computes_subtrees_iff {t : Tree} (hd : (unsignedValue T σ t).isSome) :
    (∀ s ∈ t.subtrees, Computes T σ s) ↔ ∀ s ∈ t.subtrees, TreeAgrees T σ s := by
  induction t with
  | leaf name => simp [Tree.subtrees, TreeAgrees, computes_leaf]
  | operation op h l r ihl ihr =>
    obtain ⟨hl, hr⟩ := unsignedValue_operands T σ hd
    rw [Tree.forall_subtrees_operation, Tree.forall_subtrees_operation, ← ihl hl, ← ihr hr]
    refine and_congr_left fun hc => ?_
    exact computes_operation_iff T σ h hd (hc.1 l l.mem_subtrees_self)
      (hc.2 r r.mem_subtrees_self)

def Root.ComputesUnsigned : Root → Prop
  | .tree t => ∀ s ∈ t.subtrees, Computes T σ s
  | .comparison op h l r =>
    (∀ s ∈ l.subtrees ++ r.subtrees, Computes T σ s) ∧
      generateExpression (environment T σ) (Root.comparison op h l r).toExpression =
        (Root.comparison op h l r).unsignedValue T σ

/-- Every node with two operations as operands is one where the signed instruction agrees. -/
def Root.SignedNodesAgree : Root → Prop
  | .tree t => ∀ s ∈ t.subtrees, TreeAgrees T σ s
  | .comparison op _ l r =>
    (∀ s ∈ l.subtrees ++ r.subtrees, TreeAgrees T σ s) ∧ NodeAgrees T σ op l r

theorem comparison_computes_iff (h : isComparison op = true) (hdl : (unsignedValue T σ l).isSome)
    (hdr : (unsignedValue T σ r).isSome) (hl : Computes T σ l) (hr : Computes T σ r) :
    generateExpression (environment T σ) (Root.comparison op h l r).toExpression =
    (Root.comparison op h l r).unsignedValue T σ ↔ NodeAgrees T σ op l r := by
  obtain ⟨x, hx⟩ := Option.isSome_iff_exists.mp hdl
  obtain ⟨y, hy⟩ := Option.isSome_iff_exists.mp hdr
  have hv : (Root.comparison op h l r).unsignedValue T σ =
      (unsignedComparison op x y).map IRInt.ofBool := by
    simp [Root.unsignedValue, hx, hy]
  rw [hv, Root.toExpression, generate_operation T σ (.inr h) (by rw [hl, hx]; rfl) (by rw [hr, hy]; rfl)]
  obtain ⟨p, hp⟩ : ∃ p, comparisonPredicate (l.isLeaf || r.isLeaf) op = some p := by
    cases op <;> first | exact ⟨_, rfl⟩ | exact absurd h (by decide)
  have hwide : areBools ⟨T.width, x⟩ ⟨T.width, y⟩ = false := by
    have htwo := T.two_le
    simp only [areBools, Bool.and_self, beq_eq_false_iff_ne]
    omega
  have hgenerated : comparisonPredicate ((l.isLeaf || r.isLeaf) ||
      areBools ⟨T.width, x⟩ ⟨T.width, y⟩) op = some p := by
    rw [hwide, Bool.or_false, hp]
  rw [generateBinaryInstruction_of_predicate hgenerated (matchOperands_same_width _ op x y)]
  have hinj : some (IRInt.ofBool (p.test x y)) = (unsignedComparison op x y).map IRInt.ofBool ↔
      some (p.test x y) = unsignedComparison op x y := by
    rw [← map_some]
    constructor
    · exact fun he => map_injective (fun a b => by revert a b; decide) he
    · exact fun he => by rw [he]
  rw [hinj]
  cases hc : (l.isLeaf || r.isLeaf) with
  | true =>
    rw [hc] at hp
    have he : some (p.test x y) = unsignedComparison op x y := by simp [unsignedComparison, hp]
    simp only [he, true_iff]
    intro h1 h2
    simp [h1, h2] at hc
  | false =>
    rw [hc] at hp
    rw [Bool.or_eq_false_iff] at hc
    rw [comparison_agrees_iff p hp]
    simp only [NodeAgrees, hc.1, hc.2, hx, hy, Option.some.injEq, true_imp_iff]
    constructor
    · rintro ha _ _ rfl rfl
      exact ha
    · exact fun ha => ha x y rfl rfl

/-- On inputs where no divisor is zero and no shift amount reaches the width, unsigned values are
computed throughout exactly when every node of two operations reads operands on which the signed
instruction agrees. -/
theorem computesUnsigned_iff_signedNodesAgree (e : Root) (hd : (e.unsignedValue T σ).isSome) :
    e.ComputesUnsigned T σ ↔ e.SignedNodesAgree T σ := by
  cases e with
  | tree t =>
    apply computes_subtrees_iff
    simpa [Root.unsignedValue] using hd
  | comparison op h l r =>
    have hdl : (unsignedValue T σ l).isSome := by
      cases hl : unsignedValue T σ l <;> simp [Root.unsignedValue, hl] at hd ⊢
    have hdr : (unsignedValue T σ r).isSome := by
      cases hr : unsignedValue T σ r <;> simp [Root.unsignedValue, hr] at hd ⊢
    simp only [Root.ComputesUnsigned, Root.SignedNodesAgree, List.forall_mem_append,
      ← computes_subtrees_iff T σ hdl, ← computes_subtrees_iff T σ hdr]
    refine and_congr_right fun hc => ?_
    exact comparison_computes_iff T σ h hdl hdr (hc.1 l l.mem_subtrees_self)
      (hc.2 r r.mem_subtrees_self)

/-- `(a + z) / (b + z)`. -/
def quotientOfSums : Root :=
  .tree (.operation .divide rfl (.operation .plus rfl (.leaf "a") (.leaf "z"))
    (.operation .plus rfl (.leaf "b") (.leaf "z")))

def quotientOfSumsAt (a b : BitVec 8) (name : String) : BitVec 8 :=
  if name = "a" then a else if name = "b" then b else 0

theorem computesUnsigned_iff_quotientOfSums :
    quotientOfSums.ComputesUnsigned u8 (quotientOfSumsAt 100 2) ↔
      quotientOfSums.SignedNodesAgree u8 (quotientOfSumsAt 100 2) :=
  computesUnsigned_iff_signedNodesAgree u8 (quotientOfSumsAt 100 2) quotientOfSums (by decide)

/-- `200 / 2` is computed as `-56 / 2`. -/
theorem quotientOfSums_signed :
    quotientOfSums.unsignedValue u8 (quotientOfSumsAt 200 2) = some ⟨8, 100⟩ ∧
      generateExpression (environment u8 (quotientOfSumsAt 200 2)) quotientOfSums.toExpression =
        some ⟨8, 228⟩ := by
  decide

end Mlang.UnsignedTrees
