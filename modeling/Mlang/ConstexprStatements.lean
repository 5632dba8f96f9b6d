import Mlang.Constexpr
import Mathlib.Logic.Function.Basic

namespace Mlang.ConstexprStatements

open TypeKinds IntegerIR Expressions Constexpr Option
open Function (update_of_ne update_self)

mutual

inductive StatementNode
  | returnNode (expression : Option ExpressionNode)
  | letDecl (name : String) (type : Option TypeKind) (expression : Option ExpressionNode)
  | varDecl (name : String) (type : Option TypeKind) (initExpr : Option ExpressionNode)
  | assignment (name : String) (expression : ExpressionNode)
  | expressionStatement (expression : ExpressionNode)
  | block (statements : StatementListNode)
  | ifNode (chain : IfChain) (elseBranch : StatementListNode)
  | cexprIf (chain : IfChain) (elseBranch : StatementListNode)

inductive StatementListNode
  | nil
  | cons (statement : StatementNode) (rest : StatementListNode)

/-- An if and its else-ifs. As in the parser's tree the final else stays with the outermost node. -/
inductive IfChain
  | single (condition : ExpressionNode) (thenBranch : StatementListNode)
  | elseIf (condition : ExpressionNode) (thenBranch : StatementListNode) (next : IfChain)

end

inductive Flow (σ : Type)
  | returned (value : ConstexprValue)
  | next (state : σ)

abbrev ConstexprEnv := String → Option ConstexprValue

def setVariable (env : ConstexprEnv) (name : String) (value : ConstexprValue) : ConstexprEnv :=
  Function.update env name (some value)

def zeroValue (type : Option TypeKind) : Option ConstexprValue :=
  let kind := normalizeInferredKind (type.getD .i64)
  if kind = .bool then some (.bool false)
  else if isIntegerInferKind kind then some (.int 0 kind)
  else none

def coerceDeclared (type : Option TypeKind) (value : ConstexprValue) : Option ConstexprValue :=
  match type with
  | none => some value
  | some kind => coerceConstexprValueToKind value kind

def onCopy (env : ConstexprEnv) (outcome : Option (Flow ConstexprEnv)) :
    Option (Flow ConstexprEnv) :=
  outcome.map fun
    | .returned value => .returned value
    | .next _ => .next env

variable (constexprValues : String → Option ConstexprValue)

def evalIn (env : ConstexprEnv) (depth : Nat) (expr : ExpressionNode) : Option ConstexprValue :=
  evalConstexprExpression (fun name => (env name).or (constexprValues name)) depth expr

mutual

def evalStatement (depth : Nat) (env : ConstexprEnv) : StatementNode → Option (Flow ConstexprEnv)
  | .returnNode none => none
  | .returnNode (some expression) =>
    (evalIn constexprValues env (depth + 1) expression).map .returned
  | .letDecl _ _ none => none
  | .letDecl name type (some expression) => do
    let value ← evalIn constexprValues env (depth + 1) expression
    let value ← coerceDeclared type value
    return .next (setVariable env name value)
  | .varDecl name type none => do
    let value ← zeroValue type
    return .next (setVariable env name value)
  | .varDecl name type (some initExpr) => do
    let value ← evalIn constexprValues env (depth + 1) initExpr
    let value ← coerceDeclared type value
    return .next (setVariable env name value)
  | .assignment name expression => do
    if (env name).isNone then none
    let value ← evalIn constexprValues env (depth + 1) expression
    return .next (setVariable env name value)
  | .expressionStatement expression => do
    let _ ← evalIn constexprValues env (depth + 1) expression
    return .next env
  | .block statements => onCopy env (evalStatementList (depth + 1) env statements)
  | .ifNode chain elseBranch =>
    evalIfChain depth env false
      (fun depth env => onCopy env (evalStatementList depth env elseBranch)) chain
  | .cexprIf chain elseBranch =>
    evalIfChain depth env true
      (fun depth env => onCopy env (evalStatementList depth env elseBranch)) chain

def evalStatementList (depth : Nat) (env : ConstexprEnv) :
    StatementListNode → Option (Flow ConstexprEnv)
  | .nil => some (.next env)
  | .cons statement rest => do
    match ← evalStatement depth env statement with
    | .returned value => return .returned value
    | .next env => evalStatementList depth env rest

/-- An else-if branch is evaluated as a statement of its own. -/
def evalIfChain (depth : Nat) (env : ConstexprEnv) (attachesElse : Bool)
    (finalElse : Nat → ConstexprEnv → Option (Flow ConstexprEnv)) :
    IfChain → Option (Flow ConstexprEnv)
  | .single condition thenBranch => do
    let condValue ← evalIn constexprValues env (depth + 1) condition
    if condValue.boolValue then onCopy env (evalStatementList (depth + 1) env thenBranch)
    else finalElse (depth + 1) env
  | .elseIf condition thenBranch next => do
    let condValue ← evalIn constexprValues env (depth + 1) condition
    if condValue.boolValue then onCopy env (evalStatementList (depth + 1) env thenBranch)
    else
      onCopy env
        (evalIfChain (depth + 1) env attachesElse
          (if attachesElse then finalElse else fun _ env => some (.next env)) next)

end

/-- A variable's storage: every store converts to its kind, also where no type is declared. -/
structure Slot where
  kind : TypeKind
  value : ConstexprValue

structure State where
  env : String → Option Nat
  slots : Nat → Slot
  fresh : Nat

/-- The number that a machine integer of the kind stands for. -/
def readAs (kind : TypeKind) (stored : IRInt) : ConstexprValue :=
  let kind := normalizeInferredKind kind
  if kind = .bool then .bool stored.isNonzero
  else .int (stored.intCast (!isUnsignedType kind) 64).bits kind

/-- `width` is that of the integer generated for the value. -/
def convertStored (zeroExtends : Bool) (kind : TypeKind) (width : Nat) (value : ConstexprValue) :
    Option ConstexprValue :=
  (getLLVMIntWidth kind).map fun targetWidth =>
    readAs kind ((IRInt.mk width (value.constexprValueAsInt.setWidth width)).intCast (!zeroExtends) targetWidth)

namespace State

def lookup (s : State) (name : String) : Option ConstexprValue :=
  (s.env name).map fun location => (s.slots location).value

def variableTypes (s : State) (name : String) : Option TypeKind :=
  ((s.env name).map fun location => (s.slots location).kind).or
    ((constexprValues name).map ConstexprValue.typeKind)

def declare (s : State) (name : String) (slot : Slot) : State where
  env := Function.update s.env name (some s.fresh)
  slots := Function.update s.slots s.fresh slot
  fresh := s.fresh + 1

def store (s : State) (location : Nat) (value : ConstexprValue) : State :=
  { s with slots := Function.update s.slots location ⟨(s.slots location).kind, value⟩ }

end State

def leaveScope (s : State) (outcome : Option (Flow State)) : Option (Flow State) :=
  outcome.map fun
    | .returned value => .returned value
    | .next s' => .next { s' with env := s.env }

def evaluate (s : State) (expr : ExpressionNode) : Option ConstexprValue :=
  evalConstexprExpression (fun name => (s.lookup name).or (constexprValues name)) 0 expr

def signedKind : Nat → TypeKind
  | 1 => .bool
  | 8 => .i8
  | 16 => .i16
  | 64 => .i64
  | _ => .int

/-- The kind of a variable that declares no type. A literal is an `i64` constant whatever its suffix, and
only a `var` keeps the kind of a cast; otherwise the generated width alone decides. -/
def inferKindFromExpr (s : State) (isVar : Bool) (expr : ExpressionNode) : Option TypeKind :=
  match expr with
  | .intLiteral _ _ => some .i64
  | .boolLiteral _ => some .bool
  | .identifier name => s.variableTypes constexprValues name
  | .cast targetType _ =>
    if isVar then some targetType else (getLLVMIntWidth targetType).map signedKind
  | expr => (generatedWidth (s.variableTypes constexprValues) expr).map signedKind

/-- A declaration extends by the sign of the declared type. -/
def declaredSlot (s : State) (isVar : Bool) (type : Option TypeKind) (expr : ExpressionNode)
    (value : ConstexprValue) : Option Slot := do
  let kind ← type.or (inferKindFromExpr constexprValues s isVar expr)
  let width ← generatedWidth (s.variableTypes constexprValues) expr
  let stored ← convertStored (isUnsignedType kind) kind width value
  return ⟨kind, stored⟩

/-- An assignment sign-extends whatever the types are. -/
def assignedValue (s : State) (location : Nat) (expr : ExpressionNode) (value : ConstexprValue) :
    Option ConstexprValue := do
  let width ← generatedWidth (s.variableTypes constexprValues) expr
  convertStored false (s.slots location).kind width value

mutual

def runStatement (s : State) : StatementNode → Option (Flow State)
  | .returnNode none => none
  | .returnNode (some expression) => (evaluate constexprValues s expression).map .returned
  | .letDecl _ _ none => none
  | .letDecl name type (some expression) => do
    let value ← evaluate constexprValues s expression
    let slot ← declaredSlot constexprValues s false type expression value
    return .next (s.declare name slot)
  | .varDecl name type none => do
    let value ← zeroValue type
    return .next (s.declare name ⟨type.getD .i64, value⟩)
  | .varDecl name type (some initExpr) => do
    let value ← evaluate constexprValues s initExpr
    let slot ← declaredSlot constexprValues s true type initExpr value
    return .next (s.declare name slot)
  | .assignment name expression => do
    let location ← s.env name
    let value ← evaluate constexprValues s expression
    let value ← assignedValue constexprValues s location expression value
    return .next (s.store location value)
  | .expressionStatement expression => do
    let _ ← evaluate constexprValues s expression
    return .next s
  | .block statements => leaveScope s (runStatementList s statements)
  | .ifNode chain elseBranch | .cexprIf chain elseBranch =>
    runIfChain s (fun s => leaveScope s (runStatementList s elseBranch)) chain

def runStatementList (s : State) : StatementListNode → Option (Flow State)
  | .nil => some (.next s)
  | .cons statement rest => do
    match ← runStatement s statement with
    | .returned value => return .returned value
    | .next s => runStatementList s rest

def runIfChain (s : State) (finalElse : State → Option (Flow State)) :
    IfChain → Option (Flow State)
  | .single condition thenBranch => do
    let condValue ← evaluate constexprValues s condition
    if condValue.boolValue then leaveScope s (runStatementList s thenBranch) else finalElse s
  | .elseIf condition thenBranch next => do
    let condValue ← evaluate constexprValues s condition
    if condValue.boolValue then leaveScope s (runStatementList s thenBranch)
    else runIfChain s finalElse next

end

def SameValue (v v' : ConstexprValue) : Prop :=
  v.constexprValueAsInt = v'.constexprValueAsInt ∧
    isUnsignedType v.typeKind = isUnsignedType v'.typeKind

def LeavesOuter (s : State) (outcome : Option (Flow State)) : Prop :=
  ∀ s', outcome = some (.next s') → ∀ name location, s.env name = some location →
    SameValue (s.slots location).value (s'.slots location).value

def DeclaresUnchanged (s : State) (isVar : Bool) (type : Option TypeKind) (expr : ExpressionNode) : Prop :=
  ∀ value coerced, evaluate constexprValues s expr = some value → coerceDeclared type value = some coerced →
    ∃ slot, declaredSlot constexprValues s isVar type expr value = some slot ∧ SameValue coerced slot.value

def AssignsUnchanged (s : State) (name : String) (expr : ExpressionNode) : Prop :=
  ∀ location value, s.env name = some location → evaluate constexprValues s expr = some value →
    ∃ stored, assignedValue constexprValues s location expr value = some stored ∧ SameValue value stored

mutual

def StatementFollowed (s : State) : StatementNode → Prop
  | .letDecl _ type (some expression) => DeclaresUnchanged constexprValues s false type expression
  | .varDecl _ type (some initExpr) => DeclaresUnchanged constexprValues s true type initExpr
  | .assignment name expression => AssignsUnchanged constexprValues s name expression
  | .block statements =>
    StatementListFollowed s statements ∧
      LeavesOuter s (runStatementList constexprValues s statements)
  | .ifNode chain elseBranch =>
    IfChainFollowed s false
      (fun s => StatementListFollowed s elseBranch ∧
        LeavesOuter s (runStatementList constexprValues s elseBranch))
      (elseBranch = .nil) chain
  | .cexprIf chain elseBranch =>
    IfChainFollowed s true
      (fun s => StatementListFollowed s elseBranch ∧
        LeavesOuter s (runStatementList constexprValues s elseBranch))
      (elseBranch = .nil) chain
  | _ => True

def StatementListFollowed (s : State) : StatementListNode → Prop
  | .nil => True
  | .cons statement rest =>
    StatementFollowed s statement ∧
      ∀ s', runStatement constexprValues s statement = some (.next s') →
        StatementListFollowed s' rest

def IfChainFollowed (s : State) (attachesElse : Bool) (elseFollowed : State → Prop)
    (elseAbsent : Prop) : IfChain → Prop
  | .single condition thenBranch =>
    ∀ condValue, evaluate constexprValues s condition = some condValue →
      if condValue.boolValue then
        StatementListFollowed s thenBranch ∧
          LeavesOuter s (runStatementList constexprValues s thenBranch)
      else elseFollowed s
  | .elseIf condition thenBranch next =>
    ∀ condValue, evaluate constexprValues s condition = some condValue →
      if condValue.boolValue then
        StatementListFollowed s thenBranch ∧
          LeavesOuter s (runStatementList constexprValues s thenBranch)
      else
        IfChainFollowed s attachesElse
          (if attachesElse then elseFollowed else fun _ => elseAbsent) elseAbsent next

end

variable {v v' : ConstexprValue} {e : ExpressionNode}

theorem SameValue.refl (v : ConstexprValue) : SameValue v v := ⟨rfl, rfl⟩

variable {w : ConstexprValue}

theorem SameValue.trans {u : ConstexprValue} (h : SameValue u v) (h' : SameValue v w) : SameValue u w :=
  ⟨h.1.trans h'.1, h.2.trans h'.2⟩

theorem SameValue.boolValue (h : SameValue v v') : v.boolValue = v'.boolValue := by
  rw [ConstexprValue.boolValue_eq, ConstexprValue.boolValue_eq, h.1]

theorem SameValue.coerce (h : SameValue v v') {k : TypeKind} (hc : coerceConstexprValueToKind v k = some w) :
    ∃ w', coerceConstexprValueToKind v' k = some w' ∧ SameValue w w' := by
  simp only [coerceConstexprValueToKind] at hc ⊢
  rw [← h.boolValue, ← h.1]
  exact ⟨w, hc, .refl w⟩

theorem SameValue.unary (h : SameValue v v') (op : UnaryOp) :
    SameValue (evalUnary op v) (evalUnary op v') := by
  cases op with
  | neg => exact ⟨congrArg Neg.neg h.1, h.2⟩
  | not =>
    simp only [evalUnary, h.boolValue]
    exact .refl _
  | bitNot => exact ⟨congrArg Complement.complement h.1, h.2⟩

theorem isUnsignedType_integerResultKind (l r : TypeKind) :
    isUnsignedType (integerResultKind l r) = unsignedOperands l r := by
  unfold integerResultKind unsignedOperands
  cases hl : isUnsignedType l <;> cases hr : isUnsignedType r <;> simp [hl, hr]

theorem SameValue.binary {v₁ v₁' v₂ v₂' : ConstexprValue} (h₁ : SameValue v₁ v₁') (h₂ : SameValue v₂ v₂')
    {op : BinaryOp} (hb : evalBinary op v₁ v₂ = some w) :
    ∃ w', evalBinary op v₁' v₂' = some w' ∧ SameValue w w' := by
  have hu : unsignedOperands v₁.typeKind v₂.typeKind =
      unsignedOperands v₁'.typeKind v₂'.typeKind := by
    simp only [unsignedOperands, h₁.2, h₂.2]
  simp only [evalBinary, hu, h₁.1, h₂.1] at hb ⊢
  by_cases hy : op.yieldsBool = true
  · rw [if_pos hy] at hb ⊢
    exact ⟨w, hb, .refl w⟩
  · rw [if_neg hy] at hb ⊢
    obtain ⟨z, hz, rfl⟩ := map_eq_some_iff.mp hb
    refine ⟨.int z (integerResultKind v₁'.typeKind v₂'.typeKind), ?_, rfl, ?_⟩
    · rw [hz, map_some]
    · exact (isUnsignedType_integerResultKind _ _).trans
        (hu.trans (isUnsignedType_integerResultKind _ _).symm)

def SameLookup (lookup lookup' : String → Option ConstexprValue) : Prop :=
  ∀ name v, lookup name = some v → ∃ v', lookup' name = some v' ∧ SameValue v v'

theorem SameLookup.eval {lookup lookup' : String → Option ConstexprValue} (h : SameLookup lookup lookup')
    {depth depth' : Nat} (hd : depth' ≤ depth) (he : evalConstexprExpression lookup depth e = some v) :
    ∃ v', evalConstexprExpression lookup' depth' e = some v' ∧ SameValue v v' := by
  induction e generalizing depth depth' v with
  | intLiteral value explicitType | boolLiteral value =>
    rw [evalConstexprExpression] at he ⊢
    split at he
    · simp at he
    · next hn => exact ⟨v, by rw [if_neg (by omega), he], .refl v⟩
  | identifier name =>
    rw [evalConstexprExpression] at he ⊢
    split at he
    · simp at he
    · next hn =>
      rw [if_neg (by omega)]
      exact h name v he
  | cast targetType e ih =>
    rw [evalConstexprExpression] at he ⊢
    split at he
    · simp at he
    · next hn =>
      rw [if_neg (by omega)]
      obtain ⟨u, hu, hc⟩ := bind_eq_some_iff.mp he
      obtain ⟨u', hu', hs⟩ := ih (Nat.succ_le_succ hd) hu
      obtain ⟨w, hw, hsw⟩ := hs.coerce hc
      exact ⟨w, by simpa [hu'] using hw, hsw⟩
  | unaryOp op e ih =>
    rw [evalConstexprExpression] at he ⊢
    split at he
    · simp at he
    · next hn =>
      rw [if_neg (by omega)]
      obtain ⟨u, hu, hc⟩ := bind_eq_some_iff.mp he
      cases hc
      obtain ⟨u', hu', hs⟩ := ih (Nat.succ_le_succ hd) hu
      exact ⟨_, by simp [hu'], hs.unary op⟩
  | binaryOp op l r ihl ihr =>
    rw [evalConstexprExpression] at he ⊢
    split at he
    · simp at he
    · next hn =>
      rw [if_neg (by omega)]
      obtain ⟨u₁, hu₁, hc⟩ := bind_eq_some_iff.mp he
      obtain ⟨u₁', hu₁', hs₁⟩ := ihl (Nat.succ_le_succ hd) hu₁
      simp only [hu₁', bind_eq_bind, bind_some, ← hs₁.boolValue]
      by_cases hsc : op.shortCircuits u₁.boolValue = true
      · rw [if_pos hsc] at hc ⊢
        exact ⟨v, hc, .refl v⟩
      · rw [if_neg hsc] at hc ⊢
        obtain ⟨u₂, hu₂, hc⟩ := bind_eq_some_iff.mp hc
        obtain ⟨u₂', hu₂', hs₂⟩ := ihr (Nat.succ_le_succ hd) hu₂
        rw [hu₂']
        exact hs₁.binary hs₂ hc
  | ternary c t f ihc iht ihf =>
    rw [evalConstexprExpression] at he ⊢
    split at he
    · simp at he
    · next hn =>
      rw [if_neg (by omega)]
      obtain ⟨u, hu, hc⟩ := bind_eq_some_iff.mp he
      obtain ⟨u', hu', hs⟩ := ihc (Nat.succ_le_succ hd) hu
      simp only [hu', bind_eq_bind, bind_some, ← hs.boolValue]
      by_cases hb : u.boolValue = true
      · rw [if_pos hb] at hc ⊢
        exact iht (Nat.succ_le_succ hd) hc
      · rw [if_neg hb] at hc ⊢
        exact ihf (Nat.succ_le_succ hd) hc

variable {expr : ExpressionNode} {r : Flow ConstexprEnv} {name : String}

section Simulation

variable {constexprValues : String → Option ConstexprValue}

/-- Both sides bind the same names to the same values, each name having a location of its own. -/
structure Agree (env : ConstexprEnv) (s : State) : Prop where
  same : ∀ name location, s.env name = some location →
    ∃ v, env name = some v ∧ SameValue v (s.slots location).value
  unbound : ∀ name, s.env name = none → env name = none
  fresh : ∀ name location, s.env name = some location → location < s.fresh
  injective : ∀ name name' location, s.env name = some location →
    s.env name' = some location → name = name'

theorem Agree.sameLookup {env : ConstexprEnv} {s : State} (h : Agree env s) :
    SameLookup (fun name => (env name).or (constexprValues name))
      (fun name => (s.lookup name).or (constexprValues name)) := by
  intro name v hv
  simp only [State.lookup]
  cases hl : s.env name with
  | none =>
    simp only [h.unbound name hl, none_or] at hv
    exact ⟨v, by simpa using hv, .refl v⟩
  | some location =>
    obtain ⟨u, hu, hs⟩ := h.same name location hl
    simp only [hu, some_or, Option.some.injEq] at hv
    subst hv
    exact ⟨_, rfl, hs⟩

theorem Agree.evaluate {env : ConstexprEnv} {s : State} (h : Agree env s) {depth : Nat}
    (he : evalIn constexprValues env depth e = some v) :
    ∃ v', evaluate constexprValues s e = some v' ∧ SameValue v v' :=
  h.sameLookup.eval (Nat.zero_le depth) he

theorem Agree.declare {env : ConstexprEnv} {s : State} (h : Agree env s) (name : String)
    {slot : Slot} (hv : SameValue v slot.value) :
    Agree (setVariable env name v) (s.declare name slot) where
  same name' location hl := by
    by_cases hn : name' = name
    · subst hn
      simp only [State.declare, update_self, Option.some.injEq] at hl ⊢
      subst hl
      exact ⟨v, by simp [setVariable], by simpa using hv⟩
    · simp only [State.declare, update_of_ne hn] at hl ⊢
      obtain ⟨u, hu, hs⟩ := h.same name' location hl
      have hf := h.fresh name' location hl
      refine ⟨u, by simpa [setVariable, hn] using hu, ?_⟩
      rwa [update_of_ne (Nat.ne_of_lt hf)]
  unbound name' hl := by
    by_cases hn : name' = name
    · subst hn
      simp [State.declare] at hl
    · simp only [State.declare, update_of_ne hn] at hl
      simpa [setVariable, hn] using h.unbound name' hl
  fresh name' location hl := by
    by_cases hn : name' = name
    · subst hn
      simp only [State.declare, update_self, Option.some.injEq] at hl ⊢
      omega
    · simp only [State.declare, update_of_ne hn] at hl ⊢
      have hf := h.fresh name' location hl
      omega
  injective name₁ name₂ location h₁ h₂ := by
    by_cases hn₁ : name₁ = name <;> by_cases hn₂ : name₂ = name
    · rw [hn₁, hn₂]
    · subst hn₁
      simp only [State.declare, update_self, update_of_ne hn₂, Option.some.injEq] at h₁ h₂
      have hf := h.fresh name₂ location h₂
      omega
    · subst hn₂
      simp only [State.declare, update_self, update_of_ne hn₁, Option.some.injEq] at h₁ h₂
      have hf := h.fresh name₁ location h₁
      omega
    · simp only [State.declare, update_of_ne hn₁, update_of_ne hn₂] at h₁ h₂
      exact h.injective name₁ name₂ location h₁ h₂

theorem Agree.store {env : ConstexprEnv} {s : State} (h : Agree env s) {location : Nat}
    (hl : s.env name = some location) (hv : SameValue v v') :
    Agree (setVariable env name v) (s.store location v') where
  same name' location' hl' := by
    by_cases hn : name' = name
    · subst hn
      obtain rfl : location = location' := some.inj (hl.symm.trans hl')
      exact ⟨v, by simp [setVariable], by simpa [State.store] using hv⟩
    · obtain ⟨u, hu, hs⟩ := h.same name' location' hl'
      have hne : location' ≠ location := by
        rintro rfl
        exact hn (h.injective name' name location' hl' hl)
      refine ⟨u, by simpa [setVariable, hn] using hu, ?_⟩
      simpa [State.store, hne] using hs
  unbound name' hl' := by
    have hn : name' ≠ name := by
      rintro rfl
      exact absurd (hl.symm.trans hl') (by simp)
    simpa [setVariable, hn] using h.unbound name' hl'
  fresh := h.fresh
  injective := h.injective

theorem Agree.leave {env : ConstexprEnv} {s s' : State} (h : Agree env s)
    (hl : LeavesOuter s (some (.next s'))) (hf : s.fresh ≤ s'.fresh) :
    Agree env { s' with env := s.env } where
  same name location hn := by
    obtain ⟨v, hv, hs⟩ := h.same name location hn
    exact ⟨v, hv, hs.trans (hl s' rfl name location hn)⟩
  unbound := h.unbound
  fresh name location hn := Nat.lt_of_lt_of_le (h.fresh name location hn) hf
  injective := h.injective

def Related (s : State) : Flow ConstexprEnv → Flow State → Prop
  | .returned v, .returned v' => SameValue v v'
  | .next env, .next s' => Agree env s' ∧ s.fresh ≤ s'.fresh
  | _, _ => False

/-- The outcome of a nested list. -/
def ScopeRelated (env : ConstexprEnv) (s : State) : Flow ConstexprEnv → Flow State → Prop
  | .returned v, .returned v' => SameValue v v'
  | .next env', .next s' => env' = env ∧ Agree env s' ∧ s.fresh ≤ s'.fresh
  | _, _ => False

theorem scope_related {env : ConstexprEnv} {s : State} (ha : Agree env s)
    {outcome : Option (Flow ConstexprEnv)} {outcome' : Option (Flow State)} (hl : LeavesOuter s outcome')
    (h : ∀ r, outcome = some r → ∃ r', outcome' = some r' ∧ Related s r r') :
    ∀ r, onCopy env outcome = some r →
      ∃ r', leaveScope s outcome' = some r' ∧ ScopeRelated env s r r' := by
  intro r hr
  obtain ⟨q, hq, rfl⟩ := map_eq_some_iff.mp hr
  obtain ⟨q', hq', hrel⟩ := h q hq
  subst hq'
  cases q with
  | returned v =>
    cases q' with
    | returned v' => exact ⟨_, rfl, hrel⟩
    | next s' => exact hrel.elim
  | next env' =>
    cases q' with
    | returned v' => exact hrel.elim
    | next s' => exact ⟨_, rfl, rfl, ha.leave hl hrel.2, hrel.2⟩

theorem ScopeRelated.related {env : ConstexprEnv} {s : State} {r' : Flow State}
    (h : ScopeRelated env s r r') : Related s r r' := by
  cases r with
  | returned v =>
    cases r' with
    | returned v' => exact h
    | next s' => exact h.elim
  | next env' =>
    cases r' with
    | returned v' => exact h.elim
    | next s' =>
      obtain ⟨rfl, ha, hf⟩ := h
      exact ⟨ha, hf⟩

theorem SameValue.coerceDeclared {type : Option TypeKind} {c : ConstexprValue} (hs : SameValue v v')
    (hc : coerceDeclared type v = some c) :
    ∃ c', ConstexprStatements.coerceDeclared type v' = some c' ∧ SameValue c c' := by
  cases type with
  | none =>
    cases hc
    exact ⟨v', rfl, hs⟩
  | some kind => exact hs.coerce hc

theorem declaration_related {env : ConstexprEnv} {s : State} (ha : Agree env s) {depth : Nat}
    (name : String) {isVar : Bool} {type : Option TypeKind} {expr : ExpressionNode}
    (hd : DeclaresUnchanged constexprValues s isVar type expr) {r : Flow ConstexprEnv}
    (hr : (do
      let value ← evalIn constexprValues env depth expr
      let value ← coerceDeclared type value
      return .next (setVariable env name value)) = some r) :
    ∃ r', (do
      let value ← evaluate constexprValues s expr
      let slot ← declaredSlot constexprValues s isVar type expr value
      return Flow.next (s.declare name slot)) = some r' ∧ Related s r r' := by
  obtain ⟨v, hv, hr⟩ := bind_eq_some_iff.mp hr
  obtain ⟨c, hc, hr⟩ := bind_eq_some_iff.mp hr
  cases hr
  obtain ⟨v', hv', hs⟩ := ha.evaluate hv
  obtain ⟨c', hc', hs'⟩ := hs.coerceDeclared hc
  obtain ⟨slot, hslot, hstored⟩ := hd v' c' hv' hc'
  refine ⟨.next (s.declare name slot), ?_, ha.declare name (hs'.trans hstored), Nat.le_succ _⟩
  simp [hv', hslot]

theorem assignment_related {env : ConstexprEnv} {s : State} (ha : Agree env s) {depth : Nat}
    (hd : AssignsUnchanged constexprValues s name expr)
    (hr : evalStatement constexprValues depth env (.assignment name expr) = some r) :
    ∃ r', runStatement constexprValues s (.assignment name expr) = some r' ∧ Related s r r' := by
  rw [evalStatement] at hr
  cases hl : s.env name with
  | none => simp [ha.unbound name hl] at hr
  | some location =>
    obtain ⟨u, hu, -⟩ := ha.same name location hl
    simp only [hu, isNone_some, Bool.false_eq_true, if_false] at hr
    obtain ⟨v, hv, hr⟩ := bind_eq_some_iff.mp hr
    cases hr
    obtain ⟨v', hv', hs⟩ := ha.evaluate hv
    obtain ⟨c, hc, hsc⟩ := hd location v' hl hv'
    refine ⟨.next (s.store location c), ?_, ha.store hl (hs.trans hsc), Nat.le_refl _⟩
    simp [runStatement, hl, hv', hc]

mutual

/-- One statement: where nothing is lost, compile-time evaluation follows the run. -/
theorem evalStatement_related {depth : Nat} {env : ConstexprEnv} {s : State} (ha : Agree env s) :
    ∀ statement, StatementFollowed constexprValues s statement → ∀ r,
      evalStatement constexprValues depth env statement = some r →
        ∃ r', runStatement constexprValues s statement = some r' ∧ Related s r r'
  | .returnNode none, _, r, hr => by simp [evalStatement] at hr
  | .returnNode (some expression), _, r, hr => by
    rw [evalStatement] at hr
    obtain ⟨v, hv, rfl⟩ := map_eq_some_iff.mp hr
    obtain ⟨v', hv', hs⟩ := ha.evaluate hv
    exact ⟨.returned v', by simp [runStatement, hv'], hs⟩
  | .letDecl _ _ none, _, r, hr => by simp [evalStatement] at hr
  | .letDecl name type (some expression), hf, r, hr => by
    rw [evalStatement] at hr
    rw [runStatement]
    exact declaration_related ha name (by simpa [StatementFollowed] using hf) hr
  | .varDecl name type none, _, r, hr => by
    rw [evalStatement] at hr
    obtain ⟨v, hv, hr⟩ := bind_eq_some_iff.mp hr
    cases hr
    refine ⟨.next (s.declare name ⟨type.getD .i64, v⟩), ?_, ha.declare name (.refl v), Nat.le_succ _⟩
    simp [runStatement, hv]
  | .varDecl name type (some initExpr), hf, r, hr => by
    rw [evalStatement] at hr
    rw [runStatement]
    exact declaration_related ha name (by simpa [StatementFollowed] using hf) hr
  | .assignment name expression, hf, r, hr =>
    assignment_related ha (by simpa [StatementFollowed] using hf) hr
  | .expressionStatement expression, _, r, hr => by
    rw [evalStatement] at hr
    obtain ⟨v, hv, hr⟩ := bind_eq_some_iff.mp hr
    cases hr
    obtain ⟨v', hv', -⟩ := ha.evaluate hv
    exact ⟨.next s, by simp [runStatement, hv'], ha, Nat.le_refl _⟩
  | .block statements, hf, r, hr => by
    rw [StatementFollowed] at hf
    rw [evalStatement] at hr
    rw [runStatement]
    obtain ⟨r', hr', hrel⟩ := scope_related ha hf.2
      (evalStatementList_related ha statements hf.1) r hr
    exact ⟨r', hr', hrel.related⟩
  | .ifNode chain elseBranch, hf, r, hr => by
    rw [StatementFollowed] at hf
    rw [evalStatement] at hr
    rw [runStatement]
    have key : ∃ r', runIfChain constexprValues s
        (fun s => leaveScope s (runStatementList constexprValues s elseBranch)) chain = some r' ∧
          ScopeRelated env s r r' :=
      evalIfChain_related ha
        (fun depth hf r hr => scope_related ha hf.2 (evalStatementList_related ha elseBranch hf.1) r hr)
        (fun h => by rw [h, runStatementList]; rfl) chain hf r hr
    obtain ⟨r', hr', hrel⟩ := key
    exact ⟨r', hr', hrel.related⟩
  | .cexprIf chain elseBranch, hf, r, hr => by
    rw [StatementFollowed] at hf
    rw [evalStatement] at hr
    rw [runStatement]
    have key : ∃ r', runIfChain constexprValues s
        (fun s => leaveScope s (runStatementList constexprValues s elseBranch)) chain = some r' ∧
          ScopeRelated env s r r' :=
      evalIfChain_related ha
        (fun depth hf r hr => scope_related ha hf.2 (evalStatementList_related ha elseBranch hf.1) r hr)
        (fun h => by rw [h, runStatementList]; rfl) chain hf r hr
    obtain ⟨r', hr', hrel⟩ := key
    exact ⟨r', hr', hrel.related⟩

theorem evalStatementList_related {depth : Nat} {env : ConstexprEnv} {s : State} (ha : Agree env s) :
    ∀ statements, StatementListFollowed constexprValues s statements → ∀ r,
      evalStatementList constexprValues depth env statements = some r →
        ∃ r', runStatementList constexprValues s statements = some r' ∧ Related s r r'
  | .nil, _, r, hr => by
    rw [evalStatementList] at hr
    cases hr
    exact ⟨.next s, rfl, ha, Nat.le_refl _⟩
  | .cons statement rest, hf, r, hr => by
    rw [StatementListFollowed] at hf
    rw [evalStatementList] at hr
    obtain ⟨q, hq, hr⟩ := bind_eq_some_iff.mp hr
    obtain ⟨q', hq', hrel⟩ := evalStatement_related ha statement hf.1 q hq
    rw [runStatementList, hq']
    cases q with
    | returned v =>
      cases q' with
      | returned v' =>
        cases hr
        exact ⟨.returned v', rfl, hrel⟩
      | next s' => exact hrel.elim
    | next env' =>
      cases q' with
      | returned v' => exact hrel.elim
      | next s' =>
        obtain ⟨r', hr', hrel'⟩ := evalStatementList_related hrel.1 rest (hf.2 s' hq') r hr
        refine ⟨r', hr', ?_⟩
        cases r with
        | returned v =>
          cases r' with
          | returned v' => exact hrel'
          | next t => exact hrel'.elim
        | next env'' =>
          cases r' with
          | returned v' => exact hrel'.elim
          | next t => exact ⟨hrel'.1, Nat.le_trans hrel.2 hrel'.2⟩

theorem evalIfChain_related {depth : Nat} {env : ConstexprEnv} {s : State} (ha : Agree env s)
    {attachesElse : Bool} {elseFollowed : State → Prop} {elseAbsent : Prop}
    {finalElse : Nat → ConstexprEnv → Option (Flow ConstexprEnv)} {runElse : State → Option (Flow State)}
    (helse : ∀ depth, elseFollowed s → ∀ r, finalElse depth env = some r →
      ∃ r', runElse s = some r' ∧ ScopeRelated env s r r')
    (habsent : elseAbsent → runElse s = some (.next s)) :
    ∀ chain, IfChainFollowed constexprValues s attachesElse elseFollowed elseAbsent chain → ∀ r,
      evalIfChain constexprValues depth env attachesElse finalElse chain = some r →
        ∃ r', runIfChain constexprValues s runElse chain = some r' ∧ ScopeRelated env s r r'
  | .single condition thenBranch, hf, r, hr => by
    rw [evalIfChain] at hr
    obtain ⟨v, hv, hr⟩ := bind_eq_some_iff.mp hr
    obtain ⟨v', hv', hs⟩ := ha.evaluate hv
    rw [IfChainFollowed] at hf
    have hf := hf v' hv'
    rw [runIfChain, hv']
    simp only [bind_eq_bind, bind_some]
    rw [hs.boolValue] at hr
    by_cases hb : v'.boolValue = true
    · rw [if_pos hb] at hf hr ⊢
      exact scope_related ha hf.2 (evalStatementList_related ha thenBranch hf.1) r hr
    · rw [if_neg hb] at hf hr ⊢
      exact helse _ hf r hr
  | .elseIf condition thenBranch next, hf, r, hr => by
    rw [evalIfChain] at hr
    obtain ⟨v, hv, hr⟩ := bind_eq_some_iff.mp hr
    obtain ⟨v', hv', hs⟩ := ha.evaluate hv
    rw [IfChainFollowed] at hf
    have hf := hf v' hv'
    rw [runIfChain, hv']
    simp only [bind_eq_bind, bind_some]
    rw [hs.boolValue] at hr
    by_cases hb : v'.boolValue = true
    · rw [if_pos hb] at hf hr ⊢
      exact scope_related ha hf.2 (evalStatementList_related ha thenBranch hf.1) r hr
    · rw [if_neg hb] at hf hr ⊢
      obtain ⟨q, hq, rfl⟩ := map_eq_some_iff.mp hr
      have hnext : ∀ depth, (if attachesElse = true then elseFollowed else fun _ => elseAbsent) s →
          ∀ r, (if attachesElse = true then finalElse else fun _ env => some (.next env)) depth env =
            some r → ∃ r', runElse s = some r' ∧ ScopeRelated env s r r' := by
        intro depth h r hr
        by_cases hat : attachesElse = true
        · rw [if_pos hat] at h hr
          exact helse depth h r hr
        · rw [if_neg hat] at h hr
          cases hr
          exact ⟨_, habsent h, rfl, ha, Nat.le_refl _⟩
      obtain ⟨q', hq', hrel⟩ := evalIfChain_related ha hnext habsent next hf q hq
      refine ⟨q', hq', ?_⟩
      cases q with
      | returned v =>
        cases q' with
        | returned w => exact hrel
        | next t => exact hrel.elim
      | next env' =>
        cases q' with
        | returned w => exact hrel.elim
        | next t => exact ⟨rfl, hrel.2⟩

end

end Simulation

/-- A parameter and the argument it is bound to, whose generated integer has `argumentWidth` bits. -/
structure Parameter where
  name : String
  type : TypeKind
  argument : ConstexprValue
  argumentWidth : Nat

def Parameter.passed (p : Parameter) : Option ConstexprValue :=
  convertStored false p.type p.argumentWidth p.argument

def bindParameters (params : List Parameter) : ConstexprEnv :=
  params.foldl (fun env p => setVariable env p.name p.argument) fun _ => none

def emptyState : State := ⟨fun _ => none, fun _ => ⟨.bool, .bool false⟩, 0⟩

def enterFunction (s : State) : List Parameter → Option State
  | [] => some s
  | p :: params => do
    let value ← p.passed
    enterFunction (s.declare p.name ⟨p.type, value⟩) params

def initialState (params : List Parameter) : Option State := enterFunction emptyState params

def runFunction (params : List Parameter) (body : StatementListNode) : Option (Flow State) := do
  let s ← initialState params
  runStatementList constexprValues s body

def PassesUnchanged (p : Parameter) : Prop := ∃ value, p.passed = some value ∧ SameValue p.argument value

theorem agree_enterFunction {params : List Parameter} (hp : ∀ p ∈ params, PassesUnchanged p)
    {env : ConstexprEnv} {s : State} (h : Agree env s) :
    ∃ s', enterFunction s params = some s' ∧
      Agree (params.foldl (fun env p => setVariable env p.name p.argument) env) s' := by
  induction params generalizing env s with
  | nil => exact ⟨s, rfl, h⟩
  | cons p ps ih =>
    obtain ⟨value, hvalue, hsame⟩ := hp p List.mem_cons_self
    obtain ⟨s', hs', hagree⟩ := ih (fun q hq => hp q (List.mem_cons_of_mem p hq))
      (h.declare p.name (show SameValue p.argument (Slot.mk p.type value).value from hsame))
    exact ⟨s', by rw [enterFunction, hvalue]; exact hs', hagree⟩

theorem agree_emptyState : Agree (fun _ => none) emptyState where
  same _ _ h := nomatch h
  unbound _ _ := rfl
  fresh _ _ h := nomatch h
  injective _ _ _ h := nomatch h

def BodyAgrees (params : List Parameter) (body : StatementListNode) : Prop :=
  ∀ depth v,
    evalStatementList constexprValues depth (bindParameters params) body = some (.returned v) →
      ∃ v', runFunction constexprValues params body = some (.returned v') ∧ SameValue v v'

def noGlobals : String → Option ConstexprValue := fun _ => none

def literal (n : BitVec 64) : ExpressionNode := .intLiteral n none

def statements : List StatementNode → StatementListNode
  | [] => .nil
  | st :: rest => .cons st (statements rest)

def parameter (type : TypeKind) (n : BitVec 64) : Parameter := ⟨"x", type, .int n .i64, 64⟩

/-- `{ let x = 2; } if x < 0 { return 0; } else if x < 9 { return x; } return 1;` -/
def shadowingBody : StatementListNode :=
  statements
    [.block (statements [.letDecl "x" none (some (literal 2))]),
      .ifNode
        (.elseIf (.binaryOp .lt (.identifier "x") (literal 0))
          (statements [.returnNode (some (literal 0))])
          (.single (.binaryOp .lt (.identifier "x") (literal 9))
            (statements [.returnNode (some (.identifier "x"))]))) .nil,
      .returnNode (some (literal 1))]

/-- `var x: i64 = 0; { x = 1; } return x;` -/
def nestedAssignment : StatementListNode :=
  statements
    [.varDecl "x" (some .i64) (some (literal 0)),
      .block (statements [.assignment "x" (literal 1)]),
      .returnNode (some (.identifier "x"))]

/-- `if false { return 1; } else if false { return 2; } else { return 3; } return 4;` -/
def finalElse : StatementListNode :=
  statements
    [.ifNode (.elseIf (.boolLiteral false) (statements [.returnNode (some (literal 1))])
        (.single (.boolLiteral false) (statements [.returnNode (some (literal 2))])))
        (statements [.returnNode (some (literal 3))]),
      .returnNode (some (literal 4))]

/-- `var x: u8 = 0; x = 300; return x;` -/
def narrowAssignment : StatementListNode :=
  statements
    [.varDecl "x" (some .u8) (some (literal 0)), .assignment "x" (literal 300),
      .returnNode (some (.identifier "x"))]

/-- `var x = (5 as u8); x = 300; return x;` -/
def inferredAssignment : StatementListNode :=
  statements
    [.varDecl "x" none (some (.cast .u8 (literal 5))), .assignment "x" (literal 300),
      .returnNode (some (.identifier "x"))]

/-- `return x;` -/
def returnArgument : StatementListNode := statements [.returnNode (some (.identifier "x"))]

def fiveBound : State := emptyState.declare "x" ⟨.i64, .int 5 .i64⟩

theorem initialState_five : initialState [parameter .i64 5] = some fiveBound := by rfl

theorem shadowingBody_followed : StatementListFollowed noGlobals fiveBound shadowingBody := by
  have hret : ∀ (s : State) (e : ExpressionNode),
      LeavesOuter s (runStatementList noGlobals s (statements [.returnNode (some e)])) := by
    intro s e s' h
    simp only [statements, runStatementList, runStatement] at h
    cases hv : evaluate noGlobals s e <;> simp [hv] at h
  have hlist : ∀ (s : State) (e : ExpressionNode),
      StatementListFollowed noGlobals s (statements [.returnNode (some e)]) := by
    intro s e
    simp [statements, StatementListFollowed, StatementFollowed]
  rw [shadowingBody, statements, StatementListFollowed]
  refine ⟨?_, ?_⟩
  · rw [StatementFollowed]
    refine ⟨?_, ?_⟩
    · rw [statements, StatementListFollowed, StatementFollowed]
      refine ⟨fun value coerced hvalue hcoerced => ?_, fun _ _ => trivial⟩
      cases hvalue
      cases hcoerced
      exact ⟨⟨.i64, .int 2 .i64⟩, rfl, .refl _⟩
    · intro s' h name location hl
      obtain rfl : fiveBound.declare "x" ⟨.i64, .int 2 .i64⟩ = s' := Flow.next.inj (some.inj h)
      have hlt : location < fiveBound.fresh :=
        (agree_emptyState.declare "x" (v := .int 5 .i64) (.refl _)).fresh name location hl
      simp only [State.declare, update_of_ne (Nat.ne_of_lt hlt)]
      exact .refl _
  · intro s' _
    rw [statements, StatementListFollowed, StatementFollowed]
    refine ⟨?_, fun t _ => hlist t _⟩
    rw [IfChainFollowed]
    intro v _
    split
    · exact ⟨hlist s' _, hret s' _⟩
    · simp only [Bool.false_eq_true, if_false, IfChainFollowed]
      intro w _
      split
      · exact ⟨hlist s' _, hret s' _⟩
      · trivial

end Mlang.ConstexprStatements
