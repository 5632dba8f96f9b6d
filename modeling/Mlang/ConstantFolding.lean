import Mlang.Constexpr
import Mlang.IntegerReadings

namespace Mlang.ConstantFolding

open TypeKinds IntegerIR Expressions Constexpr IntegerReadings Option Bool
open BitVec (add_assoc add_zero ofInt_add ofInt_mul ofInt_neg)

def isIntegerExpression : ExpressionNode → Bool
  | .intLiteral _ explicitType => explicitType.all isIntegerInferKind
  | .boolLiteral _ => true
  | .identifier _ => false
  | .cast targetType e => (isIntegerInferKind targetType || targetType == .bool) &&
      isIntegerExpression e
  | .unaryOp _ e => isIntegerExpression e
  | .binaryOp _ l r => isIntegerExpression l && isIntegerExpression r
  | .ternary c t f => isIntegerExpression c && isIntegerExpression t && isIntegerExpression f

def noConstants : String → Option ConstexprValue := fun _ => none

def noVariables : CodegenEnv := ⟨fun _ => none, fun _ => none⟩

def reading (unsigned : Bool) (w : Nat) (x : Int) : Int := valueOf unsigned (BitVec.ofInt w x)

structure PlainValue where
  value : Int
  kind : TypeKind
  deriving DecidableEq

def isNonzero (x : Int) : Bool := BitVec.ofInt 64 x != 0

def truth (b : Bool) : PlainValue := ⟨if b then 1 else 0, .bool⟩

def plainBinary (op : BinaryOp) (l r : PlainValue) : Option PlainValue :=
  let u := unsignedOperands l.kind r.kind
  let x := reading u 64 l.value
  let y := reading u 64 r.value
  if op.yieldsBool then
    (comparisonPredicate u op).map fun p => truth (Predicate.integers p x y)
  else
    ((arithmeticOpcode u op).bind fun o => Opcode.integers o x y).map
      fun z => ⟨z, integerResultKind l.kind r.kind⟩

/-- The value of a closed expression in plain 64-bit arithmetic. -/
def plainValue : ExpressionNode → Option PlainValue
  | .intLiteral value explicitType => some ⟨value.toInt, explicitType.getD .i64⟩
  | .boolLiteral value => some (truth value)
  | .identifier _ => none
  | .cast targetType e => do
    let p ← plainValue e
    let kind := normalizeInferredKind targetType
    if kind = .bool then return truth (isNonzero p.value)
    else if isIntegerInferKind kind then return ⟨p.value, kind⟩
    else none
  | .unaryOp op e => do
    let p ← plainValue e
    match op with
    | .neg => return ⟨-p.value, p.kind⟩
    | .not => return truth (!isNonzero p.value)
    | .bitNot => return ⟨-p.value - 1, p.kind⟩
  | .binaryOp op l r => do
    let x ← plainValue l
    if op.shortCircuits (isNonzero x.value) then return truth (isNonzero x.value)
    let y ← plainValue r
    if op.isLogical then return truth (isNonzero y.value)
    else plainBinary op x y
  | .ternary c t f => do
    let p ← plainValue c
    if isNonzero p.value then plainValue t else plainValue f

/-- Extending the low `w` bits to `m` bits restores the value there. -/
def widens (unsigned : Bool) (w m : Nat) (x : Int) : Bool :=
  BitVec.ofInt m (reading unsigned w x) == BitVec.ofInt m x

def readsSame (unsigned : Bool) (w : Nat) (unsigned64 : Bool) (x : Int) : Bool :=
  reading unsigned w x == reading unsigned64 64 x

def testsSame (w : Nat) (x : Int) : Bool :=
  (BitVec.ofInt w x != 0) == isNonzero x

def isTruth (x : Int) : Bool := BitVec.ofInt 1 x == BitVec.ofBool (isNonzero x)

def operandsWiden (unsigned : Bool) (op : BinaryOp) (wl wr : Nat) (x y : Int) : Bool :=
  if op.isShift then widens true wr wl y
  else widens unsigned wl (max wl wr) x && widens unsigned wr (max wl wr) y

/-- What the instruction of an operator reads at width `w` is what the 64-bit operation reads. -/
def instructionReads (unsigned unsigned64 : Bool) (op : BinaryOp) (w : Nat) (x y : Int) : Bool :=
  match op with
  | .divide | .modulo =>
    readsSame unsigned w unsigned64 x && readsSame unsigned w unsigned64 y &&
      (unsigned || BitVec.ofInt w x != BitVec.intMin w || BitVec.ofInt w y != BitVec.allOnes w)
  | .shl => decide (reading true 64 y < w)
  | .shr => readsSame unsigned w unsigned64 x && decide (reading true 64 y < w)
  | .lt | .gt | .le | .ge => readsSame unsigned w unsigned64 x && readsSame unsigned w unsigned64 y
  | .eq | .ne =>
    (readsSame true w true x && readsSame true w true y) ||
      (readsSame false w false x && readsSame false w false y)
  | _ => true

/-- Two bools are compared without a sign. -/
def readsUnsigned (unsigned : Bool) (op : BinaryOp) (wl wr : Nat) : Bool :=
  unsigned || op.yieldsBool && (wl == 1 && wr == 1)

def operandWidth (op : BinaryOp) (wl wr : Nat) : Nat := if op.isShift then wl else max wl wr

def castReads (targetType : TypeKind) (sourceType : Option TypeKind) (w : Nat) (x : Int) : Bool :=
  if targetType = .bool then isTruth x
  else
    (getLLVMIntWidth targetType).all fun m =>
      w == m || widens (w == 1 || sourceType.any isUnsignedType) w m x

def widthOf (e : ExpressionNode) : Nat := (generatedWidth noVariables.variableTypes e).getD 0

def valueOn (e : ExpressionNode) (reads : Nat → Int → Bool) : Bool :=
  (plainValue e).all fun p => reads (widthOf e) p.value

/-- Every operand that an executed instruction reads by its magnitude, an extension, a condition or
a conversion to bool included, is read as the number it is in plain 64-bit arithmetic. -/
def readsPlainValues : ExpressionNode → Bool
  | .intLiteral _ _ | .boolLiteral _ | .identifier _ => true
  | .cast targetType e =>
    readsPlainValues e &&
      valueOn e (castReads targetType (inferExpressionTypeNode noVariables.variableTypes e))
  | .unaryOp op e => readsPlainValues e && (op != .not || valueOn e testsSame)
  | .binaryOp op l r =>
    readsPlainValues l &&
      if op.isLogical then
        valueOn l testsSame && valueOn l fun _ x =>
          op.shortCircuits (isNonzero x) || readsPlainValues r && valueOn r testsSame
      else
        readsPlainValues r && (plainValue l).all fun x => (plainValue r).all fun y =>
          let u := useUnsignedIntOps noVariables.variableTypes l r
          operandsWiden u op (widthOf l) (widthOf r) x.value y.value &&
            instructionReads (readsUnsigned u op (widthOf l) (widthOf r))
              (unsignedOperands x.kind y.kind) op (operandWidth op (widthOf l) (widthOf r))
              x.value y.value
  | .ternary c t f =>
    readsPlainValues c && valueOn c testsSame &&
      valueOn c fun _ x =>
        if isNonzero x then
          readsPlainValues t && valueOn t fun w => widens false w (max (widthOf t) (widthOf f))
        else
          readsPlainValues f && valueOn f fun w => widens false w (max (widthOf t) (widthOf f))

/-- The emitted constant of a bool type is a test, where the generated value is a low bit. -/
def emitsPlainValue (e : ExpressionNode) : Bool :=
  readsPlainValues e &&
    (inferExpressionTypeNode noVariables.variableTypes e != some .bool || valueOn e fun _ => isTruth)

variable {op : BinaryOp} {u : Bool} {e : ExpressionNode} {o : Opcode} {p p₂ p₁ : PlainValue} {k : TypeKind}

def Represents (v : ConstexprValue) (p : PlainValue) : Prop :=
  v.constexprValueAsInt = BitVec.ofInt 64 p.value ∧ v.typeKind = p.kind

theorem represents_truth (b : Bool) : Represents (.bool b) (truth b) := by
  cases b <;> exact ⟨rfl, rfl⟩

variable {v v₁ v₂ : ConstexprValue}

theorem Represents.boolValue (h : Represents v p) : v.boolValue = isNonzero p.value := by
  rw [ConstexprValue.boolValue_eq, h.1]
  rfl

theorem ofInt_reading (u : Bool) (w : Nat) (x : Int) :
    BitVec.ofInt w (reading u w x) = BitVec.ofInt w x :=
  ofInt_valueOf u _

theorem Represents.cast {v' : ConstexprValue} (h : Represents v p)
    (hc : coerceConstexprValueToKind v k = some v') : ∃ p',
    (if normalizeInferredKind k = .bool then some (truth (isNonzero p.value)) else if isIntegerInferKind
      (normalizeInferredKind k) then some ⟨p.value, normalizeInferredKind k⟩ else none)
    = some p' ∧ Represents v' p' := by
  simp only [coerceConstexprValueToKind] at hc
  by_cases hb : normalizeInferredKind k = .bool
  · rw [if_pos hb, Option.some.injEq] at hc
    subst hc
    rw [if_pos hb, h.boolValue]
    exact ⟨_, rfl, represents_truth _⟩
  · rw [if_neg hb] at hc ⊢
    by_cases hi : isIntegerInferKind (normalizeInferredKind k) = true
    · rw [if_pos hi, Option.some.injEq] at hc
      subst hc
      rw [if_pos hi]
      exact ⟨_, rfl, h.1, rfl⟩
    · rw [if_neg hi] at hc
      simp at hc

theorem opcode_reads (h : arithmeticOpcode u op = some o) : Opcode.Reads o u := by
  cases op <;> cases u <;> simp [arithmeticOpcode] at h <;> subst h <;> simp [Opcode.Reads]

theorem predicate_reads {p : Predicate} (h : comparisonPredicate u op = some p) : Predicate.Reads p u := by
  cases op <;> cases u <;> simp [comparisonPredicate] at h <;> subst h <;> simp [Predicate.Reads]

theorem Represents.binary (h₁ : Represents v₁ p₁) (h₂ : Represents v₂ p₂) (hl : op.isLogical = false)
    (h : evalBinary op v₁ v₂ = some v) : ∃ p, plainBinary op p₁ p₂ = some p ∧ Represents v p := by
  simp only [evalBinary, h₁.1, h₁.2, h₂.1, h₂.2] at h
  unfold plainBinary
  by_cases hb : op.yieldsBool = true
  · rw [if_pos hb] at h ⊢
    obtain ⟨p, hp⟩ : ∃ p, comparisonPredicate (unsignedOperands p₁.kind p₂.kind) op = some p := by
      cases op <;> first | exact ⟨_, rfl⟩ | exact absurd hb (by decide) | exact absurd hl (by decide)
    rw [evalComparison_eq_test hp, map_some, Option.some.injEq] at h
    subst h
    rw [hp, test_eq_integers (predicate_reads hp)]
    exact ⟨_, rfl, represents_truth _⟩
  · rw [if_neg hb] at h ⊢
    obtain ⟨o, ho⟩ : ∃ o, arithmeticOpcode (unsignedOperands p₁.kind p₂.kind) op = some o := by
      cases op <;> first | exact ⟨_, rfl⟩ | exact absurd rfl hb
    obtain ⟨z, hz, rfl⟩ := map_eq_some_iff.mp h
    rw [evalArithmetic_eq_exec ho] at hz
    have hd := (Opcode.exec_isSome_iff o _ _).mp (isSome_of_eq_some hz)
    obtain ⟨r, hr, hx⟩ := exec_eq_ofInt_integers (opcode_reads ho) le_rfl hd
    rw [hz, Option.some.injEq] at hx
    refine ⟨⟨r, integerResultKind p₁.kind p₂.kind⟩, ?_, hx, rfl⟩
    rw [ho, bind_some]
    exact congrArg (Option.map _) hr

theorem Represents.unary {v : ConstexprValue} {p : PlainValue} (h : Represents v p)
    (op : UnaryOp) :
    Represents (evalUnary op v) (match op with
      | .neg => ⟨-p.value, p.kind⟩
      | .not => truth (!isNonzero p.value)
      | .bitNot => ⟨-p.value - 1, p.kind⟩) := by
  cases op with
  | neg => exact ⟨by rw [ofInt_neg, ← h.1]; rfl, h.2⟩
  | not =>
    simp only [evalUnary, h.boolValue]
    exact represents_truth _
  | bitNot =>
    refine ⟨?_, h.2⟩
    have hn := BitVec.neg_eq_not_add (BitVec.ofInt 64 p.value)
    rw [Int.sub_eq_add_neg, ofInt_add, ofInt_neg, hn, ← h.1, add_assoc]
    exact (add_zero _).symm

theorem evalBinary_logical (h : op.isLogical = true) {b₁ : Bool} (hs : op.shortCircuits b₁ = false)
    (hb : v₁.boolValue = b₁) : evalBinary op v₁ v₂ = some (.bool v₂.boolValue) := by
  rw [ConstexprValue.boolValue_eq] at hb
  cases op with
  | and =>
    obtain rfl : b₁ = true := by simpa [BinaryOp.shortCircuits] using hs
    simp only [evalBinary, BinaryOp.yieldsBool, if_true, evalComparison, map_some, hb,
      Bool.true_and, ConstexprValue.boolValue_eq v₂]
  | or =>
    obtain rfl : b₁ = false := by simpa [BinaryOp.shortCircuits] using hs
    simp only [evalBinary, BinaryOp.yieldsBool, if_true, evalComparison, map_some, hb,
      Bool.false_or, ConstexprValue.boolValue_eq v₂]
  | plus | minus | multiply | divide | modulo | bitAnd | bitOr | bitXor | shl | shr | lt | gt | le
  | ge | eq | ne => exact absurd h (by decide)

theorem represents_plainValue {depth : Nat} (h : evalConstexprExpression noConstants depth e = some v) :
    ∃ p, plainValue e = some p ∧ Represents v p := by
  induction e generalizing depth v with
  | intLiteral value explicitType =>
    rw [evalConstexprExpression] at h
    split at h
    · simp at h
    · cases h
      exact ⟨_, rfl, (BitVec.ofInt_toInt).symm, rfl⟩
  | boolLiteral value =>
    rw [evalConstexprExpression] at h
    split at h
    · simp at h
    · cases h
      exact ⟨_, rfl, represents_truth value⟩
  | identifier name =>
    rw [evalConstexprExpression] at h
    split at h <;> simp [noConstants] at h
  | cast targetType e ih =>
    rw [evalConstexprExpression] at h
    split at h
    · simp at h
    · obtain ⟨out, ho, hc⟩ := bind_eq_some_iff.mp h
      obtain ⟨p, hp, hr⟩ := ih ho
      obtain ⟨p', hp', hr'⟩ := hr.cast hc
      exact ⟨p', by rw [plainValue, hp]; exact hp', hr'⟩
  | unaryOp op e ih =>
    rw [evalConstexprExpression] at h
    split at h
    · simp at h
    · obtain ⟨out, ho, hc⟩ := bind_eq_some_iff.mp h
      cases hc
      obtain ⟨p, hp, hr⟩ := ih ho
      refine ⟨_, ?_, hr.unary op⟩
      rw [plainValue, hp]
      cases op <;> rfl
  | binaryOp op l r ihl ihr =>
    rw [evalConstexprExpression] at h
    split at h
    · simp at h
    · obtain ⟨v₁, h₁, hc⟩ := bind_eq_some_iff.mp h
      obtain ⟨p₁, hp₁, hr₁⟩ := ihl h₁
      simp only [plainValue, hp₁, bind_eq_bind, bind_some]
      rw [hr₁.boolValue] at hc
      by_cases hs : op.shortCircuits (isNonzero p₁.value) = true
      · rw [if_pos hs] at hc ⊢
        cases hc
        exact ⟨_, rfl, represents_truth _⟩
      · rw [if_neg hs] at hc ⊢
        obtain ⟨v₂, h₂, hc⟩ := bind_eq_some_iff.mp hc
        obtain ⟨p₂, hp₂, hr₂⟩ := ihr h₂
        simp only [hp₂, bind_some]
        by_cases hl : op.isLogical = true
        · rw [evalBinary_logical hl (by simpa using hs) hr₁.boolValue, hr₂.boolValue] at hc
          cases hc
          rw [if_pos hl]
          exact ⟨_, rfl, represents_truth _⟩
        · rw [if_neg hl]
          exact hr₁.binary hr₂ (by simpa using hl) hc
  | ternary c t f ihc iht ihf =>
    rw [evalConstexprExpression] at h
    split at h
    · simp at h
    · obtain ⟨v, hv, hc⟩ := bind_eq_some_iff.mp h
      obtain ⟨p, hp, hr⟩ := ihc hv
      simp only [plainValue, hp, bind_eq_bind, bind_some]
      rw [hr.boolValue] at hc
      by_cases hb : isNonzero p.value = true
      · rw [if_pos hb] at hc ⊢
        exact iht hc
      · rw [if_neg hb] at hc ⊢
        exact ihf hc

def pattern (w : Nat) (x : Int) : IRInt := ⟨w, BitVec.ofInt w x⟩

variable {u' u64 : Bool} {w m wl wr : Nat} {x y z : Int} {o64 : Opcode}

theorem intCast_of_widens (h : widens u w m x = true) : (pattern w x).intCast (!u) m = pattern m x := by
  rw [pattern, intCast_eq_ofInt]
  exact congrArg (IRInt.mk m) (beq_iff_eq.mp h)

theorem integers_sign {o' : Opcode} (ho : arithmeticOpcode u op = some o)
    (ho' : arithmeticOpcode u' op = some o') (x y : Int) :
    Opcode.integers o x y = Opcode.integers o' x y := by
  cases op <;> cases u <;> cases u' <;> simp [arithmeticOpcode] at ho ho' <;> subst ho ho' <;> rfl

theorem matchOperands_widen (h : operandsWiden u op wl wr x y = true) :
    matchOperands u op (pattern wl x) (pattern wr y) =
    (pattern (operandWidth op wl wr) x, pattern (operandWidth op wl wr) y) := by
  unfold operandsWiden at h
  unfold matchOperands
  by_cases hs : op.isShift = true
  · have hw : operandWidth op wl wr = wl := if_pos hs
    rw [if_pos hs] at h ⊢
    rw [hw]
    exact congrArg (Prod.mk _) (intCast_of_widens h)
  · have hw : operandWidth op wl wr = max wl wr := if_neg hs
    rw [if_neg hs, and_eq_true] at h
    obtain ⟨hx, hy⟩ := h
    rw [if_neg hs, hw]
    rcases Nat.lt_trichotomy wl wr with hlt | rfl | hgt
    · rw [Nat.max_eq_right hlt.le] at hx ⊢
      rw [if_neg (show ¬ (pattern wr y).width < (pattern wl x).width from hlt.not_gt),
        if_pos (show (pattern wl x).width < (pattern wr y).width from hlt)]
      exact congrArg (Prod.mk · _) (intCast_of_widens hx)
    · rw [Nat.max_self, if_neg (show ¬ (pattern wl y).width < (pattern wl x).width from lt_irrefl _),
        if_neg (show ¬ (pattern wl x).width < (pattern wl y).width from lt_irrefl _)]
    · rw [Nat.max_eq_left hgt.le] at hy ⊢
      rw [if_pos (show (pattern wr y).width < (pattern wl x).width from hgt)]
      exact congrArg (Prod.mk _) (intCast_of_widens hy)

variable (hw : w ≤ 64)
include hw

theorem reading_amount (h : reading true 64 y < w) :
    (BitVec.ofInt w y).toNat < w ∧ ∀ u, reading u 64 y = ((BitVec.ofInt w y).toNat : Int) := by
  have hlt : (BitVec.ofInt 64 y).toNat < w := by
    rw [reading, valueOf_true] at h
    exact_mod_cast h
  have he : (BitVec.ofInt w y).toNat = (BitVec.ofInt 64 y).toNat := by
    rw [← setWidth_ofInt hw, BitVec.toNat_setWidth, Nat.mod_eq_of_lt]
    exact hlt.trans Nat.lt_two_pow_self
  rw [he]
  exact ⟨hlt, fun u => valueOf_of_lt_width (by omega) u⟩

theorem ofInt_reading_of_le (u : Bool) (x : Int) :
    BitVec.ofInt w (reading u 64 x) = BitVec.ofInt w x :=
  ofInt_valueOf_of_le hw u x

theorem setWidth_reading (u : Bool) (x : Int) :
    (BitVec.ofInt 64 (reading u 64 x)).setWidth w = BitVec.ofInt w x := by
  rw [ofInt_reading, setWidth_ofInt hw]

theorem exec_readsSame (hx : reading u w x = reading u64 64 x)
    (hy : reading u w y = reading u64 64 y) (ho : arithmeticOpcode u op = some o)
    (ho64 : arithmeticOpcode u64 op = some o64) (hd : Opcode.Defined o (BitVec.ofInt w x) (BitVec.ofInt w y))
    (hz : Opcode.integers o64 (reading u64 64 x) (reading u64 64 y) = some z) :
    o.exec (BitVec.ofInt w x) (BitVec.ofInt w y) = some (BitVec.ofInt w z) := by
  obtain ⟨r, hr, he⟩ := exec_eq_ofInt_integers (opcode_reads ho) hw hd
  change Opcode.integers o (reading u w x) (reading u w y) = some r at hr
  rw [hx, hy, integers_sign ho ho64, hz, Option.some.injEq] at hr
  rw [he, hr]

theorem exec_plain (h : instructionReads u u64 op w x y = true)
    (ho : arithmeticOpcode u op = some o) (ho64 : arithmeticOpcode u64 op = some o64)
    (hz : Opcode.integers o64 (reading u64 64 x) (reading u64 64 y) = some z) :
    o.exec (BitVec.ofInt w x) (BitVec.ofInt w y) = some (BitVec.ofInt w z) := by
  have hnz : ∀ v : Int, v ≠ 0 → reading u w y = v → BitVec.ofInt w y ≠ 0 := by
    intro v hv hr h0
    exact hv (by rw [← hr, reading, h0, valueOf_eq_zero_iff])
  cases op with
  | plus =>
    cases ho
    cases ho64
    cases hz
    rw [ofInt_add, ofInt_reading_of_le hw, ofInt_reading_of_le hw]
    rfl
  | minus =>
    cases ho
    cases ho64
    cases hz
    rw [Int.sub_eq_add_neg, ofInt_add, ofInt_neg, ofInt_reading_of_le hw,
      ofInt_reading_of_le hw, ← BitVec.sub_eq_add_neg]
    rfl
  | multiply =>
    cases ho
    cases ho64
    cases hz
    rw [ofInt_mul, ofInt_reading_of_le hw, ofInt_reading_of_le hw]
    rfl
  | bitAnd =>
    cases ho
    cases ho64
    cases hz
    rw [ofInt_toInt_setWidth hw, BitVec.setWidth_and, setWidth_reading hw, setWidth_reading hw]
    rfl
  | bitOr =>
    cases ho
    cases ho64
    cases hz
    rw [ofInt_toInt_setWidth hw, BitVec.setWidth_or, setWidth_reading hw, setWidth_reading hw]
    rfl
  | bitXor =>
    cases ho
    cases ho64
    cases hz
    rw [ofInt_toInt_setWidth hw, BitVec.setWidth_xor, setWidth_reading hw, setWidth_reading hw]
    rfl
  | divide | modulo =>
    simp only [instructionReads, readsSame, and_eq_true, beq_iff_eq] at h
    obtain ⟨⟨hx, hy⟩, hov⟩ := h
    refine exec_readsSame hw hx hy ho ho64 ?_ hz
    have hy0 : reading u64 64 y ≠ 0 := by
      intro h0
      rw [← integers_sign ho ho64] at hz
      cases u <;> obtain rfl := some.inj ho <;> simp [Opcode.integers, h0] at hz
    have hY := hnz _ hy0 hy
    cases u with
    | true =>
      cases ho
      exact hY
    | false =>
      cases ho
      refine ⟨hY, ?_⟩
      rintro ⟨h1, h2⟩
      simp [h1, h2] at hov
  | shl =>
    obtain ⟨hlt, hy⟩ := reading_amount hw (of_decide_eq_true h)
    cases ho
    cases ho64
    rw [hy, Opcode.integers, if_pos (by omega), Option.some.injEq, Int.toNat_natCast] at hz
    rw [← hz, ofInt_mul, ofInt_reading_of_le hw, ofInt_two_pow, ← BitVec.shiftLeft_eq_mul_twoPow]
    exact if_pos hlt
  | shr =>
    simp only [instructionReads, readsSame, and_eq_true, beq_iff_eq] at h
    obtain ⟨hx, hs⟩ := h
    obtain ⟨hlt, hy⟩ := reading_amount hw (of_decide_eq_true hs)
    refine exec_readsSame hw hx ?_ ho ho64 ?_ hz
    · rw [hy]
      exact valueOf_of_lt_width hlt u
    · cases u <;> obtain rfl := some.inj ho <;> exact hlt
  | lt | gt | le | ge | eq | ne | and | or => simp [arithmeticOpcode] at ho

omit hw

theorem integers_predicate_sign {p p' : Predicate} (hp : comparisonPredicate u op = some p)
    (hp' : comparisonPredicate u' op = some p') (x y : Int) :
    Predicate.integers p x y = Predicate.integers p' x y := by
  cases op <;> cases u <;> cases u' <;> simp [comparisonPredicate] at hp hp' <;> subst hp hp' <;>
    rfl

theorem test_plain (h : instructionReads u u64 op w x y = true) {p p64 : Predicate}
    (hp : comparisonPredicate u op = some p) (hp64 : comparisonPredicate u64 op = some p64) :
    p.test (BitVec.ofInt w x) (BitVec.ofInt w y) =
    Predicate.integers p64 (reading u64 64 x) (reading u64 64 y) := by
  cases op with
  | lt | gt | le | ge =>
    simp only [instructionReads, readsSame, and_eq_true, beq_iff_eq] at h
    rw [test_eq_integers (predicate_reads hp), integers_predicate_sign hp hp64]
    exact congrArg₂ _ h.1 h.2
  | eq | ne =>
    obtain ⟨s, hx, hy⟩ : ∃ s, reading s w x = reading s 64 x ∧ reading s w y = reading s 64 y := by
      simp only [instructionReads, readsSame, or_eq_true, and_eq_true, beq_iff_eq] at h
      exact h.elim (fun h => ⟨true, h⟩) (fun h => ⟨false, h⟩)
    have hs : ∀ s, Predicate.Reads p s := by
      cases hp
      exact fun _ => trivial
    obtain rfl : p = p64 := some.inj (hp.symm.trans hp64)
    rw [test_eq_integers (hs s), reading, reading, ← test_eq_integers (hs u64), test_eq_integers (hs s)]
    exact congrArg₂ _ hx hy
  | plus | minus | multiply | divide | modulo | bitAnd | bitOr | bitXor | shl | shr | and | or =>
    simp [comparisonPredicate] at hp

theorem pattern_truth (b : Bool) : IRInt.ofBool b = pattern 1 (truth b).value := by
  cases b <;> rfl

def resultWidth (op : BinaryOp) (wl wr : Nat) : Nat :=
  if op.yieldsBool then 1 else operandWidth op wl wr

theorem generateBinaryInstruction_plain (hl : op.isLogical = false) (hwl : wl ≤ 64) (hwr : wr ≤ 64)
    (ho : operandsWiden u op wl wr p₁.value p₂.value = true)
    (hi : instructionReads (readsUnsigned u op wl wr) (unsignedOperands p₁.kind p₂.kind) op
      (operandWidth op wl wr) p₁.value p₂.value = true) (hp : plainBinary op p₁ p₂ = some p) :
    generateBinaryInstruction u op (pattern wl p₁.value) (pattern wr p₂.value) =
    some (pattern (resultWidth op wl wr) p.value) := by
  have hw : operandWidth op wl wr ≤ 64 := by
    unfold operandWidth
    split
    · exact hwl
    · exact max_le hwl hwr
  have hm := matchOperands_widen ho
  unfold plainBinary at hp
  by_cases hb : op.yieldsBool = true
  · rw [if_pos hb] at hp
    obtain ⟨p64, hp64, rfl⟩ := map_eq_some_iff.mp hp
    have hu : readsUnsigned u op wl wr = (u || areBools (pattern wl p₁.value) (pattern wr p₂.value)) := by
      rw [readsUnsigned, hb, Bool.true_and]
      rfl
    rw [hu] at hi
    obtain ⟨q, hq⟩ : ∃ q,
        comparisonPredicate (u || areBools (pattern wl p₁.value) (pattern wr p₂.value)) op = some q := by
      cases op <;> first | exact ⟨_, rfl⟩ | exact absurd hb (by decide) | exact absurd hl (by decide)
    rw [generateBinaryInstruction_of_predicate hq hm, test_plain hi hq hp64, pattern_truth,
      resultWidth, if_pos hb]
  · rw [if_neg hb] at hp
    obtain ⟨z, hz, rfl⟩ := map_eq_some_iff.mp hp
    obtain ⟨o64, ho64, hz⟩ := bind_eq_some_iff.mp hz
    obtain ⟨o, hoq⟩ : ∃ o, arithmeticOpcode u op = some o := by
      cases op <;> first | exact ⟨_, rfl⟩ | exact absurd rfl hb
    rw [readsUnsigned, Bool.eq_false_iff.2 hb, Bool.false_and, Bool.or_false] at hi
    rw [generateBinaryInstruction_of_opcode hoq hm, exec_plain hw hi hoq ho64 hz, resultWidth, if_neg hb]
    rfl

theorem generatedWidth_bounds (h : isIntegerExpression e = true) :
    ∃ w, generatedWidth noVariables.variableTypes e = some w ∧ 0 < w ∧ w ≤ 64 := by
  induction e with
  | intLiteral value explicitType => exact ⟨64, rfl, by omega, le_rfl⟩
  | boolLiteral value => exact ⟨1, rfl, by omega, by omega⟩
  | identifier name => simp [isIntegerExpression] at h
  | cast targetType e ih =>
    simp only [isIntegerExpression, and_eq_true, or_eq_true, beq_iff_eq] at h
    obtain ⟨w, hw⟩ : ∃ w, getLLVMIntWidth targetType = some w := by
      cases targetType <;> first | exact ⟨_, rfl⟩ | simp [isIntegerInferKind, normalizeInferredKind] at h
    exact ⟨w, hw, getLLVMIntWidth_le hw⟩
  | unaryOp op e ih =>
    obtain ⟨w, hw, hb⟩ := ih h
    cases op with
    | not => exact ⟨1, rfl, by omega, by omega⟩
    | neg | bitNot => exact ⟨w, hw, hb⟩
  | binaryOp op l r ihl ihr =>
    simp only [isIntegerExpression, and_eq_true] at h
    obtain ⟨wl, hl, hl0, hl64⟩ := ihl h.1
    obtain ⟨wr, hr, hr0, hr64⟩ := ihr h.2
    simp only [generatedWidth, hl, hr]
    split
    · exact ⟨1, rfl, by omega, by omega⟩
    · split
      · exact ⟨wl, rfl, hl0, hl64⟩
      · exact ⟨max wl wr, rfl, by omega, by omega⟩
  | ternary c t f ihc iht ihf =>
    simp only [isIntegerExpression, and_eq_true] at h
    obtain ⟨wt, ht, ht0, ht64⟩ := iht h.1.2
    obtain ⟨wf, hf, hf0, hf64⟩ := ihf h.2
    exact ⟨max wt wf, by simp [generatedWidth, ht, hf], by omega, by omega⟩

theorem isNonzero_pattern (h : testsSame w x = true) : (pattern w x).isNonzero = isNonzero x :=
  beq_iff_eq.mp h

theorem valueOn_some {reads : Nat → Int → Bool} (hp : plainValue e = some p) :
    valueOn e reads = reads (widthOf e) p.value := by
  rw [valueOn, hp, all_some]

theorem normalizeInferredKind_eq_bool : normalizeInferredKind k = .bool ↔ k = .bool := by
  cases k <;> simp [normalizeInferredKind]

theorem pattern_isTruth (h : isTruth x = true) : pattern 1 x = pattern 1 (truth (isNonzero x)).value := by
  rw [← pattern_truth, pattern, beq_iff_eq.mp h]
  rfl

theorem castTo (h : w = m ∨ widens u w m x = true) :
    (if (pattern w x).width = m then pattern w x else (pattern w x).intCast (!u) m) = pattern m x := by
  by_cases hw : w = m
  · rw [if_pos (show (pattern w x).width = m from hw), hw]
  · rw [if_neg (show ¬ (pattern w x).width = m from hw)]
    exact intCast_of_widens (h.resolve_left hw)

theorem generateCastExpression_plain {targetType : TypeKind} {sourceType : Option TypeKind}
    (hk : (isIntegerInferKind targetType || targetType == .bool) = true) (hw : 0 < w)
    (hr : castReads targetType sourceType w x = true)
    (hp : (if normalizeInferredKind targetType = .bool then some (truth (isNonzero x)) else if
      isIntegerInferKind (normalizeInferredKind targetType) then some ⟨x, normalizeInferredKind targetType⟩
      else none) = some p) : generateCastExpression targetType sourceType (pattern w x) =
    some (pattern ((getLLVMIntWidth targetType).getD 0) p.value) := by
  have hbit : targetType ≠ .bit := by
    rintro rfl
    exact absurd hk (by decide)
  rw [generateCastExpression, if_neg hbit]
  by_cases hb : targetType = .bool
  · subst hb
    cases hp
    rw [show (getLLVMIntWidth .bool).getD 0 = 1 from rfl,
      ← pattern_isTruth (show isTruth x = true from hr)]
    exact congrArg some (castTo (.inr (beq_iff_eq.mpr (ofInt_valueOf_of_le hw _ _))))
  · rw [castReads, if_neg hb] at hr
    rw [if_neg (fun h => hb (normalizeInferredKind_eq_bool.mp h))] at hp
    obtain ⟨m, hm⟩ : ∃ m, getLLVMIntWidth targetType = some m := by
      cases targetType <;> first | exact ⟨_, rfl⟩ | exact absurd hk (by decide)
    simp only [hm, all_some, or_eq_true, beq_iff_eq] at hr
    rw [hm, getD_some]
    split at hp
    · cases hp
      exact congrArg some (castTo hr)
    · simp at hp

theorem pattern_neg (w : Nat) (x : Int) : generateUnaryOp .neg (pattern w x) = pattern w (-x) := by
  rw [pattern, pattern, ofInt_neg]
  rfl

theorem pattern_bitNot (w : Nat) (x : Int) :
    generateUnaryOp .bitNot (pattern w x) = pattern w (-x - 1) := by
  rw [pattern, pattern, Int.sub_eq_add_neg, ofInt_add, ofInt_neg, BitVec.neg_eq_not_add, add_assoc]
  have h1 : (1#w + BitVec.ofInt w (-1)) = 0#w := by
    rw [ofInt_neg]
    exact BitVec.add_right_neg 1#w
  rw [h1, add_zero]
  rfl

theorem generateExpression_plainValue (hi : isIntegerExpression e = true) (hr : readsPlainValues e = true)
    (hp : plainValue e = some p) : generateExpression noVariables e = some (pattern (widthOf e) p.value) := by
  induction e generalizing p with
  | intLiteral value explicitType =>
    cases hp
    simp [generateExpression, pattern, widthOf, generatedWidth]
  | boolLiteral value =>
    cases hp
    rw [generateExpression, pattern_truth]
    rfl
  | identifier name => simp [isIntegerExpression] at hi
  | cast targetType e ih =>
    simp only [isIntegerExpression, and_eq_true] at hi
    simp only [readsPlainValues, and_eq_true] at hr
    obtain ⟨q, hq, hp⟩ := bind_eq_some_iff.mp hp
    obtain ⟨w, hw, hw0, -⟩ := generatedWidth_bounds hi.2
    have hwe : widthOf e = w := by simp [widthOf, hw]
    rw [valueOn_some hq, hwe] at hr
    rw [generateExpression, ih hi.2 hr.1 hq, hwe]
    exact generateCastExpression_plain hi.1 hw0 hr.2 hp
  | unaryOp op e ih =>
    simp only [readsPlainValues, and_eq_true] at hr
    obtain ⟨q, hq, hp⟩ := bind_eq_some_iff.mp hp
    rw [generateExpression, ih hi hr.1 hq]
    cases op with
    | neg =>
      cases hp
      exact congrArg some (pattern_neg _ _)
    | not =>
      cases hp
      have ht : testsSame (widthOf e) q.value = true := by
        simpa [valueOn_some hq] using hr.2
      simp only [bind_eq_bind, bind_some, generateUnaryOp, isNonzero_pattern ht, pattern_truth]
      rfl
    | bitNot =>
      cases hp
      exact congrArg some (pattern_bitNot _ _)
  | binaryOp op l r ihl ihr =>
    simp only [isIntegerExpression, and_eq_true] at hi
    simp only [readsPlainValues, and_eq_true] at hr
    obtain ⟨p₁, hp₁, hp⟩ := bind_eq_some_iff.mp hp
    obtain ⟨hrl, hr⟩ := hr
    rw [generateExpression, ihl hi.1 hrl hp₁]
    simp only [bind_eq_bind, bind_some]
    by_cases hl : op.isLogical = true
    · have hw : widthOf (.binaryOp op l r) = 1 := by
        cases op <;> first | rfl | exact absurd hl (by decide)
      rw [if_pos hl, and_eq_true, valueOn_some hp₁, valueOn_some hp₁] at hr
      rw [isNonzero_pattern hr.1, hw]
      by_cases hs : op.shortCircuits (isNonzero p₁.value) = true
      · rw [if_pos hs] at hp ⊢
        cases hp
        exact congrArg some (pattern_truth _)
      · rw [if_neg hs] at hp ⊢
        obtain ⟨p₂, hp₂, hp⟩ := bind_eq_some_iff.mp hp
        rw [if_pos hl] at hp
        cases hp
        have hr₂ := hr.2
        rw [or_eq_true, or_iff_right hs, and_eq_true, valueOn_some hp₂] at hr₂
        rw [ihr hi.2 hr₂.1 hp₂]
        rw [bind_some, if_pos hl, isNonzero_pattern hr₂.2]
        exact congrArg some (pattern_truth _)
    · have hf : op.isLogical = false := by simpa using hl
      simp only [BinaryOp.shortCircuits_of_not_logical hf, hf, false_eq_true, if_false]
        at hp hr ⊢
      obtain ⟨p₂, hp₂, hp⟩ := bind_eq_some_iff.mp hp
      simp only [hp₁, hp₂, all_some, and_eq_true] at hr
      rw [ihr hi.2 hr.1 hp₂]
      obtain ⟨wl, hwl, -, hwl64⟩ := generatedWidth_bounds hi.1
      obtain ⟨wr, hwr, -, hwr64⟩ := generatedWidth_bounds hi.2
      have hl' : widthOf l = wl := by simp [widthOf, hwl]
      have hr' : widthOf r = wr := by simp [widthOf, hwr]
      have hw : widthOf (.binaryOp op l r) = resultWidth op wl wr := by
        simp only [widthOf, generatedWidth, hwl, hwr, resultWidth, operandWidth]
        split
        · rfl
        · split <;> rfl
      rw [hl', hr'] at hr ⊢
      rw [hw]
      exact generateBinaryInstruction_plain hf hwl64 hwr64 hr.2.1 hr.2.2 hp
  | ternary c t f ihc iht ihf =>
    simp only [isIntegerExpression, and_eq_true] at hi
    simp only [readsPlainValues, and_eq_true] at hr
    obtain ⟨q, hq, hp⟩ := bind_eq_some_iff.mp hp
    obtain ⟨⟨hrc, hrt⟩, hr⟩ := hr
    rw [valueOn_some hq] at hrt hr
    obtain ⟨wt, hwt, -, -⟩ := generatedWidth_bounds hi.1.2
    obtain ⟨wf, hwf, -, -⟩ := generatedWidth_bounds hi.2
    have ht' : widthOf t = wt := by simp [widthOf, hwt]
    have hf' : widthOf f = wf := by simp [widthOf, hwf]
    have hw : widthOf (.ternary c t f) = max wt wf := by
      simp [widthOf, generatedWidth, hwt, hwf]
    rw [generateExpression, ihc hi.1.1 hrc hq]
    simp only [bind_eq_bind, bind_some, hwt, hwf, isNonzero_pattern hrt, hw]
    by_cases hb : isNonzero q.value = true
    · rw [if_pos hb] at hp hr ⊢
      rw [and_eq_true, valueOn_some hp, ht', hf'] at hr
      rw [iht hi.1.2 hr.1 hp, ht']
      exact congrArg some (intCast_of_widens hr.2)
    · rw [if_neg hb] at hp hr ⊢
      rw [and_eq_true, valueOn_some hp, ht', hf'] at hr
      rw [ihf hi.2 hr.1 hp, hf']
      exact congrArg some (intCast_of_widens hr.2)

/-- Where folding succeeds, the emitted constant is the generated value modulo the width of the
expression's type. -/
def FoldAgrees (e : ExpressionNode) : Prop :=
  ∀ v, evalConstexprExpression noConstants 0 e = some v →
    ∃ k c g, inferExpressionTypeNode noVariables.variableTypes e = some k ∧
      buildLLVMConstantFromConstexprValue v k = some c ∧
      generateExpression noVariables e = some g ∧ g.intCast false c.width = c

theorem inferExpressionTypeNode_integer (h : isIntegerExpression e = true) : ∃ k w,
    inferExpressionTypeNode noVariables.variableTypes e = some k ∧ getLLVMIntWidth k = some w ∧
    w ≤ widthOf e := by
  induction e with
  | intLiteral value explicitType =>
    cases explicitType with
    | none => exact ⟨.i64, 64, rfl, rfl, le_rfl⟩
    | some k =>
      obtain ⟨w, hw⟩ : ∃ w, getLLVMIntWidth k = some w := by
        cases k <;> first | exact ⟨_, rfl⟩ | exact absurd h (by simp [isIntegerExpression,
          isIntegerInferKind, normalizeInferredKind])
      exact ⟨k, w, rfl, hw, (getLLVMIntWidth_le hw).2⟩
  | boolLiteral value => exact ⟨.bool, 1, rfl, rfl, le_rfl⟩
  | identifier name => simp [isIntegerExpression] at h
  | cast targetType e ih =>
    obtain ⟨w, hw, -⟩ := generatedWidth_bounds h
    exact ⟨targetType, w, rfl, hw, by simp [widthOf, hw]⟩
  | unaryOp op e ih =>
    cases op with
    | not => exact ⟨.bool, 1, rfl, rfl, le_rfl⟩
    | neg | bitNot => exact ih h
  | binaryOp op l r ihl ihr =>
    simp only [isIntegerExpression, and_eq_true] at h
    obtain ⟨k, w, hk, hw, hle⟩ := ihl h.1
    obtain ⟨wl, hwl, -⟩ := generatedWidth_bounds h.1
    obtain ⟨wr, hwr, -⟩ := generatedWidth_bounds h.2
    rw [widthOf, hwl, getD_some] at hle
    by_cases hb : op.yieldsBool = true
    · exact ⟨.bool, 1, if_pos hb, rfl, by simp [widthOf, generatedWidth, hb]⟩
    · refine ⟨k, w, ?_, hw, ?_⟩
      · rw [inferExpressionTypeNode, if_neg hb, hk, some_or]
      · rw [widthOf, generatedWidth, if_neg hb, hwl, hwr]
        split
        · exact hle
        · exact hle.trans (le_max_left wl wr)
  | ternary c t f ihc iht ihf =>
    simp only [isIntegerExpression, and_eq_true] at h
    obtain ⟨k, w, hk, hw, hle⟩ := iht h.1.2
    obtain ⟨wt, hwt, -⟩ := generatedWidth_bounds h.1.2
    obtain ⟨wf, hwf, -⟩ := generatedWidth_bounds h.2
    rw [widthOf, hwt, getD_some] at hle
    refine ⟨k, w, ?_, hw, ?_⟩
    · rw [inferExpressionTypeNode, hk, some_or]
    · rw [widthOf, generatedWidth, hwt, hwf]
      exact hle.trans (le_max_left wt wf)

/-- `((44 as u8) as i64) + ((3 as i64) << 2)`. -/
def widenedSum : ExpressionNode :=
  .binaryOp .plus (.cast .i64 (.cast .u8 (.intLiteral 44 none)))
    (.binaryOp .shl (.cast .i64 (.intLiteral 3 none)) (.intLiteral 2 none))

/-- `true < false` is compared as 1 and 0, `(-true) < false` as 1 and 0 instead of -1 and 0. -/
example : emitsPlainValue (.binaryOp .lt (.boolLiteral true) (.boolLiteral false)) = true ∧
    emitsPlainValue (.binaryOp .lt (.unaryOp .neg (.boolLiteral true)) (.boolLiteral false)) = false := by
  decide

/-- `(300 as u8) as i64`. -/
def widenedTruncation : ExpressionNode := .cast .i64 (.cast .u8 (.intLiteral 300 none))

end Mlang.ConstantFolding
