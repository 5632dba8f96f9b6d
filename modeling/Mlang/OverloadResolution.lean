import Mlang.TypeKinds
import Mathlib.Data.List.Basic

namespace Mlang.OverloadResolution

open TypeKinds List

inductive LLVMType
  | void | integer (width : Nat) | float | double | pointer | aggregate (kind : TypeKind)
  deriving DecidableEq

def getLLVMType : TypeKind → LLVMType
  | .void => .void
  | .bool | .bit => .integer 1
  | .i8 | .u8 => .integer 8
  | .i16 | .u16 => .integer 16
  | .int | .i32 | .u32 => .integer 32
  | .i64 | .u64 => .integer 64
  | .float => .float
  | .double => .double
  | .string | .str8 | .str16 | .ptr | .ref | .refMut => .pointer
  | k => .aggregate k

def LLVMType.isInteger : LLVMType → Bool
  | .integer _ => true
  | _ => false

def LLVMType.isFloatingPoint : LLVMType → Bool
  | .float | .double => true
  | _ => false

def canConvertType (actualType expectedType : LLVMType) : Option Nat :=
  if actualType = expectedType then some 0
  else if actualType.isInteger && expectedType.isInteger then some 1
  else if actualType.isFloatingPoint && expectedType.isFloatingPoint then some 1
  else if actualType.isInteger && expectedType.isFloatingPoint then some 2
  else if actualType.isFloatingPoint && expectedType.isInteger then some 2
  else none

def isScalarKind (k : TypeKind) : Bool :=
  isIntegerInferKind k || isFloatInferKind k || k == .bool || k == .bit ||
    normalizeInferredKind k == .string

structure Parameter where
  name : String
  type : TypeKind

/-- A registered overload. `constraintTerms` and `genericOrigin` rank equally good candidates. -/
structure Overload where
  parameters : List Parameter
  isVarArg : Bool
  isCexpr : Bool
  hasBody : Bool
  isPublic : Bool
  sourceModule : String
  genericOrigin : Bool
  constraintTerms : List (List String)

def isSameModuleFamily (a b : String) : Bool :=
  if a = "" ∨ b = "" then a == b
  else
    a == b || (a.toList ++ [':', ':']).isPrefixOf b.toList ||
      (b.toList ++ [':', ':']).isPrefixOf a.toList

def isOverloadVisible (currentModule : String) (info : Overload) : Bool :=
  info.sourceModule == "" || isSameModuleFamily info.sourceModule currentModule || info.isPublic

def implies (left right : List (List String)) : Bool :=
  left.all fun term => right.any fun weaker => weaker.all fun name => term.contains name

def moreConstrained (left right : Overload) : Bool :=
  if left.genericOrigin != right.genericOrigin then !left.genericOrigin
  else
    let l := if left.constraintTerms = [] then [[]] else left.constraintTerms
    let r := if right.constraintTerms = [] then [[]] else right.constraintTerms
    implies l r && !implies r l

/-- What is known of an argument before its value: the type inferred for it, and whether it is an
integer literal, which `generateIntLiteral` emits as an `i64` constant whatever its suffix. -/
structure ArgumentType where
  kind : TypeKind
  literal : Bool
  integer : literal = true → isIntegerInferKind kind = true

def ArgumentType.llvmType (argument : ArgumentType) : LLVMType :=
  if argument.literal then .integer 64 else getLLVMType argument.kind

/-- A literal of a type narrower than the constant it is emitted as. -/
def ArgumentType.isNarrowLiteral (argument : ArgumentType) : Bool :=
  argument.literal && getLLVMType argument.kind != .integer 64

variable (currentModule : String) (passOther : TypeKind → TypeKind → Option Nat)

/-- The cost of one argument. `passOther` stands for passing a value to a parameter that is no scalar. -/
def argumentCost (param : Parameter) (argument : ArgumentType) : Option Nat :=
  if isScalarKind param.type then canConvertType argument.llvmType (getLLVMType param.type)
  else passOther param.type argument.kind

def totalCost : List Parameter → List ArgumentType → Option Nat
  | [], _ => some 0
  | _ :: _, [] => none
  | param :: params, argument :: arguments => do
    return (← argumentCost passOther param argument) + (← totalCost params arguments)

def candidateCost (info : Overload) (arguments : List ArgumentType) : Option Nat :=
  if !isOverloadVisible currentModule info then none
  else if !info.isVarArg && info.parameters.length != arguments.length then none
  else if info.isVarArg && arguments.length < info.parameters.length then none
  else totalCost passOther info.parameters arguments

structure Selection where
  bestCost : Option Nat
  equallyGood : List Nat

def consider (arguments : List ArgumentType) (selection : Selection) (candidate : Overload × Nat) :
    Selection :=
  match candidateCost currentModule passOther candidate.1 arguments with
  | none => selection
  | some cost =>
    match selection.bestCost with
    | none => ⟨some cost, [candidate.2]⟩
    | some best =>
      if cost < best then ⟨some cost, [candidate.2]⟩
      else if cost = best then ⟨some best, selection.equallyGood ++ [candidate.2]⟩
      else selection

def preferred (overloads : List Overload) (equallyGood : List Nat) : List Nat :=
  equallyGood.filter fun candidate =>
    !equallyGood.any fun other =>
      other != candidate && (match overloads[other]?, overloads[candidate]? with
        | some left, some right => moreConstrained left right
        | _, _ => false)

def selectOverload (overloads : List Overload) (arguments : List ArgumentType) : Option Nat :=
  let equallyGood :=
    (overloads.zipIdx.foldl (consider currentModule passOther arguments) ⟨none, []⟩).equallyGood
  match (if equallyGood.length > 1 then preferred overloads equallyGood else equallyGood) with
  | [best] => some best
  | _ => none

structure FloatOps (F : Type) where
  ofInt : Bool → BitVec 64 → F
  toInt : F → BitVec 64
  isNonzero : F → Bool

variable {F : Type} (ops : FloatOps F)

inductive ArgumentValue (F : Type)
  | int (intValue : BitVec 64) (typeKind : TypeKind)
  | float (floatValue : F) (typeKind : TypeKind)
  | bool (boolValue : Bool)

namespace ArgumentValue

def typeKind : ArgumentValue F → TypeKind
  | .int _ k | .float _ k => k
  | .bool _ => .bool

def toBool : ArgumentValue F → Bool
  | .int x _ => x != 0
  | .float x _ => ops.isNonzero x
  | .bool b => b

def toInt : ArgumentValue F → BitVec 64
  | .int x _ => x
  | .float x _ => ops.toInt x
  | .bool b => if b then 1 else 0

def toFloat : ArgumentValue F → F
  | .int x k => ops.ofInt (isUnsignedType k) x
  | .float x _ => x
  | .bool b => ops.ofInt false (if b then 1 else 0)

end ArgumentValue

def coerceConstexprValueToKind (value : ArgumentValue F) (targetKind : TypeKind) :
    Option (ArgumentValue F) :=
  let targetKind := normalizeInferredKind targetKind
  if targetKind = .bool then some (.bool (value.toBool ops))
  else if isFloatInferKind targetKind then some (.float (value.toFloat ops) targetKind)
  else if isIntegerInferKind targetKind then some (.int (value.toInt ops) targetKind)
  else none

/-- An argument, with its value where compile-time evaluation has one. No string has one. -/
structure Argument (F : Type) where
  type : ArgumentType
  value : Option (ArgumentValue F)

def isCexprCandidate (arity : Nat) (info : Overload) : Bool :=
  info.isCexpr && info.hasBody && !info.isVarArg && info.parameters.length == arity

def bindArgument (argument : Argument F) : Option (ArgumentValue F) := do
  let value ← argument.value
  coerceConstexprValueToKind ops value (normalizeInferredKind argument.type.kind)

/-- The overload whose body compile-time evaluation runs, and the values of its parameters. -/
def evalConstexprCall (overloads : List Overload) (arguments : List (Argument F)) :
    Option (Nat × List (String × ArgumentValue F)) := do
  let candidate ← overloads.zipIdx.find? fun candidate =>
    isCexprCandidate arguments.length candidate.1
  let values ← arguments.mapM (bindArgument ops)
  return (candidate.2, (candidate.1.parameters.map Parameter.name).zip values)

/-- After some candidates: the selection holds those of least cost. -/
structure SelectsLeast (arguments : List ArgumentType) (seen : List (Overload × Nat))
    (selection : Selection) : Prop where
  member : ∀ k ∈ selection.equallyGood, ∃ info c, (info, k) ∈ seen ∧
    candidateCost currentModule passOther info arguments = some c ∧ selection.bestCost = some c
  least : ∀ info k c, (info, k) ∈ seen →
    candidateCost currentModule passOther info arguments = some c →
      ∃ b, selection.bestCost = some b ∧ b ≤ c ∧ (b = c → k ∈ selection.equallyGood)

variable {arguments : List ArgumentType} {seen : List (Overload × Nat)} {selection : Selection}
  {overloads : List Overload}

theorem selectsLeast_consider (h : SelectsLeast currentModule passOther arguments seen selection)
    (candidate : Overload × Nat) : SelectsLeast currentModule passOther arguments (seen ++ [candidate])
    (consider currentModule passOther arguments selection candidate) := by
  obtain ⟨info₀, k₀⟩ := candidate
  unfold consider
  cases hc : candidateCost currentModule passOther info₀ arguments with
  | none =>
    refine ⟨fun k hk => ?_, fun info k c hm hcost => ?_⟩
    · obtain ⟨info, c, hm, hcost, hb⟩ := h.member k hk
      exact ⟨info, c, mem_append_left _ hm, hcost, hb⟩
    · rcases mem_append.mp hm with hm | hm
      · exact h.least info k c hm hcost
      · obtain ⟨rfl, rfl⟩ : info = info₀ ∧ k = k₀ := by simpa using hm
        simp [hc] at hcost
  | some cost =>
    cases hb : selection.bestCost with
    | none =>
      refine ⟨fun k hk => ?_, fun info k c hm hcost => ?_⟩
      · obtain rfl : k = k₀ := by simpa using hk
        exact ⟨info₀, cost, by simp, hc, rfl⟩
      · rcases mem_append.mp hm with hm | hm
        · obtain ⟨b, hb', -⟩ := h.least info k c hm hcost
          simp [hb] at hb'
        · obtain ⟨rfl, rfl⟩ : info = info₀ ∧ k = k₀ := by simpa using hm
          obtain rfl : cost = c := Option.some.inj (hc.symm.trans hcost)
          exact ⟨cost, rfl, Nat.le_refl _, fun _ => by simp⟩
    | some best =>
      by_cases hlt : cost < best
      · simp only [if_pos hlt]
        refine ⟨fun k hk => ?_, fun info k c hm hcost => ?_⟩
        · obtain rfl : k = k₀ := by simpa using hk
          exact ⟨info₀, cost, by simp, hc, rfl⟩
        · rcases mem_append.mp hm with hm | hm
          · obtain ⟨b, hb', hle, -⟩ := h.least info k c hm hcost
            obtain rfl : best = b := Option.some.inj (hb.symm.trans hb')
            exact ⟨cost, rfl, by omega, fun he => by omega⟩
          · obtain ⟨rfl, rfl⟩ : info = info₀ ∧ k = k₀ := by simpa using hm
            obtain rfl : cost = c := Option.some.inj (hc.symm.trans hcost)
            exact ⟨cost, rfl, Nat.le_refl _, fun _ => by simp⟩
      · by_cases heq : cost = best
        · subst heq
          simp only [if_neg (Nat.lt_irrefl cost)]
          rw [if_pos trivial]
          refine ⟨fun k hk => ?_, fun info k c hm hcost => ?_⟩
          · rcases mem_append.mp hk with hk | hk
            · obtain ⟨info, c, hm, hcost, hb'⟩ := h.member k hk
              exact ⟨info, c, mem_append_left _ hm, hcost, by rw [← hb, hb']⟩
            · obtain rfl : k = k₀ := by simpa using hk
              exact ⟨info₀, cost, by simp, hc, rfl⟩
          · rcases mem_append.mp hm with hm | hm
            · obtain ⟨b, hb', hle, hin⟩ := h.least info k c hm hcost
              obtain rfl : cost = b := Option.some.inj (hb.symm.trans hb')
              exact ⟨cost, rfl, hle, fun he => mem_append_left _ (hin he)⟩
            · obtain ⟨rfl, rfl⟩ : info = info₀ ∧ k = k₀ := by simpa using hm
              obtain rfl : cost = c := Option.some.inj (hc.symm.trans hcost)
              exact ⟨cost, rfl, Nat.le_refl _, fun _ => by simp⟩
        · simp only [if_neg hlt, if_neg heq]
          refine ⟨fun k hk => ?_, fun info k c hm hcost => ?_⟩
          · obtain ⟨info, c, hm, hcost, hb'⟩ := h.member k hk
            exact ⟨info, c, mem_append_left _ hm, hcost, hb'⟩
          · rcases mem_append.mp hm with hm | hm
            · exact h.least info k c hm hcost
            · obtain ⟨rfl, rfl⟩ : info = info₀ ∧ k = k₀ := by simpa using hm
              obtain rfl : cost = c := Option.some.inj (hc.symm.trans hcost)
              exact ⟨best, hb, by omega, fun he => absurd he.symm heq⟩

theorem selectsLeast_foldl (rest : List (Overload × Nat))
    (h : SelectsLeast currentModule passOther arguments seen selection) :
    SelectsLeast currentModule passOther arguments (seen ++ rest)
    (rest.foldl (consider currentModule passOther arguments) selection) := by
  induction rest generalizing seen selection with
  | nil => simpa using h
  | cons candidate rest ih =>
    simpa using ih (selectsLeast_consider currentModule passOther h candidate)

def Unconstrained (info : Overload) : Prop :=
  info.genericOrigin = false ∧ info.constraintTerms = []

theorem moreConstrained_unconstrained {left right : Overload} (hl : Unconstrained left)
    (hr : Unconstrained right) : moreConstrained left right = false := by
  simp [moreConstrained, hl.1, hl.2, hr.1, hr.2, implies]

theorem preferred_unconstrained (h : ∀ info ∈ overloads, Unconstrained info) (equallyGood : List Nat) :
    preferred overloads equallyGood = equallyGood := by
  rw [preferred, filter_eq_self]
  intro candidate _
  rw [Bool.not_eq_true', any_eq_false]
  intro other _
  rw [Bool.and_eq_true, not_and]
  intro _
  split
  · next left right hl hr =>
    rw [moreConstrained_unconstrained (h left (mem_of_getElem? hl)) (h right (mem_of_getElem? hr))]
    exact Bool.false_ne_true
  · exact Bool.false_ne_true

theorem selectOverload_least (h : ∀ info ∈ overloads, Unconstrained info) {j : Nat}
    (hj : selectOverload currentModule passOther overloads arguments = some j) : ∃ info c,
    overloads[j]? = some info ∧ candidateCost currentModule passOther info arguments = some c ∧ ∀ k info' c',
    overloads[k]? = some info' → candidateCost currentModule passOther info' arguments = some c' → c ≤ c' ∧
    (c = c' → k = j) := by
  have hs := selectsLeast_foldl currentModule passOther overloads.zipIdx
    (show SelectsLeast currentModule passOther arguments [] ⟨none, []⟩ from
      ⟨fun k hk => by simp at hk, fun _ _ _ hm => by simp at hm⟩)
  rw [nil_append] at hs
  simp only [selectOverload, preferred_unconstrained h, ite_self] at hj
  have hg : (overloads.zipIdx.foldl (consider currentModule passOther arguments)
      ⟨none, []⟩).equallyGood = [j] := by
    split at hj
    · next best hbest =>
      rw [hbest, Option.some.inj hj]
    · simp at hj
  obtain ⟨info, c, hm, hcost, hbest⟩ := hs.member j (by rw [hg]; simp)
  refine ⟨info, c, mem_zipIdx_iff_getElem?.mp hm, hcost, fun k info' c' hk hcost' => ?_⟩
  obtain ⟨b, hb, hle, hin⟩ := hs.least info' k c' (mem_zipIdx_iff_getElem?.mpr hk) hcost'
  obtain rfl : c = b := Option.some.inj (hbest.symm.trans hb)
  refine ⟨hle, fun he => ?_⟩
  have hmem := hin he
  rw [hg] at hmem
  simpa using hmem

def BoundAsDeclared (info : Overload) (env : List (String × ArgumentValue F)) : Prop :=
  env.map (fun binding => binding.2.typeKind) =
    info.parameters.map fun param => normalizeInferredKind param.type

/-- The compile-time call evaluates the overload the run-time call selects, with every parameter of
its declared type. -/
def CallsAgree (overloads : List Overload) (i j : Nat) (env : List (String × ArgumentValue F)) :
    Prop :=
  i = j ∧ ∀ info, overloads[i]? = some info → BoundAsDeclared info env

def narrowLiterals (arguments : List ArgumentType) : Nat := arguments.countP ArgumentType.isNarrowLiteral

/-- The first compile-time candidate in declaration order is visible to the caller and declares
exactly the kinds of the arguments, and no overload takes the values that are emitted for them with
fewer conversions than there are literals to narrow. -/
structure FirstCandidateExact (overloads : List Overload) (arguments : List ArgumentType) : Prop where
  exact : ∀ info, overloads.find? (isCexprCandidate arguments.length) = some info →
    isOverloadVisible currentModule info = true ∧
      info.parameters.map (fun param => normalizeInferredKind param.type) =
        arguments.map fun argument => normalizeInferredKind argument.kind
  closest : ∀ info ∈ overloads, ∀ cost, candidateCost currentModule passOther info arguments = some cost →
    narrowLiterals arguments ≤ cost

theorem isScalarKind_normalize (k : TypeKind) :
    isScalarKind (normalizeInferredKind k) = isScalarKind k := by
  cases k <;> rfl

theorem getLLVMType_normalize (k : TypeKind) : getLLVMType (normalizeInferredKind k) = getLLVMType k := by
  cases k <;> rfl

variable {k : TypeKind} {info : Overload} {i : Nat}

theorem typeKind_coerce {value coerced : ArgumentValue F}
    (h : coerceConstexprValueToKind ops value k = some coerced) :
    coerced.typeKind = normalizeInferredKind k ∧ isScalarKind k = true := by
  simp only [coerceConstexprValueToKind] at h
  rw [← isScalarKind_normalize k]
  by_cases hb : normalizeInferredKind k = .bool
  · rw [if_pos hb] at h
    cases h
    rw [hb]
    exact ⟨rfl, rfl⟩
  · rw [if_neg hb] at h
    by_cases hf : isFloatInferKind (normalizeInferredKind k) = true
    · rw [if_pos hf] at h
      cases h
      exact ⟨rfl, by simp [isScalarKind, hf]⟩
    · rw [if_neg hf] at h
      by_cases hi : isIntegerInferKind (normalizeInferredKind k) = true
      · rw [if_pos hi] at h
        cases h
        exact ⟨rfl, by simp [isScalarKind, hi]⟩
      · rw [if_neg hi] at h
        simp at h

theorem mapM_bindArgument {arguments : List (Argument F)} {values : List (ArgumentValue F)}
    (h : arguments.mapM (bindArgument ops) = some values) :
    values.map ArgumentValue.typeKind =
        arguments.map (fun argument => normalizeInferredKind argument.type.kind) ∧
      ∀ argument ∈ arguments, isScalarKind argument.type.kind = true := by
  induction arguments generalizing values with
  | nil =>
    obtain rfl : [] = values := by simpa using h
    simp
  | cons argument arguments ih =>
    rw [mapM_cons] at h
    obtain ⟨value, hv, h⟩ := Option.bind_eq_some_iff.mp h
    obtain ⟨rest, hr, h⟩ := Option.bind_eq_some_iff.mp h
    cases h
    obtain ⟨raw, -, hc⟩ := Option.bind_eq_some_iff.mp hv
    obtain ⟨hk, hs⟩ := typeKind_coerce ops hc
    obtain ⟨hks, hss⟩ := ih hr
    rw [normalizeInferredKind_idem] at hk
    rw [isScalarKind_normalize] at hs
    simp only [map_cons, hk, hks, mem_cons, forall_eq_or_imp]
    exact ⟨trivial, hs, hss⟩

theorem find?_zipIdx {p : Overload → Bool}
    (h : overloads.zipIdx.find? (fun candidate => p candidate.1) = some (info, i)) :
    overloads[i]? = some info ∧ overloads.find? p = some info := by
  refine ⟨mem_zipIdx_iff_getElem?.mp (mem_of_find?_eq_some h), ?_⟩
  rw [← zipIdx_map_fst 0 overloads, find?_map]
  exact congrArg (Option.map Prod.fst) h

theorem evalConstexprCall_some {arguments : List (Argument F)} {env : List (String × ArgumentValue F)}
    (h : evalConstexprCall ops overloads arguments = some (i, env)) : ∃ info, overloads[i]? = some info ∧
    overloads.find? (isCexprCandidate arguments.length) = some info ∧
    isCexprCandidate arguments.length info = true ∧ env.map (fun binding => binding.2.typeKind) =
    arguments.map (fun argument => normalizeInferredKind argument.type.kind) ∧ ∀ argument ∈ arguments,
    isScalarKind argument.type.kind = true := by
  obtain ⟨⟨info, k⟩, hfind, h⟩ := Option.bind_eq_some_iff.mp h
  obtain ⟨values, hvalues, h⟩ := Option.bind_eq_some_iff.mp h
  cases h
  obtain ⟨hk, hf⟩ := find?_zipIdx hfind
  have hcand := find?_some hf
  obtain ⟨hkinds, hscalar⟩ := mapM_bindArgument ops hvalues
  refine ⟨info, hk, hf, hcand, ?_, hscalar⟩
  have hlen : info.parameters.length = arguments.length := by
    simp only [isCexprCandidate, Bool.and_eq_true, beq_iff_eq] at hcand
    exact hcand.2
  have hvlen : values.length = arguments.length := by
    simpa using congrArg List.length hkinds
  have hz : ((info.parameters.map Parameter.name).zip values).map Prod.snd = values :=
    map_snd_zip (by simp [hlen, hvlen])
  rw [← hkinds]
  conv_rhs => rw [← hz, map_map]
  rfl

theorem integer_of_isIntegerInferKind (h : isIntegerInferKind k = true) : ∃ width, getLLVMType k = .integer width := by
  rw [← getLLVMType_normalize]
  rw [isIntegerInferKind] at h
  split at h
  case h_9 => cases h
  all_goals rename_i hk; rw [hk]; exact ⟨_, rfl⟩

/-- An argument of the declared kind costs nothing, except for a literal that has to be narrowed. -/
theorem argumentCost_exact {param : Parameter} {argument : ArgumentType}
    (hs : isScalarKind argument.kind = true)
    (h : normalizeInferredKind param.type = normalizeInferredKind argument.kind) :
    argumentCost passOther param argument = some (if argument.isNarrowLiteral then 1 else 0) := by
  have hp : isScalarKind param.type = true := by
    rw [← isScalarKind_normalize, h, isScalarKind_normalize]
    exact hs
  rw [argumentCost, if_pos hp, ← getLLVMType_normalize param.type, h, getLLVMType_normalize,
    ArgumentType.llvmType, ArgumentType.isNarrowLiteral]
  cases hliteral : argument.literal with
  | false => simp [canConvertType]
  | true =>
    obtain ⟨width, hwidth⟩ := integer_of_isIntegerInferKind (argument.integer hliteral)
    rw [hwidth, if_pos rfl]
    by_cases hwide : width = 64
    · simp [canConvertType, hwide]
    · simp [canConvertType, LLVMType.isInteger, hwide, Ne.symm hwide]

theorem totalCost_exact {params : List Parameter} (hs : ∀ argument ∈ arguments, isScalarKind argument.kind = true)
    (h : params.map (fun param => normalizeInferredKind param.type) =
      arguments.map fun argument => normalizeInferredKind argument.kind) :
    totalCost passOther params arguments = some (narrowLiterals arguments) := by
  induction params generalizing arguments with
  | nil =>
    obtain rfl : arguments = [] := map_eq_nil_iff.1 h.symm
    rfl
  | cons param params ih =>
    cases arguments with
    | nil => simp at h
    | cons argument arguments =>
      simp only [map_cons, List.cons.injEq] at h
      rw [totalCost, argumentCost_exact passOther (hs argument mem_cons_self) h.1,
        ih (fun argument hargument => hs argument (mem_cons_of_mem _ hargument)) h.2]
      exact congrArg some ((Nat.add_comm ..).trans countP_cons.symm)

theorem isOverloadVisible_of_cost {c : Nat}
    (h : candidateCost currentModule passOther info arguments = some c) :
    isOverloadVisible currentModule info = true := by
  by_contra hv
  rw [Bool.not_eq_true] at hv
  simp [candidateCost, hv] at h

def wholeNumbers : FloatOps Int where
  ofInt unsigned x := if unsigned then x.toNat else x.toInt
  toInt x := BitVec.ofInt 64 x
  isNonzero x := x != 0

def cexprFunction (param : TypeKind) : Overload where
  parameters := [⟨"x", param⟩]
  isVarArg := false
  isCexpr := true
  hasBody := true
  isPublic := true
  sourceModule := ""
  genericOrigin := false
  constraintTerms := []

def passNone : TypeKind → TypeKind → Option Nat := fun _ _ => none

def u8 : ArgumentType := ⟨.u8, false, nofun⟩

def u8Literal : ArgumentType := ⟨.u8, true, fun _ => rfl⟩

end Mlang.OverloadResolution
