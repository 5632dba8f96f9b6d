import Mlang.BestCandidates
import Mlang.ConstraintRanking
import Mlang.OverloadResolution

namespace Mlang.CallResolution

open TypeKinds
open Mangling (Name TypeNode)
open Concepts (Path Candidate moreConstrained isSameModuleFamily)
open TypeInference (typeMangle asList)
open OverloadResolution (LLVMType getLLVMType)
open DisjunctiveTerms (Terms undominated)
open BestCandidates (cheapest)

section MachineTypes

variable {A : Type}

inductive MachineType (A : Type)
  | scalar (type : LLVMType)
  | aggregate (layout : A)
  deriving DecidableEq

structure TypeTables (A : Type) where
  namedType : Name → List TypeNode → MachineType A
  layout : TypeNode → A
  implementsTrait : TypeNode → Name → Bool

def MachineType.pointer : MachineType A := .scalar .pointer

def getLLVMTypeFromNode (E : TypeTables A) : TypeNode → MachineType A
  | .scalar kind => .scalar (getLLVMType kind)
  | .structRef structName => E.namedType structName []
  | .genericStruct structName typeArgs => E.namedType structName typeArgs
  | .pointer _ | .reference _ _ => .pointer
  | type => .aggregate (E.layout type)

def parameterLLVMType (E : TypeTables A) : TypeNode → MachineType A
  | .reference _ true => .pointer
  | .reference elementType false => getLLVMTypeFromNode E elementType
  | type => getLLVMTypeFromNode E type

variable [DecidableEq A]

def canConvertType (actualType expectedType : MachineType A) : Option Nat :=
  if actualType = expectedType then some 0
  else
    match actualType, expectedType with
    | .scalar actual, .scalar expected => OverloadResolution.canConvertType actual expected
    | _, _ => none

end MachineTypes

variable {A : Type}

/-- The forms of arguments that are told apart. `type` is the type that an argument, or the operand
of an address, has in the source; `operandType` is the one that the compiler knows the operand by,
if any. -/
inductive ArgumentKind
  | plain (type : TypeNode)
  | address (type : TypeNode) (isMutable : Bool) (operandType : Option TypeNode)
  | closure (parameters : List (Option TypeNode))
  | functionItem (types : List TypeNode)

/-- An argument: the types that the compiler knows it by, if any, and the type of its value. -/
structure Argument (A : Type) where
  kind : ArgumentKind
  semanticType : Option TypeNode
  functionType : Option TypeNode
  valueType : MachineType A

def Argument.isRefMut (a : Argument A) : Bool :=
  match a.kind with
  | .address _ true _ => true
  | _ => false

def Argument.isAddress (a : Argument A) : Bool :=
  match a.kind with
  | .address _ _ _ => true
  | _ => false

def stripReferences : TypeNode → TypeNode
  | .reference elementType _ => stripReferences elementType
  | type => type

def isCompositeSemanticType (type : TypeNode) : Bool :=
  match stripReferences type with
  | .genericList _ | .array _ _ | .multiArray _ _ _ | .map _ _ | .tuple _ | .function _ _ => true
  | _ => false

def isListToFixedArrayCompatible (expected actual : TypeNode) : Bool :=
  match asList (stripReferences expected), stripReferences actual with
  | some expectedElement, .array actualElement _ => typeMangle expectedElement == typeMangle actualElement
  | _, _ => false

def hasSeparator (name : Name) : Bool := name.tails.any fun rest => [':', ':'].isPrefixOf rest

def suffixMatches (qualified shortName : Name) : Bool :=
  !hasSeparator shortName && decide (shortName.length + 2 < qualified.length) &&
    (':' :: ':' :: shortName).isSuffixOf qualified

def traitNamesEquivalent (lhs rhs : Name) : Bool :=
  lhs == rhs || suffixMatches lhs rhs || suffixMatches rhs lhs

variable (E : TypeTables A)

def closureMatches (parameters : List (Option TypeNode)) (parameterTypes : List TypeNode) : Bool :=
  parameters.length == parameterTypes.length &&
    (parameters.zip parameterTypes).all fun p =>
      match p.1 with
      | none => true
      | some actualParameter => typeMangle actualParameter == typeMangle p.2

def itemMatches (parameterTypes : List TypeNode) (returnType itemType : TypeNode) : Bool :=
  match itemType with
  | .function itemParameters _ =>
    itemParameters.length == parameterTypes.length &&
      typeMangle itemType == typeMangle (.function parameterTypes returnType)
  | _ => false

def asFunction : Option TypeNode → Option TypeNode
  | some (.function parameterTypes returnType) => some (.function parameterTypes returnType)
  | _ => none

def actualFunction (parameterTypes : List TypeNode) (returnType : TypeNode)
    (actual : Option TypeNode) (a : Argument A) : Option TypeNode :=
  match a.kind with
  | .closure parameters =>
    if closureMatches parameters parameterTypes then some (.function parameterTypes returnType)
    else asFunction actual
  | .functionItem types =>
    if types.countP (itemMatches parameterTypes returnType) = 1 then
      some (.function parameterTypes returnType)
    else asFunction actual
  | _ => a.functionType.or (asFunction actual)

/-- Whether an argument suits a type, apart from conversions. -/
def suits (expected : TypeNode) (actual : Option TypeNode) (a : Argument A) : Bool :=
  match expected with
  | .function parameterTypes returnType =>
    match actualFunction parameterTypes returnType actual a with
    | some f => typeMangle (.function parameterTypes returnType) == typeMangle f
    | none => false
  | .traitObject traitName =>
    match actual with
    | some (.traitObject actualName) =>
      traitNamesEquivalent actualName traitName || E.implementsTrait (.traitObject actualName) traitName
    | some type => E.implementsTrait type traitName
    | none => false
  | _ =>
    match actual with
    | some type =>
      !((isCompositeSemanticType expected || isCompositeSemanticType type) &&
        typeMangle type != typeMangle expected && !isListToFixedArrayCompatible expected type)
    | none => true

def isCallableOrTraitObject : TypeNode → Bool
  | .function _ _ | .traitObject _ => true
  | _ => false

section Costs

variable {A : Type} [DecidableEq A] (E : TypeTables A)

def passCost (expected : TypeNode) (actual : Option TypeNode) (a : Argument A) (cost : Option Nat) :
    Option Nat :=
  if suits E expected actual a then
    if isCallableOrTraitObject expected then some 0 else cost
  else none

def Argument.referredType (a : Argument A) : Option TypeNode :=
  match a.kind with
  | .address _ _ operandType => operandType
  | _ => a.semanticType

def operandSuits (elementType : TypeNode) (operandType : Option TypeNode) : Bool :=
  match operandType with
  | some type => typeMangle type == typeMangle elementType || isListToFixedArrayCompatible elementType type
  | none => true

/-- The cost of one argument. A `&mut` parameter takes any argument that is not a `&mut` at no cost. -/
def argumentCost (param : TypeNode) (a : Argument A) : Option Nat :=
  match param with
  | .reference elementType true =>
    match a.kind with
    | .address _ true operandType =>
      if operandSuits elementType operandType then
        (canConvertType a.valueType .pointer).map fun _ => 0
      else none
    | _ => some 0
  | .reference elementType false =>
    passCost E elementType a.referredType a
      (if a.isAddress = true ∧ a.valueType = .pointer ∧
          getLLVMTypeFromNode E elementType = parameterLLVMType E param then some 0
        else canConvertType a.valueType (parameterLLVMType E param))
  | type => passCost E type a.semanticType a (canConvertType a.valueType (parameterLLVMType E type))

def totalCost : List TypeNode → List (Argument A) → Option Nat
  | [], _ => some 0
  | _ :: _, [] => none
  | param :: params, a :: arguments => do
    return (← argumentCost E param a) + (← totalCost params arguments)

end Costs

variable [DecidableEq A] (currentModule : Path)

structure FunctionOverloadInfo where
  parameters : List TypeNode
  isVarArg : Bool
  isPublic : Bool
  sourceModule : Path
  genericOrigin : Bool
  constraintTerms : Terms Name

def FunctionOverloadInfo.candidate (info : FunctionOverloadInfo) : Candidate Name :=
  ⟨info.genericOrigin, info.constraintTerms⟩

def isOverloadVisible (info : FunctionOverloadInfo) : Bool :=
  info.sourceModule == [] || isSameModuleFamily info.sourceModule currentModule || info.isPublic

def candidateCost (arguments : List (Argument A)) (info : FunctionOverloadInfo) : Option Nat :=
  if !isOverloadVisible currentModule info then none
  else if !info.isVarArg && info.parameters.length != arguments.length then none
  else if info.isVarArg && decide (arguments.length < info.parameters.length) then none
  else totalCost E info.parameters arguments

inductive Outcome
  | selected (best : FunctionOverloadInfo)
  | ambiguous
  | noMatch

def stronger (left right : FunctionOverloadInfo) : Bool :=
  moreConstrained left.candidate right.candidate

def resolveCall (overloads : List FunctionOverloadInfo) (arguments : List (Argument A)) : Outcome :=
  let equallyGood := (cheapest (candidateCost E currentModule arguments) overloads).equallyGood
  if 1 < equallyGood.length then
    match undominated stronger equallyGood with
    | [best] => .selected best
    | _ => .ambiguous
  else
    match equallyGood with
    | best :: _ => .selected best
    | [] => .noMatch

/-- The check of the selected overload: `&mut` parameters take `&mut` arguments. -/
def expectsRefMut (info : FunctionOverloadInfo) (arguments : List (Argument A)) : Bool :=
  (info.parameters.zip arguments).any fun p =>
    match p.1 with
    | .reference _ true => !p.2.isRefMut
    | _ => false

end Mlang.CallResolution
