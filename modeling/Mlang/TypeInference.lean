import Mlang.SignatureKeys

namespace Mlang.TypeInference

open TypeKinds
open Mangling (Name TypeNode)
open SignatureKeys (kindMangle joined joinedAll)
open TypeText (intText)

mutual

/-- `CodeGenerator::typeMangle`, the key types are compared by. -/
def typeMangle : TypeNode → Name
  | .reference elementType isMutable =>
    joined (if isMutable then "ref_mut".toList else "ref".toList) (typeMangle elementType)
  | .traitObject traitName => joined "dyn".toList traitName
  | .pointer elementType => joined "ptr".toList (typeMangle elementType)
  | .multiArray elementType capacity elementsMutable =>
    joined (joined (if elementsMutable then "mutmultiarray".toList else "multiarray".toList)
      (typeMangle elementType)) (intText capacity)
  | .array elementType capacity =>
    joined (joined "array".toList (typeMangle elementType)) (intText capacity)
  | .genericList elementType => joined "list".toList (typeMangle elementType)
  | .map keyType valueType => joined (joined "map".toList (typeMangle keyType)) (typeMangle valueType)
  | .tuple elementTypes => joinedAll "tuple".toList (typeMangles elementTypes)
  | .function parameterTypes returnType =>
    joined (joined (joinedAll "fn".toList (typeMangles parameterTypes)) "to".toList)
      (typeMangle returnType)
  | .genericStruct structName typeArgs =>
    joinedAll (joined "struct".toList structName) (typeMangles typeArgs)
  | .structRef structName => joined "struct".toList structName
  | .scalar kind => kindMangle kind

def typeMangles : List TypeNode → List Name
  | [] => []
  | t :: ts => typeMangle t :: typeMangles ts

end

mutual

def mapLeaves (f : Name → TypeNode) (g : TypeKind → TypeKind) : TypeNode → TypeNode
  | .reference elementType isMutable => .reference (mapLeaves f g elementType) isMutable
  | .pointer elementType => .pointer (mapLeaves f g elementType)
  | .structRef structName => f structName
  | .genericStruct structName typeArgs => .genericStruct structName (mapAllLeaves f g typeArgs)
  | .multiArray elementType capacity elementsMutable =>
    .multiArray (mapLeaves f g elementType) capacity elementsMutable
  | .array elementType capacity => .array (mapLeaves f g elementType) capacity
  | .genericList elementType => .genericList (mapLeaves f g elementType)
  | .map keyType valueType => .map (mapLeaves f g keyType) (mapLeaves f g valueType)
  | .tuple elementTypes => .tuple (mapAllLeaves f g elementTypes)
  | .function parameterTypes returnType =>
    .function (mapAllLeaves f g parameterTypes) (mapLeaves f g returnType)
  | .scalar kind => .scalar (g kind)
  | .traitObject traitName => .traitObject traitName

def mapAllLeaves (f : Name → TypeNode) (g : TypeKind → TypeKind) : List TypeNode → List TypeNode
  | [] => []
  | t :: ts => mapLeaves f g t :: mapAllLeaves f g ts

end

def substituteTypeParams (typeParams : List Name) (typeArgs : List TypeNode) : TypeNode → TypeNode :=
  mapLeaves (fun n => ((typeParams.zip typeArgs).lookup n).getD (.structRef n)) id

def asList : TypeNode → Option TypeNode
  | .genericList elementType => some elementType
  | .array elementType _ => some elementType
  | .multiArray elementType _ _ => some elementType
  | _ => none

def asArray : TypeNode → Option (TypeNode × Int)
  | .array elementType capacity => some (elementType, capacity)
  | .multiArray elementType capacity _ => some (elementType, capacity)
  | _ => none

def asMultiArray : TypeNode → Option (TypeNode × Int × Bool)
  | .multiArray elementType capacity elementsMutable => some (elementType, capacity, elementsMutable)
  | _ => none

def asMap : TypeNode → Option (TypeNode × TypeNode)
  | .map keyType valueType => some (keyType, valueType)
  | _ => none

def asTuple : TypeNode → Option (List TypeNode)
  | .tuple elementTypes => some elementTypes
  | _ => none

def asPointer : TypeNode → Option TypeNode
  | .pointer elementType => some elementType
  | _ => none

def asFunction : TypeNode → Option (List TypeNode × TypeNode)
  | .function parameterTypes returnType => some (parameterTypes, returnType)
  | _ => none

def referenced : TypeNode → TypeNode
  | .reference elementType _ => elementType
  | t => t

/-- `mangledToGenericName` and `monomorphizedTypeArgs`. -/
abbrev InstanceTable := Name → Option (Name × List TypeNode)

def asInstance (instanceOf : InstanceTable) : TypeNode → Option (Name × List TypeNode)
  | .genericStruct structName typeArgs => some (structName, typeArgs)
  | .structRef structName => instanceOf structName
  | _ => none

variable (instanceOf : InstanceTable) (typeParams : List Name)

abbrev Bindings := Name → Option TypeNode

def compareKeys (pattern concrete : TypeNode) (bindings : Bindings) : Option Bindings :=
  if typeMangle pattern = typeMangle concrete then some bindings else none

mutual

def bindType : TypeNode → TypeNode → Bindings → Option Bindings
  | .reference elementType _, concrete, bindings =>
    bindType elementType (referenced concrete) bindings
  | .function parameterTypes returnType, concrete, bindings =>
    match asFunction concrete with
    | none => none
    | some (concreteParameters, concreteResult) =>
      match bindTypes parameterTypes concreteParameters bindings with
      | none => none
      | some bindings' => bindType returnType concreteResult bindings'
  | .structRef structName, concrete, bindings =>
    if structName ∈ typeParams then
      match bindings structName with
      | none => some (Function.update bindings structName (some concrete))
      | some found => if typeMangle found = typeMangle concrete then some bindings else none
    else compareKeys (.structRef structName) concrete bindings
  | .multiArray elementType capacity elementsMutable, concrete, bindings =>
    match asMultiArray concrete with
    | none => none
    | some (concreteElement, concreteCapacity, concreteMutable) =>
      if capacity = concreteCapacity ∧ elementsMutable = concreteMutable then
        bindType elementType concreteElement bindings
      else none
  | .array elementType capacity, concrete, bindings =>
    match asArray concrete with
    | none => none
    | some (concreteElement, concreteCapacity) =>
      if capacity = concreteCapacity then bindType elementType concreteElement bindings
      else none
  | .genericList elementType, concrete, bindings =>
    match asList concrete with
    | none => none
    | some concreteElement => bindType elementType concreteElement bindings
  | .map keyType valueType, concrete, bindings =>
    match asMap concrete with
    | none => none
    | some (concreteKey, concreteValue) =>
      match bindType keyType concreteKey bindings with
      | none => none
      | some bindings' => bindType valueType concreteValue bindings'
  | .tuple elementTypes, concrete, bindings =>
    match asTuple concrete with
    | none => none
    | some concreteElements => bindTypes elementTypes concreteElements bindings
  | .pointer elementType, concrete, bindings =>
    match asPointer concrete with
    | none => none
    | some concreteElement => bindType elementType concreteElement bindings
  | .genericStruct structName typeArgs, concrete, bindings =>
    match asInstance instanceOf concrete with
    | none => none
    | some (genericName, concreteArgs) =>
      if structName = genericName then bindTypes typeArgs concreteArgs bindings else none
  | .scalar kind, concrete, bindings => compareKeys (.scalar kind) concrete bindings
  | .traitObject traitName, concrete, bindings => compareKeys (.traitObject traitName) concrete bindings

def bindTypes : List TypeNode → List TypeNode → Bindings → Option Bindings
  | [], [], bindings => some bindings
  | pattern :: patterns, concrete :: concretes, bindings =>
    match bindType pattern concrete bindings with
    | none => none
    | some bindings' => bindTypes patterns concretes bindings'
  | _, _, _ => none

end

/-- An argument whose type is known. `borrowed` is the mutability and the type of the operand
where the argument is written `&x` or `&mut x`. -/
structure Argument where
  type : TypeNode
  borrowed : Option (Bool × TypeNode)

/-- The type a parameter is matched against, which is that of the operand of a borrow where the
parameter is a reference of its mutability. -/
def concreteType (parameterType : TypeNode) (a : Argument) : Option TypeNode :=
  match parameterType with
  | .reference _ isMutable =>
    match a.borrowed with
    | some (borrowedMutable, operandType) =>
      if borrowedMutable = isMutable then some operandType
      else if isMutable then none
      else some a.type
    | none => if isMutable then none else some a.type
  | _ => some a.type

def bindArguments : List (TypeNode × Argument) → Bindings → Option Bindings
  | [], bindings => some bindings
  | (parameterType, a) :: rest, bindings =>
    match concreteType parameterType a with
    | none => none
    | some concrete =>
      match bindType instanceOf typeParams parameterType concrete bindings with
      | none => none
      | some bindings' => bindArguments rest bindings'

def inferGenericFunctionTypeBindings (parameters : List TypeNode) (arguments : List Argument) :
    Option Bindings :=
  if parameters.length = arguments.length then
    bindArguments instanceOf typeParams (parameters.zip arguments) (fun _ => none)
  else none

end Mlang.TypeInference
