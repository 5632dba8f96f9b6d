import Mathlib
import Mlang.Mangling

namespace Mlang.TypeText

open TypeKinds Mangling BracketedText

/-- `TypeNode::toString`, which has no text of its own for the kinds of the derived nodes. -/
def kindText : TypeKind → Text
  | .void => "void".toList
  | .bool => "bool".toList
  | .bit => "bit".toList
  | .int => "i32".toList
  | .float => "f32".toList
  | .double => "f64".toList
  | .string => "str8".toList
  | .str8 => "str8".toList
  | .str16 => "str16".toList
  | .list => "list".toList
  | .map => "map".toList
  | .tuple => "tuple".toList
  | .ptr => "ptr".toList
  | .struct => "struct".toList
  | .i8 => "i8".toList
  | .i16 => "i16".toList
  | .i32 => "i32".toList
  | .i64 => "i64".toList
  | .u8 => "u8".toList
  | .u16 => "u16".toList
  | .u32 => "u32".toList
  | .u64 => "u64".toList
  | _ => "unknown".toList

def intText : Int → Text
  | .ofNat n => Nat.toDigits 10 n
  | .negSucc n => '-' :: Nat.toDigits 10 (n + 1)

def dimensions : TypeNode → List Int
  | .array elementType capacity => capacity :: dimensions elementType
  | .multiArray elementType capacity _ => capacity :: dimensions elementType
  | _ => []

def bracketed (head inner : Text) : Text := head ++ '<' :: (inner ++ ['>'])

mutual

/-- With `inside`, the text of what is left of a type once its dimensions are taken off. -/
def typeText (inside : Bool) : TypeNode → Text
  | .scalar kind => kindText kind
  | .structRef structName => structName
  | .genericStruct structName typeArgs => bracketed structName (commaSeparated (typeTexts typeArgs))
  | .genericList elementType => bracketed "list".toList (typeText false elementType)
  | .array elementType capacity =>
    if inside then typeText true elementType
    else bracketed "array".toList
      (commaSeparated [typeText false elementType, intText capacity])
  | .multiArray elementType capacity elementsMutable =>
    if inside then typeText true elementType
    else bracketed (if elementsMutable then "mutmultiarray".toList else "multiarray".toList)
      (commaSeparated (typeText true elementType :: (capacity :: dimensions elementType).map intText))
  | .map keyType valueType =>
    bracketed "map".toList (commaSeparated [typeText false keyType, typeText false valueType])
  | .tuple elementTypes => bracketed "tuple".toList (commaSeparated (typeTexts elementTypes))
  | .pointer elementType => bracketed "ptr".toList (typeText false elementType)
  | .reference elementType isMutable =>
    (if isMutable then "&mut ".toList else "&".toList) ++ typeText false elementType
  | .function parameterTypes returnType =>
    "fn".toList ++ ('(' :: commaSeparated (typeTexts parameterTypes) ++ [')']) ++
      " -> ".toList ++ typeText false returnType
  | .traitObject traitName => "dyn ".toList ++ traitName

def typeTexts : List TypeNode → List Text
  | [] => []
  | t :: ts => typeText false t :: typeTexts ts

end

/-- `links` bounds the number of aliases that are followed. -/
def canonicalConstexprTypeName (typeAliases : Name → Option TypeNode) :
    Nat → TypeNode → Option Text
  | links, .structRef structName =>
    match typeAliases structName, links with
    | none, _ => some structName
    | some _, 0 => none
    | some aliasedType, links + 1 => canonicalConstexprTypeName typeAliases links aliasedType
  | _, t => some (typeText false t)

def primitiveTypeAliases : List (Text × TypeKind) :=
  [("bool".toList, .bool), ("bit".toList, .bit), ("i32".toList, .i32), ("i8".toList, .i8),
    ("i16".toList, .i16), ("i64".toList, .i64), ("u8".toList, .u8), ("u16".toList, .u16),
    ("u32".toList, .u32), ("u64".toList, .u64), ("f32".toList, .float), ("f64".toList, .double),
    ("str8".toList, .str8), ("str16".toList, .str16)]

/-- `std::from_chars` on the whole of a text, into 64 bits. -/
def int64FromChars : Text → Option Int
  | '-' :: digits =>
    if digits ≠ [] ∧ digits.all Char.isDigit ∧ Nat.ofDigitChars 10 digits 0 ≤ 2 ^ 63 then
      some (-(Nat.ofDigitChars 10 digits 0 : Int))
    else none
  | digits =>
    if digits ≠ [] ∧ digits.all Char.isDigit ∧ Nat.ofDigitChars 10 digits 0 < 2 ^ 63 then
      some (Nat.ofDigitChars 10 digits 0)
    else none

variable (read : Text → TypeNode)

def functionFromText (text : Text) : Option TypeNode :=
  if "fn(".toList.isPrefixOf text then
    match closeParen 1 [] (text.drop 3) with
    | some (parameters, rest) =>
      if "->".toList.isPrefixOf (trimCopy rest) then
        some (.function
          (if trimCopy parameters = [] then []
            else (splitTopLevelCommas (trimCopy parameters)).map read)
          (read ((trimCopy rest).drop 2)))
      else none
    | none => none
  else none

inductive ArrayWrapper
  | array
  | multiarray
  | mutmultiarray

def ArrayWrapper.head : ArrayWrapper → Text
  | .array => "array".toList
  | .multiarray => "multiarray".toList
  | .mutmultiarray => "mutmultiarray".toList

def ArrayWrapper.build : ArrayWrapper → Int → TypeNode → TypeNode
  | .array, capacity, element => .array element capacity
  | .multiarray, capacity, element => .multiArray element capacity false
  | .mutmultiarray, capacity, element => .multiArray element capacity true

def arrayFromText (text : Text) : Option TypeNode :=
  match [ArrayWrapper.array, .multiarray, .mutmultiarray].find?
      (fun wrapper => isWrappedGeneric text wrapper.head) with
  | none => none
  | some wrapper =>
    match splitTopLevelCommas (wrapped text wrapper.head) with
    | element :: capacity :: capacities =>
      match (capacity :: capacities).mapM int64FromChars with
      | some dimensions => some (dimensions.foldr wrapper.build (read element))
      | none => some (.structRef text)
    | _ => none

def genericFromText (text : Text) : TypeNode :=
  if '<' ∈ text ∧ text.getLast? = some '>' then
    .genericStruct (trimCopy (text.takeWhile (· ≠ '<')))
      ((splitTopLevelCommas (text.dropWhile (· ≠ '<')).tail.dropLast).map read)
  else .structRef text

def containerFromText (text : Text) : TypeNode :=
  if isWrappedGeneric text "list".toList then .genericList (read (wrapped text "list".toList))
  else
    match isWrappedGeneric text "map".toList,
      splitTopLevelCommas (wrapped text "map".toList) with
    | true, [key, value] => .map (read key) (read value)
    | _, _ =>
      if isWrappedGeneric text "tuple".toList then
        .tuple ((splitTopLevelCommas (wrapped text "tuple".toList)).map read)
      else genericFromText read text

/-- The cases of `type_from_text` on a trimmed text; `read` reads the parts. -/
def readType (text : Text) : TypeNode :=
  if text = "void".toList then .scalar .void
  else if "&mut ".toList.isPrefixOf text then .reference (read (text.drop 5)) true
  else if "&".toList.isPrefixOf text then .reference (read (text.drop 1)) false
  else if isWrappedGeneric text "ptr".toList then .pointer (read (wrapped text "ptr".toList))
  else
    match primitiveTypeAliases.lookup text with
    | some kind => .scalar kind
    | none =>
      if "dyn ".toList.isPrefixOf text then .traitObject (trimCopy (text.drop 4))
      else
        ((functionFromText read text).or (arrayFromText read text)).getD
          (containerFromText read text)

/-- The parts that are read are shorter than the text, so that `fuel` is never used up where it
exceeds the length. -/
def typeFromText : Nat → Text → TypeNode
  | 0, text => .structRef text
  | fuel + 1, text => readType (typeFromText fuel) (trimCopy text)

def keywords : List Text :=
  "void".toList :: primitiveTypeAliases.map Prod.fst ++
    ["ptr".toList, "array".toList, "multiarray".toList, "mutmultiarray".toList, "list".toList,
      "map".toList, "tuple".toList]

/-- The names the grammar has for types: identifiers, joined by `::`. -/
structure IsPath (name : Name) : Prop where
  ne_nil : name ≠ []
  chars : ∀ c ∈ name, isKept c = true ∨ c = ':'
  notKeyword : name ∉ keywords

mutual

def WellFormed : TypeNode → Prop
  | .scalar _ => True
  | .structRef structName => IsPath structName
  | .genericStruct structName typeArgs =>
    IsPath structName ∧ typeArgs ≠ [] ∧ AllWellFormed typeArgs
  | .genericList elementType => WellFormed elementType
  | .array elementType capacity => WellFormed elementType ∧ 0 ≤ capacity ∧ capacity < 2 ^ 63
  | .multiArray elementType capacity _ =>
    WellFormed elementType ∧ 0 ≤ capacity ∧ capacity < 2 ^ 63
  | .map keyType valueType => WellFormed keyType ∧ WellFormed valueType
  | .tuple elementTypes => elementTypes ≠ [] ∧ AllWellFormed elementTypes
  | .pointer elementType => WellFormed elementType
  | .reference elementType _ => WellFormed elementType
  | .function parameterTypes returnType => AllWellFormed parameterTypes ∧ WellFormed returnType
  | .traitObject traitName => IsPath traitName

def AllWellFormed : List TypeNode → Prop
  | [] => True
  | t :: ts => WellFormed t ∧ AllWellFormed ts

end

/-- The type behind the aliases `canonicalConstexprTypeName` follows. -/
def aliasedType (typeAliases : Name → Option TypeNode) : Nat → TypeNode → Option TypeNode
  | links, .structRef structName =>
    match typeAliases structName, links with
    | none, _ => some (.structRef structName)
    | some _, 0 => none
    | some t, links + 1 => aliasedType typeAliases links t
  | _, t => some t

def isWritten : TypeKind → Bool
  | .void | .bool | .bit | .float | .double | .str8 | .str16 => true
  | .i8 | .i16 | .i32 | .i64 | .u8 | .u16 | .u32 | .u64 => true
  | _ => false

mutual

/-- What reading the text of a type yields. `inside` is the mutability of the multiarray whose
dimension the type is. -/
def reread (inside : Option Bool) : TypeNode → TypeNode
  | .scalar .int => .scalar .i32
  | .scalar .string => .scalar .str8
  | .scalar kind => if isWritten kind then .scalar kind else .structRef (kindText kind)
  | .structRef structName => .structRef structName
  | .genericStruct structName typeArgs => .genericStruct structName (rereadAll typeArgs)
  | .genericList elementType => .genericList (reread none elementType)
  | .array elementType capacity =>
    match inside with
    | none => .array (reread none elementType) capacity
    | some elementsMutable => .multiArray (reread inside elementType) capacity elementsMutable
  | .multiArray elementType capacity elementsMutable =>
    .multiArray (reread (some (inside.getD elementsMutable)) elementType) capacity
      (inside.getD elementsMutable)
  | .map keyType valueType => .map (reread none keyType) (reread none valueType)
  | .tuple elementTypes => .tuple (rereadAll elementTypes)
  | .pointer elementType => .pointer (reread none elementType)
  | .reference elementType isMutable => .reference (reread none elementType) isMutable
  | .function parameterTypes returnType =>
    .function (rereadAll parameterTypes) (reread none returnType)
  | .traitObject traitName => .traitObject traitName

def rereadAll : List TypeNode → List TypeNode
  | [] => []
  | t :: ts => reread none t :: rereadAll ts

end

mutual

/-- No bare `list` or `map`, no string type that only inference writes, and no multiarray whose
dimensions are not multiarrays of its own mutability. -/
def Rereadable (inside : Option Bool) : TypeNode → Prop
  | .scalar kind => isWritten kind
  | .structRef _ => True
  | .genericStruct _ typeArgs => AllRereadable typeArgs
  | .genericList elementType => Rereadable none elementType
  | .array elementType _ => inside = none ∧ Rereadable none elementType
  | .multiArray elementType _ elementsMutable =>
    inside.getD elementsMutable = elementsMutable ∧ Rereadable (some elementsMutable) elementType
  | .map keyType valueType => Rereadable none keyType ∧ Rereadable none valueType
  | .tuple elementTypes => AllRereadable elementTypes
  | .pointer elementType => Rereadable none elementType
  | .reference elementType _ => Rereadable none elementType
  | .function parameterTypes returnType => AllRereadable parameterTypes ∧ Rereadable none returnType
  | .traitObject _ => True

def AllRereadable : List TypeNode → Prop
  | [] => True
  | t :: ts => Rereadable none t ∧ AllRereadable ts

end

mutual

theorem reread_eq_iff : ∀ (inside : Option Bool) (t : TypeNode), reread inside t = t ↔ Rereadable inside t
  | inside, .scalar kind => by
    cases kind <;> simp [reread, Rereadable, isWritten]
  | _, .structRef _ => by simp [reread, Rereadable]
  | _, .genericStruct _ ts => by simp [reread, Rereadable, rereadAll_eq_iff ts]
  | _, .genericList e => by simp [reread, Rereadable, reread_eq_iff none e]
  | none, .array e _ => by simp [reread, Rereadable, reread_eq_iff none e]
  | some _, .array _ _ => by simp [reread, Rereadable]
  | inside, .multiArray e _ m => by
    simp only [reread, Rereadable, TypeNode.multiArray.injEq, true_and]
    constructor
    · rintro ⟨he, hm⟩
      rw [hm] at he
      exact ⟨hm, (reread_eq_iff (some m) e).1 he⟩
    · rintro ⟨hm, he⟩
      rw [hm]
      exact ⟨(reread_eq_iff (some m) e).2 he, rfl⟩
  | _, .map k v => by simp [reread, Rereadable, reread_eq_iff none k, reread_eq_iff none v]
  | _, .tuple ts => by simp [reread, Rereadable, rereadAll_eq_iff ts]
  | _, .pointer e => by simp [reread, Rereadable, reread_eq_iff none e]
  | _, .reference e _ => by simp [reread, Rereadable, reread_eq_iff none e]
  | _, .function ts r => by
    simp [reread, Rereadable, rereadAll_eq_iff ts, reread_eq_iff none r]
  | _, .traitObject _ => by simp [reread, Rereadable]

theorem rereadAll_eq_iff : ∀ ts : List TypeNode, rereadAll ts = ts ↔ AllRereadable ts
  | [] => by simp [rereadAll, AllRereadable]
  | t :: ts => by simp [rereadAll, AllRereadable, reread_eq_iff none t, rereadAll_eq_iff ts]

end

end Mlang.TypeText
