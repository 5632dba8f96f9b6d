import Mlang.BracketedText
import Mlang.TypeKinds

namespace Mlang.Mangling

open TypeKinds List

abbrev Name := List Char

inductive TypeNode
  | scalar (kind : TypeKind)
  | structRef (structName : Name)
  | genericStruct (structName : Name) (typeArgs : List TypeNode)
  | genericList (elementType : TypeNode)
  | array (elementType : TypeNode) (capacity : Int)
  | multiArray (elementType : TypeNode) (capacity : Int) (elementsMutable : Bool)
  | map (keyType valueType : TypeNode)
  | tuple (elementTypes : List TypeNode)
  | pointer (elementType : TypeNode)
  | reference (elementType : TypeNode) (isMutable : Bool)
  | function (parameterTypes : List TypeNode) (returnType : TypeNode)
  | traitObject (traitName : Name)

def isKept (c : Char) : Bool := c.isAlphanum || c == '_'

/-- The loop of `normalize_type_name`; `prev` is the last character written. -/
def collapse : Option Char → Name → Name
  | _, [] => []
  | prev, c :: cs =>
    let w := if isKept c then c else '_'
    if w = '_' ∧ prev = some '_' then collapse prev cs else w :: collapse (some w) cs

def normalizeTypeName (n : Name) : Name :=
  match (collapse none n).rdropWhile (· == '_') with
  | [] => "unknown".toList
  | out => out

/-- Types are named by two tables in the source. `generateMangledName` has no entry for `bit`;
`GenericStructTypeRefNode::getMangledName`, which names a nested instantiation, has one. -/
inductive Table
  | generateMangledName
  | getMangledName
  deriving DecidableEq

def kindName (table : Table) : TypeKind → Name
  | .bool => "bool".toList
  | .bit => if table = .getMangledName then "bit".toList else "unknown".toList
  | .int | .i32 => "i32".toList
  | .i8 => "i8".toList
  | .i16 => "i16".toList
  | .i64 => "i64".toList
  | .u8 => "u8".toList
  | .u16 => "u16".toList
  | .u32 => "u32".toList
  | .u64 => "u64".toList
  | .float => "f32".toList
  | .double => "f64".toList
  | .string => "str8".toList
  | .str8 => "str8".toList
  | .str16 => "str16".toList
  | .list => "list".toList
  | .map => "map".toList
  | .tuple => "tuple".toList
  | _ => "unknown".toList

mutual

def mangleType (table : Table) : TypeNode → Name
  | .structRef structName => normalizeTypeName structName
  | .genericStruct structName typeArgs => structName ++ mangleTypes .getMangledName typeArgs
  | .genericList elementType => "list_".toList ++ mangleType table elementType
  | .array elementType _ => "list_".toList ++ mangleType table elementType
  | .multiArray elementType _ _ => "list_".toList ++ mangleType table elementType
  | .map keyType valueType =>
    "map_".toList ++ mangleType table keyType ++ "_".toList ++ mangleType table valueType
  | .tuple elementTypes => "tuple".toList ++ mangleTypes table elementTypes
  | .scalar kind => kindName table kind
  | .pointer _ => kindName table .ptr
  | .reference _ isMutable => kindName table (if isMutable then .refMut else .ref)
  | .function _ _ => kindName table .function
  | .traitObject _ => kindName table .traitObject

def mangleTypes (table : Table) : List TypeNode → Name
  | [] => []
  | t :: ts => "_".toList ++ mangleType table t ++ mangleTypes table ts

end

def generateMangledName (baseName : Name) (typeArgs : List TypeNode) : Name :=
  baseName ++ mangleTypes .generateMangledName typeArgs

mutual

/-- The words of the name of a type. -/
def typeWords (table : Table) : TypeNode → List Name
  | .structRef structName => (normalizeTypeName structName).splitOn '_'
  | .genericStruct structName typeArgs =>
    structName.splitOn '_' ++ typesWords .getMangledName typeArgs
  | .genericList elementType => "list".toList :: typeWords table elementType
  | .array elementType _ => "list".toList :: typeWords table elementType
  | .multiArray elementType _ _ => "list".toList :: typeWords table elementType
  | .map keyType valueType =>
    "map".toList :: (typeWords table keyType ++ typeWords table valueType)
  | .tuple elementTypes => "tuple".toList :: typesWords table elementTypes
  | .scalar kind => [kindName table kind]
  | .pointer _ => ["unknown".toList]
  | .reference _ _ => ["unknown".toList]
  | .function _ _ => ["unknown".toList]
  | .traitObject _ => ["unknown".toList]

def typesWords (table : Table) : List TypeNode → List Name
  | [] => []
  | t :: ts => typeWords table t ++ typesWords table ts

end

theorem kindName_one_word (table : Table) (kind : TypeKind) :
    (kindName table kind).splitOn '_' = [kindName table kind] := by
  apply splitOn_eq_singleton
  cases table <;> cases kind <;> decide

theorem splitOn_keyword (keyword n : Name) (h : '_' ∉ keyword) :
    (keyword ++ "_".toList ++ n).splitOn '_' = keyword :: n.splitOn '_' := by
  have hassoc : keyword ++ "_".toList ++ n = keyword ++ '_' :: n := by simp
  exact hassoc ▸ splitOn_append_cons_self_of_not_mem h n

mutual

theorem splitOn_mangleType (table : Table) : ∀ t : TypeNode,
    (mangleType table t).splitOn '_' = typeWords table t
  | .structRef _ => rfl
  | .genericStruct structName typeArgs =>
    splitOn_append_mangleTypes .getMangledName structName typeArgs
  | .genericList e | .array e _ | .multiArray e _ _ =>
    (splitOn_keyword "list".toList _ (by decide)).trans
      (congrArg _ (splitOn_mangleType table e))
  | .map k v => by
    have hv : (mangleType table k ++ '_' :: mangleType table v).splitOn '_' =
        typeWords table k ++ typeWords table v := by
      rw [← splitOn_mangleType table k, ← splitOn_mangleType table v]
      exact splitOn_append_cons_self _ _
    have hmap : mangleType table (.map k v) =
        "map".toList ++ "_".toList ++ (mangleType table k ++ '_' :: mangleType table v) :=
      (append_assoc _ _ _).trans (append_assoc _ _ _)
    have hk := splitOn_keyword "map".toList (mangleType table k ++ '_' :: mangleType table v)
      (by decide)
    rw [hmap, hk, hv, typeWords]
  | .tuple ts =>
    (splitOn_append_mangleTypes table "tuple".toList ts).trans
      (congrArg (· ++ typesWords table ts) (splitOn_eq_singleton (by decide)))
  | .scalar kind => kindName_one_word table kind
  | .pointer _ => kindName_one_word table .ptr
  | .reference _ isMutable => by
    cases isMutable
    · exact kindName_one_word table .ref
    · exact kindName_one_word table .refMut
  | .function _ _ => kindName_one_word table .function
  | .traitObject _ => kindName_one_word table .traitObject

theorem splitOn_append_mangleTypes (table : Table) : ∀ (n : Name) (ts : List TypeNode),
    (n ++ mangleTypes table ts).splitOn '_' = n.splitOn '_' ++ typesWords table ts
  | n, [] => by simp [mangleTypes, typesWords]
  | n, t :: ts => calc
      (n ++ mangleTypes table (t :: ts)).splitOn '_' =
          (n ++ '_' :: (mangleType table t ++ mangleTypes table ts)).splitOn '_' := rfl
      _ = n.splitOn '_' ++ (mangleType table t ++ mangleTypes table ts).splitOn '_' :=
          splitOn_append_cons_self n _
      _ = n.splitOn '_' ++ typesWords table (t :: ts) := by
          rw [splitOn_append_mangleTypes, splitOn_mangleType table t, typesWords]

end

def requestWords (baseName : Name) (typeArgs : List TypeNode) : List Name :=
  baseName.splitOn '_' ++ typesWords .generateMangledName typeArgs

/-- Names are compared as sequences of words. -/
theorem generateMangledName_eq_iff (n n' : Name) (ts ts' : List TypeNode) :
    generateMangledName n ts = generateMangledName n' ts' ↔ requestWords n ts = requestWords n' ts' := by
  rw [requestWords, requestWords, ← splitOn_append_mangleTypes, ← splitOn_append_mangleTypes]
  constructor
  · intro h
    exact congrArg _ h
  · intro h
    have hjoin := congrArg (List.intercalate ['_']) h
    simpa only [intercalate_splitOn, generateMangledName] using hjoin

end Mlang.Mangling
