import Mathlib
import Mlang.FiniteMaps
import Mlang.TypeTraversals

namespace Mlang.TypeAliases

open Mangling Monomorphization FiniteMaps Expansions TypeTraversals
open BracketedText (Text)

structure TypeAliasInfo where
  aliasedType : TypeNode
  typeParams : List Name
  typeParamTraitBounds : FiniteMap Name Text
  line : Nat
  col : Nat

abbrev AliasTable := FiniteMap Name TypeAliasInfo

inductive Report
  | requiresTypeArguments (structName : Name)
  | takesNoTypeArguments (structName : Name)
  | wrongNumber (structName : Name) (expected got : Nat)
  | boundNotSatisfied (message : Text)
  | cyclic (structName : Name)
  | overlaps (name : Name) (prevLine prevCol : Nat)
  deriving DecidableEq

def Report.message : Report → Text
  | .requiresTypeArguments n =>
    "generic type alias '".toList ++ n ++ "' requires type arguments".toList
  | .takesNoTypeArguments n => "type alias '".toList ++ n ++ "' does not take type arguments".toList
  | .wrongNumber n expected got =>
    "type alias '".toList ++ n ++ "' expects ".toList ++ (toString expected).toList ++
      " type arguments, got ".toList ++ (toString got).toList
  | .boundNotSatisfied message => message
  | .cyclic n => "cyclic type alias detected for '".toList ++ n ++ "'".toList
  | .overlaps name prevLine prevCol =>
    "type alias '".toList ++ name ++ "' overlaps with previous alias declaration at ".toList ++
      "line ".toList ++ (toString prevLine).toList ++
      if prevCol > 0 then ", column ".toList ++ (toString prevCol).toList else []

def IsCycle : Report → Prop
  | .cyclic _ => True
  | _ => False

/-- What follows the last `::` of a name. -/
def scopeTail : Name → Option Name
  | [] => none
  | c :: cs =>
    match scopeTail cs with
    | some tail => some tail
    | none =>
      match c, cs with
      | ':', ':' :: tail => some tail
      | _, _ => none

def findBy {V : Type} (lookup : Name → Option V) (name : Name) : Option (Name × V) :=
  match lookup name with
  | some v => some (name, v)
  | none =>
    match scopeTail name with
    | none | some [] => none
    | some (c :: tail) => (lookup (c :: tail)).map fun v => (c :: tail, v)

def findAlias (typeAliases : AliasTable) (name : Name) : Option (Name × TypeAliasInfo) :=
  findBy typeAliases.lookup name

variable (scopeTypeParams : Finset Name)

mutual

def containsScopedTypeParam : TypeNode → Bool
  | .structRef n => n ∈ scopeTypeParams
  | .genericStruct _ args => containsScopedTypeParamList args
  | .genericList e | .array e _ | .multiArray e _ _ => containsScopedTypeParam e
  | .map k v => containsScopedTypeParam k || containsScopedTypeParam v
  | .tuple es => containsScopedTypeParamList es
  | .function ps r => containsScopedTypeParamList ps || containsScopedTypeParam r
  | .pointer e | .reference e _ => containsScopedTypeParam e
  | .scalar _ | .traitObject _ => false

def containsScopedTypeParamList : List TypeNode → Bool
  | [] => false
  | t :: ts => containsScopedTypeParam t || containsScopedTypeParamList ts

end

/- The required traits and concepts are decided by the tables of implementations and by
`evalConcept`; `unsatisfied` is told the alias, the parameter, its bound, the argument and what
the argument resolves to, and gives the error of the first that does not hold. -/
variable (unsatisfied : Name → Name → Text → TypeNode → TypeNode → Option Text)
  (resolve : TypeNode → Reporting Report TypeNode) (traitBounds : FiniteMap Name Text)
  (ownerName : Name)

/-- The loop of `validateTypeArgumentTraitBounds`. -/
def validateBounds : List Name → List TypeNode → Reporting Report Bool
  | p :: ps, a :: as =>
    match traitBounds.lookup p with
    | none => validateBounds ps as
    | some bound =>
      if bound = [] ∨ containsScopedTypeParam scopeTypeParams a then validateBounds ps as
      else do
        let resolvedType ← resolve a
        if containsScopedTypeParam scopeTypeParams resolvedType then validateBounds ps as
        else
          match unsatisfied ownerName p bound a resolvedType with
          | some message => do
            Reporting.report (.boundNotSatisfied message)
            pure false
          | none => validateBounds ps as
  | _, _ => pure true

def validateTypeArgumentTraitBounds (typeParams : List Name) (typeArgs : List TypeNode) :
    Reporting Report Bool :=
  if typeParams.length ≠ typeArgs.length then pure true
  else
    validateBounds scopeTypeParams unsatisfied resolve traitBounds ownerName typeParams typeArgs

section Resolution

variable (unsatisfied : Name → Name → Text → TypeNode → TypeNode → Option Text)
  (typeAliases : AliasTable) (scopeTypeParams : Finset Name)

/- `resolve` is the recursive call, with the stack of the call. -/
variable (resolve : List Name → TypeNode → Reporting Report TypeNode) (aliasStack : List Name)

/-- The `StructTypeRefNode` case of `resolveTypeAliasNode`. -/
def resolveStructRef (structName : Name) : Reporting Report TypeNode :=
  if structName ∈ scopeTypeParams then pure (.structRef structName)
  else
    match findAlias typeAliases structName with
    | none => pure (.structRef structName)
    | some (aliasName, info) =>
      if info.typeParams ≠ [] then do
        Reporting.report (.requiresTypeArguments structName)
        pure (.structRef structName)
      else if aliasName ∈ aliasStack then do
        Reporting.report (.cyclic structName)
        pure (.structRef structName)
      else resolve (aliasName :: aliasStack) info.aliasedType

/-- The `GenericStructTypeRefNode` case, after the loop that resolves the arguments. -/
def resolveGenericStruct (structName : Name) (typeArgs : List TypeNode) :
    Reporting Report TypeNode :=
  if structName ∈ scopeTypeParams then pure (.genericStruct structName typeArgs)
  else
    match findAlias typeAliases structName with
    | none => pure (.genericStruct structName typeArgs)
    | some (aliasName, info) =>
      if info.typeParams = [] then do
        Reporting.report (.takesNoTypeArguments structName)
        pure (.genericStruct structName typeArgs)
      else if typeArgs.length ≠ info.typeParams.length then do
        Reporting.report (.wrongNumber structName info.typeParams.length typeArgs.length)
        pure (.genericStruct structName typeArgs)
      else do
        let valid ← validateTypeArgumentTraitBounds scopeTypeParams unsatisfied (resolve [])
          info.typeParamTraitBounds structName info.typeParams typeArgs
        if valid = false then pure (.genericStruct structName typeArgs)
        else if aliasName ∈ aliasStack then do
          Reporting.report (.cyclic structName)
          pure (.genericStruct structName typeArgs)
        else
          resolve (aliasName :: aliasStack)
            (substituteTypeParams info.typeParams typeArgs info.aliasedType)

/-- `resolveTypeAliasNode`. The fuel bounds how deep expansions and the checks of bounds lie in each other. -/
def resolveTypeAliasNode : Nat → List Name → TypeNode → Reporting Report TypeNode
  | 0, _, _ => none
  | fuel + 1, aliasStack, t =>
    rebuild
      (resolveStructRef typeAliases scopeTypeParams (resolveTypeAliasNode fuel) aliasStack)
      (resolveGenericStruct unsatisfied typeAliases scopeTypeParams (resolveTypeAliasNode fuel)
        aliasStack) t

end Resolution

section Fuel

variable {unsatisfied : Name → Name → Text → TypeNode → TypeNode → Option Text}
  {typeAliases : AliasTable} {scopeTypeParams : Finset Name}
  {resolve resolve' : List Name → TypeNode → Reporting Report TypeNode}

theorem validateBounds_below {resolve resolve' : TypeNode → Reporting Report TypeNode}
    (h : ∀ t, (resolve t).Below (resolve' t)) (traitBounds : FiniteMap Name Text)
    (ownerName : Name) (typeParams : List Name) (typeArgs : List TypeNode) :
    (validateBounds scopeTypeParams unsatisfied resolve traitBounds ownerName typeParams typeArgs).Below
      (validateBounds scopeTypeParams unsatisfied resolve' traitBounds ownerName typeParams
        typeArgs) := by
  induction typeParams generalizing typeArgs with
  | nil => exact .refl _
  | cons p ps ih =>
    rcases typeArgs with _ | ⟨a, as⟩
    · exact .refl _
    · rw [validateBounds, validateBounds]
      split
      · exact ih as
      · split
        · exact ih as
        · refine Reporting.Below.bind (h a) fun resolvedType => ?_
          split
          · exact ih as
          · split
            · exact .refl _
            · exact ih as

theorem resolveStructRef_below (h : ∀ stack t, (resolve stack t).Below (resolve' stack t))
    (aliasStack : List Name) (n : Name) :
    (resolveStructRef typeAliases scopeTypeParams resolve aliasStack n).Below
      (resolveStructRef typeAliases scopeTypeParams resolve' aliasStack n) := by
  rw [resolveStructRef, resolveStructRef]
  split
  · exact .refl _
  split
  · exact .refl _
  split
  · exact .refl _
  split
  · exact .refl _
  · exact h _ _

theorem resolveGenericStruct_below (h : ∀ stack t, (resolve stack t).Below (resolve' stack t))
    (aliasStack : List Name) (n : Name) (args : List TypeNode) :
    (resolveGenericStruct unsatisfied typeAliases scopeTypeParams resolve aliasStack n args).Below
      (resolveGenericStruct unsatisfied typeAliases scopeTypeParams resolve' aliasStack n args) := by
  rw [resolveGenericStruct, resolveGenericStruct]
  split
  · exact .refl _
  split
  · exact .refl _
  split
  · exact .refl _
  split
  · exact .refl _
  refine Reporting.Below.bind ?_ fun valid => ?_
  · rw [validateTypeArgumentTraitBounds, validateTypeArgumentTraitBounds]
    split
    · exact .refl _
    · exact validateBounds_below (h []) _ _ _ _
  · split
    · exact .refl _
    split
    · exact .refl _
    · exact h _ _

theorem resolveTypeAliasNode_below {fuel fuel' : Nat} (hfuel : fuel ≤ fuel')
    (aliasStack : List Name) (t : TypeNode) :
    (resolveTypeAliasNode unsatisfied typeAliases scopeTypeParams fuel aliasStack t).Below
      (resolveTypeAliasNode unsatisfied typeAliases scopeTypeParams fuel' aliasStack t) := by
  induction fuel generalizing fuel' aliasStack t with
  | zero => exact fun r reports h => nomatch h
  | succ fuel ih =>
    obtain ⟨fuel', rfl⟩ := Nat.exists_eq_add_of_lt hfuel
    rw [resolveTypeAliasNode, resolveTypeAliasNode]
    have hle : fuel ≤ fuel + fuel' := Nat.le_add_right fuel fuel'
    exact rebuild_below (resolveStructRef_below (ih hle) aliasStack)
      (resolveGenericStruct_below (ih hle) aliasStack) t

end Fuel

def isParamCandidate : Name → Bool
  | [] => false
  | c :: cs => c.isUpper && (c :: cs).all fun c => c.isUpper || c.isDigit || c = '_'

variable (isParam : Name → Bool)

mutual

/-- `collect_params` and `collect_alias_params`. -/
def collectParams : TypeNode → List Name → List Name
  | .structRef n, out => if isParam n && !out.contains n then out ++ [n] else out
  | .genericStruct _ args, out => collectParamsList args out
  | .genericList e, out | .array e _, out | .multiArray e _ _, out => collectParams e out
  | .map k v, out => collectParams v (collectParams k out)
  | .tuple es, out => collectParamsList es out
  | .pointer e, out | .reference e _, out => collectParams e out
  | .function _ _, out | .scalar _, out | .traitObject _, out => out

def collectParamsList : List TypeNode → List Name → List Name
  | [], out => out
  | t :: ts, out => collectParamsList ts (collectParams t out)

end

structure TypeAliasNode where
  name : Name
  typeParams : List Name
  typeParamTraitBounds : FiniteMap Name Text
  aliasedType : TypeNode
  line : Nat
  col : Nat

def builtinTypeNames : List Name :=
  ["void", "bool", "str8", "str16", "list", "map", "tuple", "ptr", "i8", "i16", "i32", "i64",
    "u8", "u16", "u32", "u64", "f32", "f64"].map String.toList

structure TableBuild where
  typeAliases : AliasTable
  knownTypeNames : List Name
  reports : List Report

/-- The body of the loop of `buildTypeAliasTable`. -/
def TableBuild.add (b : TableBuild) (aliasDef : TypeAliasNode) : TableBuild :=
  match b.typeAliases.lookup aliasDef.name with
  | some prev => { b with reports := b.reports ++ [.overlaps aliasDef.name prev.line prev.col] }
  | none =>
    let typeParams :=
      if aliasDef.typeParams = [] then
        collectParams (fun n => !b.knownTypeNames.contains n && isParamCandidate n)
          aliasDef.aliasedType []
      else aliasDef.typeParams
    { b with
      typeAliases := b.typeAliases.insert aliasDef.name
        ⟨aliasDef.aliasedType, typeParams, aliasDef.typeParamTraitBounds, aliasDef.line, aliasDef.col⟩
      knownTypeNames := aliasDef.name :: b.knownTypeNames }

/-- `typeNames` are the structs and enums of the program. -/
def buildTypeAliasTable (typeNames : List Name) (typeAliases : List TypeAliasNode) : TableBuild :=
  typeAliases.foldl TableBuild.add ⟨∅, builtinTypeNames ++ typeNames, []⟩

/-- A statement as far as aliases go: it declares one, or it is what `resolve_stmt` visits of it,
the types it is annotated with and its lists of statements (branches, bodies and closures). -/
inductive Statement
  | typeAlias (aliasStmt : TypeAliasNode)
  | typed (type : TypeNode)
  | nested (body : List Statement)

structure AliasRestore where
  name : Name
  previous : Option TypeAliasInfo

/-- A call of `resolveTypeAliasNode` and what came of it. -/
structure Visit where
  typeAliases : AliasTable
  scopeTypeParams : Finset Name
  type : TypeNode
  result : TypeNode
  reports : List Report

structure ListState where
  typeAliases : AliasTable
  /-- The last one first. -/
  restores : List AliasRestore

def undo (typeAliases : AliasTable) (r : AliasRestore) : AliasTable :=
  match r.previous with
  | some previous => typeAliases.insert r.name previous
  | none => typeAliases.erase r.name

def ListState.restored (s : ListState) : AliasTable := s.restores.foldl undo s.typeAliases

variable (fuel : Nat) (scope : Finset Name)

/-- `resolve_type`, with an empty stack. -/
def resolveType (typeAliases : AliasTable) (scopeTypeParams : Finset Name) (type : TypeNode) :
    Reporting Visit TypeNode :=
  match resolveTypeAliasNode unsatisfied typeAliases scopeTypeParams fuel [] type with
  | none => none
  | some (result, reports) =>
    some (result, [⟨typeAliases, scopeTypeParams, type, result, reports⟩])

def aliasTypeParams (typeAliases : AliasTable) (aliasStmt : TypeAliasNode) : List Name :=
  if aliasStmt.typeParams = [] then
    collectParams (fun n => n ∉ scope ∧ n ∉ typeAliases ∧ isParamCandidate n)
      aliasStmt.aliasedType []
  else aliasStmt.typeParams

/-- What a local alias is stored as: its type is resolved where it is declared, and it has no
trait bounds. -/
def localInfo (aliasStmt : TypeAliasNode) (typeParams : List Name) (aliasedType : TypeNode) :
    TypeAliasInfo :=
  ⟨aliasedType, typeParams, ∅, aliasStmt.line, aliasStmt.col⟩

mutual

def resolveStmt : Statement → ListState → Reporting Visit ListState
  | .typeAlias aliasStmt, s => do
    let typeParams := aliasTypeParams scope s.typeAliases aliasStmt
    let aliasedType ← resolveType unsatisfied fuel s.typeAliases
      (scope ∪ typeParams.toFinset) aliasStmt.aliasedType
    pure
      { typeAliases :=
          s.typeAliases.insert aliasStmt.name (localInfo aliasStmt typeParams aliasedType)
        restores := ⟨aliasStmt.name, s.typeAliases.lookup aliasStmt.name⟩ :: s.restores }
  | .typed type, s => do
    let _ ← resolveType unsatisfied fuel s.typeAliases scope type
    pure s
  | .nested body, s => do
    let inner ← resolveStmts body ⟨s.typeAliases, []⟩
    pure { s with typeAliases := inner.restored }

def resolveStmts : List Statement → ListState → Reporting Visit ListState
  | [], s => pure s
  | stmt :: stmts, s => do
    let s ← resolveStmt stmt s
    resolveStmts stmts s

end

/-- `resolve_stmt_list`. -/
def resolveStmtList (list : List Statement) (typeAliases : AliasTable) : Reporting Visit AliasTable := do
  let s ← resolveStmts unsatisfied fuel scope list ⟨typeAliases, []⟩
  pure s.restored

end Mlang.TypeAliases
