import Mlang.DisjunctiveTerms
import Mlang.TypeInference

namespace Mlang.Concepts

open Mangling (Name TypeNode)
open TypeInference (substituteTypeParams)
open DisjunctiveTerms (Terms product)

/-- A name cut at its `::`. -/
abbrev Path := List Name

abbrev NodeId := Nat

/-- A predicate or a where clause. The identity of a node is part of the keys of atoms; `other`
stands for every expression that is neither a connective nor the application of a concept. -/
inductive Expression
  | and (id : NodeId) (left right : Expression)
  | or (id : NodeId) (left right : Expression)
  | not (id : NodeId) (operand : Expression)
  | application (id : NodeId) (name : Path) (typeArguments : List TypeNode)
  | other (id : NodeId)

def Expression.id : Expression → NodeId
  | .and id _ _ | .or id _ _ | .not id _ | .application id _ _ | .other id => id

structure ConceptDef where
  name : Path
  typeParams : List Name
  predicate : Expression
  isPublic : Bool
  sourceModule : Path

/-- A bound is a type parameter with the names between the `+` of it. -/
structure FunctionDef where
  name : Path
  sourceModule : Path
  typeParamTraitBounds : List (Name × List Path)
  requiresClause : Option Expression

inductive Value
  | truth (boolValue isBool : Bool)
  | type
  deriving DecidableEq

abbrev Texts := List (Name × List Char)

structure Context where
  bindings : Texts
  scope : Path
  currentModule : Path
  stack : List (Path × List (List Char))

/-- The compiler around constraints. -/
structure Compiler where
  conceptDefinitions : Path → Option ConceptDef
  moduleConcepts : Path → Option (List ConceptDef)
  resolveTypeAlias : TypeNode → TypeNode
  isKnownRequirementType : TypeNode → Bool
  canonicalConstexprTypeName : TypeNode → List Char
  typeFromText : List Char → TypeNode
  evalOther : NodeId → Nat → Context → Option Value
  validateTraitBound : Path → TypeNode → Bool

variable (C : Compiler)

def findEnclosed (name scope : Path) : Option ConceptDef :=
  if name.length = 1 then
    (scope.inits.tail.reverse).findSome? fun enclosing => C.conceptDefinitions (enclosing ++ name)
  else none

def findQualified (name : Path) : Option ConceptDef :=
  (List.range (name.length - 1)).reverse.findSome? fun i =>
    (C.moduleConcepts (name.take (i + 1))).bind fun ds =>
      ds.find? fun d => d.name = name.drop (i + 1)

def findInModule (name currentModule : Path) : Option ConceptDef :=
  if currentModule = [] then none
  else (C.moduleConcepts currentModule).bind fun ds => ds.find? fun d => d.name = name

def findConcept (name scope currentModule : Path) : Option ConceptDef :=
  (((findEnclosed C name scope).or (C.conceptDefinitions name)).or (findQualified C name)).or
    (findInModule C name currentModule)

def isSameModuleFamily (a b : Path) : Bool :=
  if a = [] ∨ b = [] then a = b else a.isPrefixOf b || b.isPrefixOf a

def evalTypeArgument (ctx : Context) (argument : TypeNode) : Option (List Char) :=
  let type := C.resolveTypeAlias (substituteTypeParams (ctx.bindings.map Prod.fst)
    (ctx.bindings.map fun b => C.typeFromText b.2) argument)
  if C.isKnownRequirementType type then some (C.canonicalConstexprTypeName type) else none

def enterDefinition (ctx : Context) (definition : ConceptDef) (typeArguments : List TypeNode) :
    Option Context :=
  if definition.sourceModule ≠ [] ∧ definition.isPublic = false ∧
      isSameModuleFamily definition.sourceModule ctx.currentModule = false then none
  else if definition.typeParams.length ≠ typeArguments.length then none
  else
    match typeArguments.mapM (evalTypeArgument C ctx) with
    | none => none
    | some texts =>
      if 128 ≤ ctx.stack.length ∨ (definition.name, texts) ∈ ctx.stack then none
      else some ⟨definition.typeParams.zip texts, definition.name.dropLast, definition.sourceModule,
        (definition.name, texts) :: ctx.stack⟩

def asBool : Option Value → Option Value
  | some (.truth b true) => some (.truth b true)
  | _ => none

/-- `evalConstexprExpression`, with `depth` the levels that are left of the 65 it allows. -/
def evalExpression : Nat → Context → Expression → Option Value
  | 0, _, _ => none
  | depth + 1, ctx, .and _ left right =>
    match evalExpression depth ctx left with
    | some (.truth false _) => some (.truth false true)
    | some (.truth true _) =>
      match evalExpression depth ctx right with
      | some (.truth b _) => some (.truth b true)
      | _ => none
    | _ => none
  | depth + 1, ctx, .or _ left right =>
    match evalExpression depth ctx left with
    | some (.truth true _) => some (.truth true true)
    | some (.truth false _) =>
      match evalExpression depth ctx right with
      | some (.truth b _) => some (.truth b true)
      | _ => none
    | _ => none
  | depth + 1, ctx, .not _ operand =>
    match evalExpression depth ctx operand with
    | some (.truth b _) => some (.truth (!b) true)
    | _ => none
  | 1, _, .application _ _ _ => none
  | depth + 2, ctx, .application _ name typeArguments =>
    match findConcept C name ctx.scope ctx.currentModule with
    | none => none
    | some definition =>
      match enterDefinition C ctx definition typeArguments with
      | none => none
      | some ctx' => asBool (evalExpression depth ctx' definition.predicate)
  | depth + 1, ctx, .other id => C.evalOther id (depth + 1) ctx

def evalDefinition (ctx : Context) (definition : ConceptDef) (typeArguments : List TypeNode) :
    Option Value :=
  match enterDefinition C ctx definition typeArguments with
  | none => none
  | some ctx' => asBool (evalExpression C 64 ctx' definition.predicate)

/-- `evalConcept` -/
def evalConcept (ctx : Context) (name : Path) (typeArguments : List TypeNode) : Option Value :=
  match findConcept C name ctx.scope ctx.currentModule with
  | none => none
  | some definition => evalDefinition C ctx definition typeArguments

abbrev Types := List (Name × TypeNode)

/-- The key of an atom is the node of its expression with the types of the type parameters. -/
inductive Atom
  | node (id : NodeId) (bindings : Texts)
  | trait (name : Path) (typeName : List Char)
  deriving DecidableEq

def bindingTexts (concrete : Types) : Texts :=
  concrete.map fun b => (b.1, C.canonicalConstexprTypeName b.2)

def atom (expression : Expression) (concrete : Types) : Atom :=
  .node expression.id (bindingTexts C concrete)

def conjunction (left right : Terms Atom) : Option (Terms Atom) :=
  if 256 < left.length * right.length then none else some (product left right)

def bindArguments (definition : ConceptDef) (typeArguments : List TypeNode) (concrete : Types) :
    Types :=
  definition.typeParams.zip (typeArguments.map
    (substituteTypeParams (concrete.map Prod.fst) (concrete.map Prod.snd)))

/-- `depth` is what is left of the 129 levels of a normal form. -/
def normalize (functionModule : Path) : Nat → Expression → Types → Path → Option (Terms Atom)
  | 0, _, _, _ => none
  | depth + 1, .and _ left right, concrete, scope =>
    match normalize functionModule depth left concrete scope,
        normalize functionModule depth right concrete scope with
    | some l, some r => conjunction l r
    | _, _ => none
  | depth + 1, .or _ left right, concrete, scope =>
    match normalize functionModule depth left concrete scope,
        normalize functionModule depth right concrete scope with
    | some l, some r => if (l ++ r).length ≤ 256 then some (l ++ r) else none
    | _, _ => none
  | depth + 1, .application id name typeArguments, concrete, scope =>
    match findConcept C name scope functionModule with
    | none => some [[atom C (.application id name typeArguments) concrete]]
    | some definition =>
      if definition.typeParams.length = typeArguments.length then
        normalize functionModule depth definition.predicate
          (bindArguments definition typeArguments concrete) definition.name.dropLast
      else some [[atom C (.application id name typeArguments) concrete]]
  | _ + 1, .not id operand, concrete, _ => some [[atom C (.not id operand) concrete]]
  | _ + 1, .other id, concrete, _ => some [[atom C (.other id) concrete]]

variable (f : FunctionDef) (bindings : Types)

def FunctionDef.scope : Path := f.name.dropLast

def outerContext : Context := ⟨bindingTexts C bindings, f.scope, f.sourceModule, []⟩

/-- A bound by a concept is checked through an application of the name of the concept. -/
def boundApplication (definition : ConceptDef) (type : TypeNode) : Expression :=
  .application 0 definition.name [type]

def checkBound (type : TypeNode) (name : Path) (terms : Terms Atom) : Option (Terms Atom) :=
  match findConcept C name f.scope f.sourceModule with
  | some definition =>
    match evalConcept C (outerContext C f bindings) definition.name [type] with
    | some (.truth true _) =>
      match normalize C f.sourceModule 129 (boundApplication definition type) bindings f.scope with
      | none => none
      | some condition => conjunction terms condition
    | _ => none
  | none =>
    if C.validateTraitBound name type then
      some (terms.map (Atom.trait name (C.canonicalConstexprTypeName type) :: ·))
    else none

def checkNames (type : TypeNode) : List Path → Terms Atom → Option (Terms Atom)
  | [], terms => some terms
  | name :: names, terms =>
    match checkBound C f bindings type name terms with
    | none => none
    | some terms' => checkNames type names terms'

def checkBounds : List (Name × List Path) → Terms Atom → Option (Terms Atom)
  | [], terms => some terms
  | (typeParam, names) :: bounds, terms =>
    match bindings.lookup typeParam with
    | none => checkBounds bounds terms
    | some type =>
      match checkNames C f bindings type names terms with
      | none => none
      | some terms' => checkBounds bounds terms'

def satisfiesFunctionConstraints : Option (Terms Atom) :=
  match checkBounds C f bindings f.typeParamTraitBounds [[]] with
  | none => none
  | some terms =>
    match f.requiresClause with
    | none => some terms
    | some clause =>
      match evalExpression C 65 (outerContext C f bindings) clause with
      | some (.truth true true) =>
        match normalize C f.sourceModule 129 clause bindings f.scope with
        | none => none
        | some condition => conjunction terms condition
      | _ => none

variable {α : Type} [DecidableEq α]

structure Candidate (α : Type) where
  genericOrigin : Bool
  constraintTerms : Terms α

def implies (left right : Terms α) : Bool :=
  left.all fun term => right.any fun weaker => weaker.all fun a => a ∈ term

def Candidate.terms (c : Candidate α) : Terms α :=
  if c.constraintTerms.isEmpty then [[]] else c.constraintTerms

def moreConstrained (left right : Candidate α) : Bool :=
  if left.genericOrigin != right.genericOrigin then !left.genericOrigin
  else implies left.terms right.terms && !implies right.terms left.terms

end Mlang.Concepts
