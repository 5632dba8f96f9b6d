import Mlang.Concepts

namespace Mlang.ConstraintSubsumption

open Mangling (Name TypeNode)
open DisjunctiveTerms Concepts List Bool Option

variable {C : Compiler}

def InTable (C : Compiler) (moduleName : Path) : Prop :=
  ∀ ds, C.moduleConcepts moduleName = some ds → ∀ d ∈ ds, C.conceptDefinitions d.name = some d

def SameLookup (C : Compiler) (functionModule : Path) : Prop :=
  ∀ name scope currentModule d d', findConcept C name scope functionModule = some d →
    findConcept C name scope currentModule = some d' → d = d'

theorem sameLookup_of_inTable {functionModule : Path} (h : InTable C functionModule) :
    SameLookup C functionModule := by
  intro name scope currentModule d d' hd hd'
  unfold findConcept at hd hd'
  cases hfirst : ((findEnclosed C name scope).or (C.conceptDefinitions name)).or
      (findQualified C name) with
  | some first =>
    rw [hfirst] at hd hd'
    exact some.inj (hd.symm.trans hd')
  | none =>
    rw [hfirst, none_or] at hd
    have htable : C.conceptDefinitions name = none :=
      (or_eq_none_iff.1 (or_eq_none_iff.1 hfirst).1).2
    unfold findInModule at hd
    split at hd
    · cases hd
    · obtain ⟨ds, hds, hfind⟩ := bind_eq_some_iff.1 hd
      have hname : d.name = name := by simpa using find?_some hfind
      have hsome := h ds hds d (mem_of_find?_eq_some hfind)
      rw [hname, htable] at hsome
      cases hsome

variable {v : Atom → Prop} {definition : ConceptDef} {rs : List (Atom × Bool)} {terms : Terms Atom}

section Readings

variable (C : Compiler) (functionModule : Path)

def readings : Nat → Expression → Types → Nat → Context → List (Atom × Bool)
  | 0, _, _, _, _ => []
  | _ + 1, _, _, 0, _ => []
  | depth + 1, .and _ left right, concrete, n + 1, ctx =>
    readings depth left concrete n ctx ++ readings depth right concrete n ctx
  | depth + 1, .or _ left right, concrete, n + 1, ctx =>
    readings depth left concrete n ctx ++ readings depth right concrete n ctx
  | depth + 1, .application id name typeArguments, concrete, n + 1, ctx =>
    match findConcept C name ctx.scope functionModule with
    | none => atomReading (.application id name typeArguments) concrete (n + 1) ctx
    | some definition =>
      if definition.typeParams.length = typeArguments.length then
        match enterDefinition C ctx definition typeArguments with
        | none => []
        | some ctx' =>
          readings depth definition.predicate (bindArguments definition typeArguments concrete)
            (n - 1) ctx'
      else atomReading (.application id name typeArguments) concrete (n + 1) ctx
  | _ + 1, .not id operand, concrete, n + 1, ctx => atomReading (.not id operand) concrete (n + 1) ctx
  | _ + 1, .other id, concrete, n + 1, ctx => atomReading (.other id) concrete (n + 1) ctx
where
  atomReading (expression : Expression) (concrete : Types) (n : Nat) (ctx : Context) :
      List (Atom × Bool) :=
    match evalExpression C n ctx expression with
    | some (.truth b _) => [(atom C expression concrete, b)]
    | _ => []

/-- A name that evaluation meets has no other meaning from the module of the function, on all ways into
the definitions that are entered. -/
def KeepsMeaning : Nat → Expression → Nat → Context → Prop
  | 0, _, _, _ => True
  | _ + 1, _, 0, _ => True
  | depth + 1, .and _ left right, n + 1, ctx =>
    KeepsMeaning depth left n ctx ∧
      ∀ kind, evalExpression C n ctx left = some (.truth true kind) → KeepsMeaning depth right n ctx
  | depth + 1, .or _ left right, n + 1, ctx =>
    KeepsMeaning depth left n ctx ∧
      ∀ kind, evalExpression C n ctx left = some (.truth false kind) → KeepsMeaning depth right n ctx
  | depth + 1, .application _ name typeArguments, n + 1, ctx =>
    ∀ definition, findConcept C name ctx.scope functionModule = some definition →
      definition.typeParams.length = typeArguments.length →
        (∀ d, findConcept C name ctx.scope ctx.currentModule = some d → definition = d) ∧
        ∀ ctx', enterDefinition C ctx definition typeArguments = some ctx' →
          KeepsMeaning depth definition.predicate (n - 1) ctx'
  | _ + 1, .not _ _, _ + 1, _ | _ + 1, .other _, _ + 1, _ => True

variable {C functionModule} in
theorem SameLookup.keepsMeaning (h : SameLookup C functionModule) (depth : Nat) (e : Expression)
    (n : Nat) (ctx : Context) : KeepsMeaning C functionModule depth e n ctx := by
  induction depth generalizing e n ctx with
  | zero => trivial
  | succ depth ih =>
    cases n with
    | zero => trivial
    | succ n =>
      cases e with
      | and id left right | or id left right => exact ⟨ih left n ctx, fun _ _ => ih right n ctx⟩
      | not id operand | other id => trivial
      | application id name typeArguments =>
        exact fun definition hfind _ => ⟨fun d => h name _ _ definition d hfind, fun ctx' _ => ih _ _ ctx'⟩

def Reads (v : Atom → Prop) (rs : List (Atom × Bool)) : Prop := ∀ a b, (a, b) ∈ rs → (v a ↔ b = true)

theorem reads_append {rs' : List (Atom × Bool)} : Reads v (rs ++ rs') ↔ Reads v rs ∧ Reads v rs' := by
  simp only [Reads, mem_append, or_imp, forall_and]

variable {C functionModule}
variable {e left right : Expression} {concrete : Types} {n : Nat} {ctx : Context} {b isBool : Bool}
  {typeArguments : List TypeNode} {id : NodeId}

theorem holds_atom_of_reads (hv : Reads v (readings.atomReading C e concrete n ctx))
    (heval : evalExpression C n ctx e = some (.truth b isBool)) :
    Holds v [[atom C e concrete]] ↔ b = true := by
  rw [holds_atom]
  refine hv _ _ ?_
  simp only [readings.atomReading, heval]
  exact mem_cons_self

theorem asBool_eq_some {value : Option Value} (h : asBool value = some (.truth b isBool)) :
    value = some (.truth b true) := by
  unfold asBool at h
  split at h
  · exact congrArg (fun b => some (Value.truth b true)) (Value.truth.inj (some.inj h)).1
  · cases h

theorem evalDefinition_isBool (h : evalDefinition C ctx definition typeArguments = some (.truth b isBool)) :
    isBool = true := by
  unfold evalDefinition at h
  split at h
  · cases h
  · have hinner := asBool_eq_some h
    rw [hinner] at h
    exact (Value.truth.inj (some.inj h)).2.symm

theorem enterDefinition_scope {ctx' : Context}
    (h : enterDefinition C ctx definition typeArguments = some ctx') :
    ctx'.scope = definition.name.dropLast := by
  unfold enterDefinition at h
  split at h
  · cases h
  · split at h
    · cases h
    · split at h
      · cases h
      · split at h
        · cases h
        · cases h
          rfl

theorem evalExpression_and (h : evalExpression C (n + 1) ctx (.and id left right) = some (.truth b isBool)) :
    ∃ bl kind, evalExpression C n ctx left = some (.truth bl kind) ∧
    (bl = false ∧ b = false ∨ bl = true ∧ ∃ kind', evalExpression C n ctx right = some (.truth b kind')) := by
  rw [evalExpression] at h
  split at h
  · rename_i kind hleft
    obtain ⟨rfl, -⟩ := Value.truth.inj (some.inj h)
    exact ⟨false, kind, hleft, .inl ⟨rfl, rfl⟩⟩
  · rename_i kind hleft
    split at h
    · rename_i br kind' hright
      obtain ⟨rfl, -⟩ := Value.truth.inj (some.inj h)
      exact ⟨true, kind, hleft, .inr ⟨rfl, kind', hright⟩⟩
    · cases h
  · cases h

theorem evalExpression_or (h : evalExpression C (n + 1) ctx (.or id left right) = some (.truth b isBool)) :
    ∃ bl kind, evalExpression C n ctx left = some (.truth bl kind) ∧
    (bl = true ∧ b = true ∨ bl = false ∧ ∃ kind', evalExpression C n ctx right = some (.truth b kind')) := by
  rw [evalExpression] at h
  split at h
  · rename_i kind hleft
    obtain ⟨rfl, -⟩ := Value.truth.inj (some.inj h)
    exact ⟨true, kind, hleft, .inl ⟨rfl, rfl⟩⟩
  · rename_i kind hleft
    split at h
    · rename_i br kind' hright
      obtain ⟨rfl, -⟩ := Value.truth.inj (some.inj h)
      exact ⟨false, kind, hleft, .inr ⟨rfl, kind', hright⟩⟩
    · cases h
  · cases h

theorem holds_conjunction {left right : Terms Atom} (h : conjunction left right = some terms) :
    Holds v terms ↔ Holds v left ∧ Holds v right := by
  unfold conjunction at h
  split at h
  · cases h
  · cases h
    exact holds_product v left right

theorem holds_normalize {depth : Nat} (hnames : KeepsMeaning C functionModule depth e n ctx)
    (hv : Reads v (readings C functionModule depth e concrete n ctx))
    (heval : evalExpression C n ctx e = some (.truth b isBool))
    (hterms : normalize C functionModule depth e concrete ctx.scope = some terms) :
    Holds v terms ↔ b = true := by
  induction depth generalizing e concrete n ctx b isBool terms with
  | zero => cases hterms
  | succ depth ih =>
    cases n with
    | zero => cases heval
    | succ n =>
      cases e with
      | and id left right =>
        rw [Concepts.normalize] at hterms
        rw [readings, reads_append] at hv
        obtain ⟨bl, kind, hleft, hb⟩ := evalExpression_and heval
        split at hterms
        · rename_i l r hl hr
          have hholds := ih hnames.1 hv.1 hleft hl
          rw [holds_conjunction hterms, hholds]
          rcases hb with ⟨rfl, rfl⟩ | ⟨rfl, kind', hright⟩
          · exact iff_of_false (fun h => false_ne_true h.1) false_ne_true
          · rw [ih (hnames.2 kind hleft) hv.2 hright hr]
            exact and_iff_right rfl
        · cases hterms
      | or id left right =>
        rw [Concepts.normalize] at hterms
        rw [readings, reads_append] at hv
        obtain ⟨bl, kind, hleft, hb⟩ := evalExpression_or heval
        split at hterms
        · rename_i l r hl hr
          split at hterms
          · cases hterms
            have hholds := ih hnames.1 hv.1 hleft hl
            rw [holds_append, hholds]
            rcases hb with ⟨rfl, rfl⟩ | ⟨rfl, kind', hright⟩
            · exact iff_of_true (.inl rfl) rfl
            · rw [ih (hnames.2 kind hleft) hv.2 hright hr]
              exact or_iff_right false_ne_true
          · cases hterms
        · cases hterms
      | not id operand =>
        rw [Concepts.normalize] at hterms
        cases hterms
        exact holds_atom_of_reads hv heval
      | other id =>
        rw [Concepts.normalize] at hterms
        cases hterms
        exact holds_atom_of_reads hv heval
      | application id name typeArguments =>
        rw [Concepts.normalize] at hterms
        rw [readings] at hv
        split at hterms
        · rename_i hfind
          simp only [hfind] at hv
          cases hterms
          exact holds_atom_of_reads hv heval
        · rename_i definition hfind
          simp only [hfind] at hv
          split at hterms
          · rename_i hcount
            simp only [hcount, if_true] at hv
            cases n with
            | zero => cases heval
            | succ n =>
              rw [evalExpression] at heval
              cases hfind' : findConcept C name ctx.scope ctx.currentModule with
              | none => simp [hfind'] at heval
              | some definition' =>
                obtain rfl := (hnames definition hfind hcount).1 _ hfind'
                cases henter : enterDefinition C ctx definition typeArguments with
                | none => simp [hfind', henter] at heval
                | some ctx' =>
                  simp only [hfind', henter] at heval hv
                  rw [← enterDefinition_scope henter] at hterms
                  exact ih ((hnames definition hfind hcount).2 ctx' henter) hv (asBool_eq_some heval) hterms
          · rename_i hcount
            simp only [hcount, if_false] at hv
            cases hterms
            exact holds_atom_of_reads hv heval

end Readings

variable {terms' : Terms Atom} {type : TypeNode}

variable (C : Compiler) (f : FunctionDef) (bindings : Types)

/-- What a bound says: that the concept it names holds of the type, or that the trait bound does. -/
def BoundHolds (type : TypeNode) (name : Path) : Prop :=
  match findConcept C name f.scope f.sourceModule with
  | some definition =>
    evalDefinition C (outerContext C f bindings) definition [type] = some (.truth true true)
  | none => C.validateTraitBound name type = true

def BoundsHold (bounds : List (Name × List Path)) : Prop :=
  ∀ bound ∈ bounds, ∀ type, bindings.lookup bound.1 = some type →
    ∀ name ∈ bound.2, BoundHolds C f bindings type name

structure ConstraintsHold : Prop where
  bounds : BoundsHold C f bindings f.typeParamTraitBounds
  clause : ∀ clause, f.requiresClause = some clause →
    evalExpression C 65 (outerContext C f bindings) clause = some (.truth true true)

def BoundFails (type : TypeNode) (name : Path) : Prop :=
  match findConcept C name f.scope f.sourceModule with
  | some definition => ∃ isBool,
      evalDefinition C (outerContext C f bindings) definition [type] = some (.truth false isBool)
  | none => C.validateTraitBound name type = false

structure NoneFails : Prop where
  bounds : ∀ bound ∈ f.typeParamTraitBounds, ∀ type, bindings.lookup bound.1 = some type →
    ∀ name ∈ bound.2, ¬BoundFails C f bindings type name
  clause : ∀ clause, f.requiresClause = some clause →
    ∀ isBool, evalExpression C 65 (outerContext C f bindings) clause ≠ some (.truth false isBool)

def FoundAgain (name : Path) : Prop :=
  ∀ definition, findConcept C name f.scope f.sourceModule = some definition →
    findConcept C definition.name f.scope f.sourceModule = some definition

structure BoundKeepsMeaning (type : TypeNode) (name : Path) : Prop where
  again : FoundAgain C f name
  inside : ∀ definition, findConcept C name f.scope f.sourceModule = some definition →
    KeepsMeaning C f.sourceModule 129 (boundApplication definition type) 66 (outerContext C f bindings)

def BoundsKeepMeaning (bounds : List (Name × List Path)) : Prop :=
  ∀ bound ∈ bounds, ∀ type, bindings.lookup bound.1 = some type →
    ∀ name ∈ bound.2, BoundKeepsMeaning C f bindings type name

/-- The names of the concepts of a function keep their meanings, from its bounds and its clause to the
definitions of other modules. -/
structure NamesKeepMeaning : Prop where
  bounds : BoundsKeepMeaning C f bindings f.typeParamTraitBounds
  clause : ∀ clause, f.requiresClause = some clause →
    KeepsMeaning C f.sourceModule 129 clause 65 (outerContext C f bindings)

def nameReadings (type : TypeNode) (name : Path) : List (Atom × Bool) :=
  match findConcept C name f.scope f.sourceModule with
  | some definition =>
    readings C f.sourceModule 129 (boundApplication definition type) bindings 66
      (outerContext C f bindings)
  | none => [(.trait name (C.canonicalConstexprTypeName type), C.validateTraitBound name type)]

def boundReadings (bound : Name × List Path) : List (Atom × Bool) :=
  match bindings.lookup bound.1 with
  | none => []
  | some type => bound.2.flatMap (nameReadings C f bindings type)

def clauseReadings : List (Atom × Bool) :=
  match f.requiresClause with
  | none => []
  | some clause => readings C f.sourceModule 129 clause bindings 65 (outerContext C f bindings)

def functionReadings : List (Atom × Bool) :=
  f.typeParamTraitBounds.flatMap (boundReadings C f bindings) ++ clauseReadings C f bindings

def KeysDetermine (rs : List (Atom × Bool)) : Prop :=
  ∀ a b b', (a, b) ∈ rs → (a, b') ∈ rs → b = b'

variable {C f bindings}

theorem exists_reads (h : KeysDetermine rs) : ∃ v, Reads v rs := by
  refine ⟨fun a => (a, true) ∈ rs, fun a b hab => ?_⟩
  constructor
  · exact fun ha => h a b true hab ha
  · rintro rfl
    exact hab

theorem evalConcept_eq (h : findConcept C definition.name f.scope f.sourceModule = some definition)
    (type : TypeNode) : evalConcept C (outerContext C f bindings) definition.name [type] =
    evalDefinition C (outerContext C f bindings) definition [type] := by
  rw [evalConcept, show findConcept C definition.name (outerContext C f bindings).scope
    (outerContext C f bindings).currentModule = some definition from h]

theorem evalExpression_boundApplication
    (h : findConcept C definition.name f.scope f.sourceModule = some definition) (type : TypeNode) :
    evalExpression C 66 (outerContext C f bindings) (boundApplication definition type) =
    evalDefinition C (outerContext C f bindings) definition [type] := by
  rw [boundApplication, evalExpression, show findConcept C definition.name
    (outerContext C f bindings).scope (outerContext C f bindings).currentModule = some definition from h]
  rfl

variable {name : Path}

def addName (C : Compiler) (f : FunctionDef) (bindings : Types) (type : TypeNode) (name : Path)
    (terms : Terms Atom) : Option (Terms Atom) :=
  match findConcept C name f.scope f.sourceModule with
  | some definition =>
    (normalize C f.sourceModule 129 (boundApplication definition type) bindings f.scope).bind
      (conjunction terms)
  | none => some (terms.map (Atom.trait name (C.canonicalConstexprTypeName type) :: ·))

theorem checkBound_eq_some (hagain : FoundAgain C f name)
    (h : checkBound C f bindings type name terms = some terms') :
    BoundHolds C f bindings type name ∧ addName C f bindings type name terms = some terms' := by
  unfold checkBound at h
  unfold BoundHolds addName
  cases hfind : findConcept C name f.scope f.sourceModule with
  | some definition =>
    simp only [hfind] at h ⊢
    rw [evalConcept_eq (hagain definition hfind)] at h
    split at h
    · rename_i isBool heval
      obtain rfl := evalDefinition_isBool heval
      split at h
      · cases h
      · rename_i condition hnormal
        exact ⟨heval, by rw [hnormal]; exact h⟩
    · cases h
  | none =>
    simp only [hfind] at h ⊢
    split at h
    · exact ⟨by assumption, h⟩
    · cases h

theorem holds_addName (hname : BoundKeepsMeaning C f bindings type name)
    (hv : Reads v (nameReadings C f bindings type name))
    (h : addName C f bindings type name terms = some terms') :
    (BoundHolds C f bindings type name → Holds v terms → Holds v terms') ∧
    (Holds v terms' → Holds v terms ∧ ¬BoundFails C f bindings type name) := by
  unfold addName at h
  unfold nameReadings at hv
  unfold BoundHolds BoundFails
  cases hfind : findConcept C name f.scope f.sourceModule with
  | some definition =>
    simp only [hfind] at h hv ⊢
    obtain ⟨condition, hnormal, hconj⟩ := bind_eq_some_iff.1 h
    rw [holds_conjunction hconj]
    have hcondition : ∀ {b isBool}, evalDefinition C (outerContext C f bindings) definition [type] =
        some (.truth b isBool) → (Holds v condition ↔ b = true) := by
      intro b isBool heval
      rw [← evalExpression_boundApplication (hname.again definition hfind)] at heval
      exact holds_normalize (hname.inside definition hfind) hv heval hnormal
    constructor
    · exact fun heval hterms => ⟨hterms, (hcondition heval).2 rfl⟩
    · rintro ⟨hterms, hholds⟩
      refine ⟨hterms, ?_⟩
      rintro ⟨isBool, heval⟩
      exact false_ne_true ((hcondition heval).1 hholds)
  | none =>
    simp only [hfind] at h hv ⊢
    cases h
    rw [holds_insert]
    have hatom := hv _ _ mem_cons_self
    constructor
    · exact fun heval hterms => ⟨hatom.2 heval, hterms⟩
    · rintro ⟨hholds, hterms⟩
      refine ⟨hterms, fun hfalse => ?_⟩
      exact false_ne_true (hfalse.symm.trans (hatom.1 hholds))

def addNames (C : Compiler) (f : FunctionDef) (bindings : Types) (type : TypeNode)
    (names : List Path) (terms : Terms Atom) : Option (Terms Atom) :=
  names.foldlM (fun terms name => addName C f bindings type name terms) terms

def addBound (C : Compiler) (f : FunctionDef) (bindings : Types) (terms : Terms Atom)
    (bound : Name × List Path) : Option (Terms Atom) :=
  match bindings.lookup bound.1 with
  | none => some terms
  | some type => addNames C f bindings type bound.2 terms

def normalForm (C : Compiler) (f : FunctionDef) (bindings : Types) : Option (Terms Atom) :=
  (f.typeParamTraitBounds.foldlM (addBound C f bindings) [[]]).bind fun terms =>
    match f.requiresClause with
    | none => some terms
    | some clause =>
      (normalize C f.sourceModule 129 clause bindings f.scope).bind (conjunction terms)

variable {names : List Path} {bounds : List (Name × List Path)}

theorem checkNames_eq_some (hagain : ∀ name ∈ names, BoundKeepsMeaning C f bindings type name)
    (h : checkNames C f bindings type names terms = some terms') :
    (∀ name ∈ names, BoundHolds C f bindings type name) ∧
    addNames C f bindings type names terms = some terms' := by
  induction names generalizing terms with
  | nil => exact ⟨fun _ hname => (nomatch hname), h⟩
  | cons name names ih =>
    rw [checkNames] at h
    split at h
    · cases h
    · rename_i middle hmiddle
      obtain ⟨hholds, hadd⟩ := checkBound_eq_some (hagain name mem_cons_self).again hmiddle
      obtain ⟨hrest, hadds⟩ := ih (fun n hn => hagain n (mem_cons_of_mem _ hn)) h
      refine ⟨forall_mem_cons.2 ⟨hholds, hrest⟩, ?_⟩
      rw [addNames, foldlM_cons, hadd]
      exact hadds

theorem checkBounds_eq_some (hagain : BoundsKeepMeaning C f bindings bounds)
    (h : checkBounds C f bindings bounds terms = some terms') :
    BoundsHold C f bindings bounds ∧ bounds.foldlM (addBound C f bindings) terms = some terms' := by
  induction bounds generalizing terms with
  | nil => exact ⟨fun _ hbound => (nomatch hbound), h⟩
  | cons bound bounds ih =>
    obtain ⟨typeParam, names⟩ := bound
    have hrest : BoundsKeepMeaning C f bindings bounds := fun b hb => hagain b (mem_cons_of_mem _ hb)
    rw [checkBounds] at h
    rw [foldlM_cons, addBound]
    cases hlookup : bindings.lookup typeParam with
    | none =>
      simp only [hlookup] at h ⊢
      obtain ⟨hbounds, hfold⟩ := ih hrest h
      refine ⟨forall_mem_cons.2 ⟨fun type htype => ?_, hbounds⟩, hfold⟩
      rw [hlookup] at htype
      cases htype
    | some type =>
      simp only [hlookup] at h ⊢
      split at h
      · cases h
      · rename_i middle hmiddle
        obtain ⟨hnames, hadd⟩ := checkNames_eq_some (hagain _ mem_cons_self type hlookup) hmiddle
        obtain ⟨hbounds, hfold⟩ := ih hrest h
        rw [hadd]
        refine ⟨forall_mem_cons.2 ⟨fun type' htype => ?_, hbounds⟩, hfold⟩
        obtain rfl := some.inj (hlookup.symm.trans htype)
        exact hnames

theorem satisfiesFunctionConstraints_eq_some
    (hagain : BoundsKeepMeaning C f bindings f.typeParamTraitBounds)
    (h : satisfiesFunctionConstraints C f bindings = some terms) :
    ConstraintsHold C f bindings ∧ normalForm C f bindings = some terms := by
  unfold satisfiesFunctionConstraints at h
  cases hcheck : checkBounds C f bindings f.typeParamTraitBounds [[]] with
  | none => simp [hcheck] at h
  | some middle =>
    simp only [hcheck] at h
    obtain ⟨hbounds, hfold⟩ := checkBounds_eq_some hagain hcheck
    rw [normalForm, hfold, bind_some]
    cases hclause : f.requiresClause with
    | none =>
      simp only [hclause] at h ⊢
      exact ⟨⟨hbounds, fun clause hc => (nomatch hclause.symm.trans hc)⟩, h⟩
    | some clause =>
      simp only [hclause] at h ⊢
      split at h
      · rename_i heval
        split at h
        · cases h
        · rename_i condition hnormal
          refine ⟨⟨hbounds, fun clause' hc => ?_⟩, ?_⟩
          · obtain rfl := some.inj (hclause.symm.trans hc)
            exact heval
          · rw [hnormal]
            exact h
      · cases h

theorem holds_addNames (hnames : ∀ name ∈ names, BoundKeepsMeaning C f bindings type name)
    (hv : Reads v (names.flatMap (nameReadings C f bindings type)))
    (h : addNames C f bindings type names terms = some terms') :
    ((∀ name ∈ names, BoundHolds C f bindings type name) → Holds v terms → Holds v terms') ∧
    (Holds v terms' → Holds v terms ∧ ∀ name ∈ names, ¬BoundFails C f bindings type name) := by
  induction names generalizing terms with
  | nil =>
    cases h
    exact ⟨fun _ hholds => hholds, fun hholds => ⟨hholds, fun _ hname => nomatch hname⟩⟩
  | cons name names ih =>
    rw [flatMap_cons, reads_append] at hv
    rw [addNames, foldlM_cons] at h
    obtain ⟨middle, hmiddle, hadds⟩ := bind_eq_some_iff.1 h
    obtain ⟨hto, hfrom⟩ := holds_addName (hnames name mem_cons_self) hv.1 hmiddle
    obtain ⟨htos, hfroms⟩ := ih (fun n hn => hnames n (mem_cons_of_mem _ hn)) hv.2 hadds
    constructor
    · intro hall hholds
      obtain ⟨hname, hnames⟩ := forall_mem_cons.1 hall
      exact htos hnames (hto hname hholds)
    · intro hholds
      obtain ⟨hmid, hnames⟩ := hfroms hholds
      obtain ⟨hterms, hname⟩ := hfrom hmid
      exact ⟨hterms, forall_mem_cons.2 ⟨hname, hnames⟩⟩

theorem holds_addBounds (hnames : BoundsKeepMeaning C f bindings bounds)
    (hv : Reads v (bounds.flatMap (boundReadings C f bindings)))
    (h : bounds.foldlM (addBound C f bindings) terms = some terms') :
    (BoundsHold C f bindings bounds → Holds v terms → Holds v terms') ∧
    (Holds v terms' → Holds v terms ∧ ∀ bound ∈ bounds, ∀ type, bindings.lookup bound.1 = some type → ∀ name
      ∈ bound.2, ¬BoundFails C f bindings type name) := by
  induction bounds generalizing terms with
  | nil =>
    cases h
    exact ⟨fun _ hholds => hholds, fun hholds => ⟨hholds, fun _ hbound => nomatch hbound⟩⟩
  | cons bound bounds ih =>
    rw [flatMap_cons, reads_append] at hv
    rw [foldlM_cons] at h
    obtain ⟨middle, hmiddle, hfold⟩ := bind_eq_some_iff.1 h
    obtain ⟨htos, hfroms⟩ := ih (fun b hb => hnames b (mem_cons_of_mem _ hb)) hv.2 hfold
    have hbound : (BoundsHold C f bindings [bound] → Holds v terms → Holds v middle) ∧
        (Holds v middle → Holds v terms ∧ ∀ type, bindings.lookup bound.1 = some type →
          ∀ name ∈ bound.2, ¬BoundFails C f bindings type name) := by
      have hread := hv.1
      unfold boundReadings at hread
      unfold addBound at hmiddle
      cases htype : bindings.lookup bound.1 with
      | none =>
        simp only [htype] at hmiddle
        cases hmiddle
        exact ⟨fun _ hholds => hholds, fun hholds => ⟨hholds, fun _ hnone => nomatch hnone⟩⟩
      | some type =>
        simp only [htype] at hmiddle hread
        obtain ⟨hto, hfrom⟩ :=
          holds_addNames (hnames bound mem_cons_self type htype) hread hmiddle
        refine ⟨fun hall => hto (hall bound mem_cons_self type htype), fun hholds => ?_⟩
        obtain ⟨hterms, hnames⟩ := hfrom hholds
        refine ⟨hterms, fun type' hsome => ?_⟩
        cases hsome
        exact hnames
    constructor
    · intro hall hholds
      obtain ⟨hone, hrest⟩ := forall_mem_cons.1 hall
      exact htos hrest (hbound.1 (forall_mem_singleton.2 hone) hholds)
    · intro hholds
      obtain ⟨hmid, hrest⟩ := hfroms hholds
      obtain ⟨hterms, hone⟩ := hbound.2 hmid
      exact ⟨hterms, forall_mem_cons.2 ⟨hone, hrest⟩⟩

theorem holds_normalForm (hnames : NamesKeepMeaning C f bindings)
    (hv : Reads v (functionReadings C f bindings))
    (h : normalForm C f bindings = some terms) :
    (ConstraintsHold C f bindings → Holds v terms) ∧ (Holds v terms → NoneFails C f bindings) := by
  rw [functionReadings, reads_append] at hv
  obtain ⟨middle, hfold, hclause⟩ := bind_eq_some_iff.1 h
  obtain ⟨hto, hfrom⟩ := holds_addBounds hnames.bounds hv.1 hfold
  have hread := hv.2
  unfold clauseReadings at hread
  cases hrequires : f.requiresClause with
  | none =>
    simp only [hrequires] at hclause
    cases hclause
    exact ⟨fun hall => hto hall.bounds (holds_unit v),
      fun hholds => ⟨(hfrom hholds).2, fun clause hc => nomatch hrequires.symm.trans hc⟩⟩
  | some clause =>
    simp only [hrequires] at hclause hread
    obtain ⟨condition, hnormal, hconj⟩ := bind_eq_some_iff.1 hclause
    rw [holds_conjunction hconj]
    constructor
    · intro hall
      exact ⟨hto hall.bounds (holds_unit v),
        (holds_normalize (hnames.clause clause hrequires) hread (hall.clause clause hrequires) hnormal).2 rfl⟩
    · rintro ⟨hmid, hcondition⟩
      refine ⟨(hfrom hmid).2, fun clause' hc isBool heval => ?_⟩
      obtain rfl := some.inj (hrequires.symm.trans hc)
      exact false_ne_true ((holds_normalize (hnames.clause clause hrequires) hread heval hnormal).1
        hcondition)

end Mlang.ConstraintSubsumption
