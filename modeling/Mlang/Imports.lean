import Mlang.ModuleLoader

namespace Mlang.Imports

open Mangling (Name)
open SignatureKeys ModuleLoader Importer List

def signatures (l : Loader) (ids : List NodeId) : List Signature :=
  ids.map (fun id => (l.functions id).signature)

def renamed (name : Name) (σ : Signature) : Signature := { σ with name := name }

def moduleSignatures (l : Loader) (moduleName : Name) : List Signature :=
  match getModule l moduleName with
  | none => []
  | some m => signatures l m.functionList

def qualifiedSignatures (aliasName : Name) (σs : List Signature) : List Signature :=
  (σs.filter (fun σ => σ.name ≠ [])).map (fun σ => renamed (qualified aliasName σ.name) σ)

def itemSignatures (itemName aliasName : Name) (σs : List Signature) : List Signature :=
  (σs.filter (fun σ => σ.name = itemName)).map (renamed aliasName)

def aliasedModule (l : Loader) (moduleAliases : List (Name × Name)) (useDecl : UseDeclNode) :
    Option Name :=
  let moduleName := resolveModuleAlias moduleAliases useDecl.moduleName
  let combinedModuleName :=
    resolveModuleAlias moduleAliases (qualified useDecl.moduleName useDecl.itemName)
  if useDecl.moduleAlias then some moduleName
  else if !useDecl.importAll ∧ useDecl.aliasName ≠ [] ∧ (getModule l moduleName).isNone ∧
      (getModule l combinedModuleName).isSome then some combinedModuleName
  else none

def offered (l : Loader) : List UseDeclNode → List (Name × Name) → List Signature
  | [], _ => []
  | useDecl :: useDecls, moduleAliases =>
    match aliasedModule l moduleAliases useDecl with
    | some moduleName =>
      qualifiedSignatures useDecl.aliasName (moduleSignatures l moduleName) ++
        (moduleSignatures l moduleName ++
          offered l useDecls ((useDecl.aliasName, moduleName) :: moduleAliases))
    | none =>
      let σs := moduleSignatures l (resolveModuleAlias moduleAliases useDecl.moduleName)
      σs ++ ((if useDecl.importAll ∨ useDecl.aliasName = [] then []
        else itemSignatures useDecl.itemName useDecl.aliasName σs) ++
          offered l useDecls moduleAliases)

def considered (l : Loader) (program : ProgramNode) : List Signature :=
  signatures l program.functionList ++ offered l program.imports []

variable {σs : List Signature}

def SameOverload (σ τ : Signature) : Prop :=
  σ.name = τ.name ∧ σ.parameters = τ.parameters ∧ σ.isVarArg = τ.isVarArg

def KeepsOverloads (σs : List Signature) (s : Importer) : Prop :=
  ∀ σ ∈ σs, ∃ id ∈ s.program.functionList, SameOverload (s.functions id).signature σ

/-- Functions of one name that differ in their parameter types are never taken for duplicates. -/
def NoFalseDuplicates (σs : List Signature) : Prop :=
  ∀ σ ∈ σs, ∀ τ ∈ σs, σ.name = τ.name → σ.parameters ≠ τ.parameters →
    functionSignatureKey σ ≠ functionSignatureKey τ

def WordsSeparate (σs : List Signature) : Prop :=
  ∀ σ ∈ σs, ∀ τ ∈ σs, σ.name = τ.name → σ.isVarArg = τ.isVarArg → σ.constraints = τ.constraints →
    σ.parameters.map typeWords = τ.parameters.map typeWords → σ.parameters = τ.parameters

theorem noFalseDuplicates_iff (hσs : ∀ σ ∈ σs, σ.WellFormed) : NoFalseDuplicates σs ↔ WordsSeparate σs := by
  constructor
  · intro h σ hσ τ hτ hname hvar hconstraints hparameters
    by_contra hne
    exact h σ hσ τ hτ hname hne
      ((functionSignatureKey_eq_iff (hσs σ hσ) (hσs τ hτ)).2 ⟨hname, hparameters, hvar, hconstraints⟩)
  · intro h σ hσ τ hτ hname hne hkey
    obtain ⟨-, hparameters, hvar, hconstraints⟩ :=
      (functionSignatureKey_eq_iff (hσs σ hσ) (hσs τ hτ)).1 hkey
    exact hne (h σ hσ τ hτ hname hvar hconstraints hparameters)

variable {s' s : Importer} {ids : List NodeId} {id : NodeId} {σ : Signature}

def Holds (s : Importer) (σ : Signature) : Prop :=
  ∃ id ∈ s.program.functionList, s.signatureKey id = functionSignatureKey σ

def Allocated (l : Loader) (ids : List NodeId) : Prop := ∀ id ∈ ids, id < l.nextFunction

structure Brings (σs : List Signature) (s s' : Importer) : Prop where
  modules : s'.modules = s.modules
  aliases : s'.moduleAliases = s.moduleAliases
  next : s.nextFunction ≤ s'.nextFunction
  kept : ∀ id < s.nextFunction, (s'.functions id).signature = (s.functions id).signature
  held : ∀ σ, Holds s σ → Holds s' σ
  brought : ∀ σ ∈ σs, Holds s' σ
  allocated : Allocated s'.toLoader s'.program.functionList
  listed : ∀ σ ∈ signatures s'.toLoader s'.program.functionList,
    σ ∈ signatures s.toLoader s.program.functionList ++ σs

variable {existing : NodeId}

theorem Brings.trans {τs : List Signature} {s'' : Importer} (h : Brings σs s s') (h' : Brings τs s' s'') :
    Brings (σs ++ τs) s s'' where
  modules := h'.modules.trans h.modules
  aliases := h'.aliases.trans h.aliases
  next := h.next.trans h'.next
  kept := fun id hid => (h'.kept id (hid.trans_le h.next)).trans (h.kept id hid)
  held := fun σ hσ => h'.held σ (h.held σ hσ)
  brought := by
    intro σ hσ
    rcases mem_append.1 hσ with hσ | hσ
    · exact h'.held σ (h.brought σ hσ)
    · exact h'.brought σ hσ
  allocated := h'.allocated
  listed := by
    intro σ hσ
    rcases mem_append.1 (h'.listed σ hσ) with hσ | hσ
    · rcases mem_append.1 (h.listed σ hσ) with hσ | hσ
      · exact mem_append_left _ hσ
      · exact mem_append_right _ (mem_append_left _ hσ)
    · exact mem_append_right _ (mem_append_right _ hσ)

theorem brings_nil (hs : Allocated s.toLoader s.program.functionList) (hmodules : s'.modules = s.modules)
    (haliases : s'.moduleAliases = s.moduleAliases) (hnext : s'.nextFunction = s.nextFunction)
    (hkept : ∀ id, (s'.functions id).signature = (s.functions id).signature)
    (hlist : s'.program.functionList = s.program.functionList) : Brings [] s s' where
  modules := hmodules
  aliases := haliases
  next := hnext.ge
  kept := fun id _ => hkept id
  held := by
    rintro σ ⟨id, hid, hkey⟩
    exact ⟨id, hlist ▸ hid, (congrArg functionSignatureKey (hkept id)).trans hkey⟩
  brought := fun _ hσ => nomatch hσ
  allocated := by
    intro id hid
    rw [hlist] at hid
    rw [hnext]
    exact hs id hid
  listed := by
    intro σ hσ
    rw [append_nil]
    simpa only [signatures, hkept, hlist] using hσ

theorem signatures_kept (h : Brings σs s s') (hids : Allocated s.toLoader ids) :
    signatures s'.toLoader ids = signatures s.toLoader ids :=
  map_congr_left fun id hid => h.kept id (hids id hid)

theorem Brings.allocated_of (h : Brings σs s s') (hids : Allocated s.toLoader ids) :
    Allocated s'.toLoader ids :=
  fun id hid => (hids id hid).trans_le h.next

theorem signature_tagFunction (moduleName : Name) (id : NodeId) (l : Loader) (id' : NodeId) :
    ((tagFunction moduleName id l).functions id').signature = (l.functions id').signature := by
  unfold tagFunction
  split
  · by_cases hid : id' = id
    · subst hid
      simp only [Function.update_self]
    · simp only [Function.update_of_ne hid]
  · rfl

@[simp] theorem nextFunction_tagFunction (moduleName : Name) (id : NodeId) (l : Loader) :
    (tagFunction moduleName id l).nextFunction = l.nextFunction := by
  unfold tagFunction
  split <;> rfl

@[simp] theorem modules_tagFunction (moduleName : Name) (id : NodeId) (l : Loader) :
    (tagFunction moduleName id l).modules = l.modules := by
  unfold tagFunction
  split <;> rfl

theorem findDuplicate_key (h : s.findDuplicate id = some existing) :
    s.signatureKey existing = s.signatureKey id := by
  have hkey := find?_some h
  simpa using hkey

theorem holds_of_findDuplicate (h : s.findDuplicate id = some existing) :
    Holds s (s.functions id).signature :=
  ⟨existing, mem_of_find?_eq_some h, findDuplicate_key h⟩

variable (hs : Allocated s.toLoader s.program.functionList)
include hs

theorem brings_append (hid : id < s.nextFunction) :
    Brings [(s.functions id).signature] s (s.setFunctions (s.program.functionList ++ [id])) where
  modules := rfl
  aliases := rfl
  next := le_rfl
  kept := fun _ _ => rfl
  held := fun _ ⟨id', hid', hkey⟩ => ⟨id', mem_append_left _ hid', hkey⟩
  brought := by
    intro σ hσ
    obtain rfl := mem_singleton.1 hσ
    exact ⟨id, mem_append_right _ mem_cons_self, rfl⟩
  allocated := by
    intro id' hid'
    rcases mem_append.1 hid' with hid' | hid'
    · exact hs id' hid'
    · obtain rfl := mem_singleton.1 hid'
      exact hid
  listed := by
    intro σ hσ
    simpa [signatures, setFunctions] using hσ

theorem brings_replace (hid : id < s.nextFunction)
    (h : s.findDuplicate id = some existing) :
    Brings [(s.functions id).signature] s (s.setFunctions (s.program.functionList.replace existing id)) := by
  obtain ⟨before, after, hlist, hreplaced⟩ := replace_of_mem (mem_of_find?_eq_some h) id
  have hmem : ∀ id' ∈ s.program.functionList.replace existing id,
      id' ∈ s.program.functionList ∨ id' = id := by
    intro id' hid'
    rw [hreplaced] at hid'
    rw [hlist]
    simp only [mem_append, mem_cons] at hid' ⊢
    tauto
  have hheld : ∀ σ, Holds s σ →
      Holds (s.setFunctions (s.program.functionList.replace existing id)) σ := by
    rintro σ ⟨id', hid', hσ⟩
    have hin : ∀ id'' ∈ before ++ id :: after,
        id'' ∈ (s.setFunctions (s.program.functionList.replace existing id)).program.functionList :=
      fun id'' hid'' => hreplaced ▸ hid''
    rw [hlist] at hid'
    rcases mem_append.1 hid' with hid' | hid'
    · exact ⟨id', hin id' (mem_append_left _ hid'), hσ⟩
    · rcases mem_cons.1 hid' with rfl | hid'
      · exact ⟨id, hin id (mem_append_right _ mem_cons_self), (findDuplicate_key h).symm.trans hσ⟩
      · exact ⟨id', hin id' (mem_append_right _ (mem_cons_of_mem _ hid')), hσ⟩
  refine ⟨rfl, rfl, le_rfl, fun _ _ => rfl, hheld, ?_, ?_, ?_⟩
  · intro σ hσ
    obtain rfl := mem_singleton.1 hσ
    exact hheld _ (holds_of_findDuplicate h)
  · intro id' hid'
    rcases hmem id' hid' with hid' | rfl
    · exact hs id' hid'
    · exact hid
  · intro σ hσ
    obtain ⟨id', hid', rfl⟩ := mem_map.1 hσ
    rcases hmem id' hid' with hid' | rfl
    · exact mem_append_left _ (mem_map_of_mem hid')
    · exact mem_append_right _ mem_cons_self

theorem brings_self (hσ : Holds s σ) : Brings [σ] s s where
  modules := rfl
  aliases := rfl
  next := le_rfl
  kept := fun _ _ => rfl
  held := fun _ h => h
  brought := by
    intro τ hτ
    obtain rfl := mem_singleton.1 hτ
    exact hσ
  allocated := hs
  listed := fun _ hτ => mem_append_left _ hτ

omit hs

variable {aliasName moduleName : Name} {m : ProgramNode}

theorem nextFunction_copyFunction (moduleName name : Name) (id : NodeId) (l : Loader) :
    (copyFunction moduleName name id l).nextFunction = l.nextFunction + 1 :=
  nextFunction_tagFunction _ _ _

variable {f : NodeId → Importer → Importer}

theorem brings_copyFunction (hs : Allocated s.toLoader s.program.functionList) (moduleName name : Name)
    (id : NodeId) : Brings [] s { s with toLoader := copyFunction moduleName name id s.toLoader } := by
  have hkept : ∀ id' < s.nextFunction,
      ((copyFunction moduleName name id s.toLoader).functions id').signature =
        (s.functions id').signature := by
    intro id' hid'
    rw [copyFunction, signature_tagFunction]
    simp only [Function.update_of_ne hid'.ne]
  refine ⟨modules_tagFunction _ _ _, rfl, ?_, hkept, ?_, (fun _ hσ => nomatch hσ), ?_, ?_⟩
  · exact (Nat.le_succ _).trans_eq (nextFunction_copyFunction moduleName name id _).symm
  · rintro σ ⟨id', hid', hkey⟩
    exact ⟨id', hid', (congrArg functionSignatureKey (hkept id' (hs id' hid'))).trans hkey⟩
  · intro id' hid'
    exact ((hs id' hid').trans (Nat.lt_succ_self _)).trans_eq
      (nextFunction_copyFunction moduleName name id _).symm
  · intro σ hσ
    obtain ⟨id', hid', rfl⟩ := mem_map.1 hσ
    rw [append_nil]
    exact mem_map.2 ⟨id', hid', (hkept id' (hs id' hid')).symm⟩

theorem signature_copyFunction (moduleName name : Name) (id : NodeId) (l : Loader) :
    ((copyFunction moduleName name id l).functions l.nextFunction).signature =
      renamed name (l.functions id).signature := by
  rw [copyFunction, signature_tagFunction]
  simp only [Function.update_self, renamed]

theorem brings_addFunctionAlias (hs : Allocated s.toLoader s.program.functionList) (moduleName name : Name)
    (id : NodeId) : Brings [renamed name (s.functions id).signature] s
    (addFunctionAlias moduleName name id s) := by
  have hcopy := brings_copyFunction hs moduleName name id
  have hsignature := signature_copyFunction moduleName name id s.toLoader
  have hnext : s.nextFunction < (copyFunction moduleName name id s.toLoader).nextFunction :=
    (Nat.lt_succ_self _).trans_eq (nextFunction_copyFunction moduleName name id _).symm
  rw [← hsignature]
  unfold addFunctionAlias
  cases hfind : findDuplicate
      { s with toLoader := copyFunction moduleName name id s.toLoader } s.nextFunction with
  | some existing =>
    simp only [hfind]
    exact hcopy.trans (brings_self hcopy.allocated (holds_of_findDuplicate hfind))
  | none =>
    simp only [hfind]
    exact hcopy.trans (brings_append hcopy.allocated hnext)

theorem brings_each {g : Signature → List Signature}
    (hf : ∀ (s : Importer) (id : NodeId), Allocated s.toLoader s.program.functionList → Brings (g
      (s.functions id).signature) s (f id s))
    (ids : List NodeId) (hs : Allocated s.toLoader s.program.functionList) (hids : Allocated s.toLoader ids) :
    Brings ((signatures s.toLoader ids).flatMap g) s (each f ids s) := by
  induction ids generalizing s with
  | nil => exact brings_nil hs rfl rfl rfl (fun _ => rfl) rfl
  | cons id ids ih =>
    have hstep := hf s id hs
    have hrest : Allocated s.toLoader ids := fun id' hid' => hids id' (mem_cons_of_mem _ hid')
    have htail := ih hstep.allocated (hstep.allocated_of hrest)
    rw [signatures_kept hstep hrest] at htail
    exact hstep.trans htail

theorem brings_each_nil
    (hf : ∀ (s : Importer) (id : NodeId), Allocated s.toLoader s.program.functionList → Brings [] s (f id s))
    (ids : List NodeId) (hs : Allocated s.toLoader s.program.functionList) : Brings [] s (each f ids s) := by
  induction ids generalizing s with
  | nil => exact brings_nil hs rfl rfl rfl (fun _ => rfl) rfl
  | cons id ids ih => exact (hf s id hs).trans (ih (hf s id hs).allocated)

theorem brings_addConceptAlias (hs : Allocated s.toLoader s.program.functionList) (name : Name)
    (id : NodeId) : Brings [] s (addConceptAlias name id s) :=
  brings_nil hs rfl rfl rfl (fun _ => rfl) rfl

theorem flatMap_qualified (aliasName : Name) (σs : List Signature) :
    σs.flatMap (fun σ => if σ.name = [] then [] else [renamed (qualified aliasName σ.name) σ]) =
      qualifiedSignatures aliasName σs := by
  induction σs with
  | nil => rfl
  | cons σ σs ih =>
    rw [flatMap_cons, ih]
    by_cases hname : σ.name = [] <;> simp [qualifiedSignatures, hname]

theorem brings_qualified (hs : Allocated s.toLoader s.program.functionList) (moduleName aliasName : Name)
    (hids : Allocated s.toLoader ids) :
    Brings (qualifiedSignatures aliasName (signatures s.toLoader ids)) s
    (each (fun id s => if (s.functions id).signature.name = [] then s else addFunctionAlias moduleName
      (qualified aliasName (s.functions id).signature.name) id s) ids s) := by
  rw [← flatMap_qualified]
  refine brings_each (fun s id hs => ?_) ids hs hids
  by_cases hname : (s.functions id).signature.name = []
  · simp only [hname, if_true]
    exact brings_nil hs rfl rfl rfl (fun _ => rfl) rfl
  · simp only [hname, if_false]
    exact brings_addFunctionAlias hs moduleName _ id

theorem brings_bindModuleAlias (hs : Allocated s.toLoader s.program.functionList)
    (hm : getModule s.toLoader moduleName = some m) (hids : Allocated s.toLoader m.functionList)
    (h : bindModuleAlias moduleName aliasName s = .ok s') :
    Brings (qualifiedSignatures aliasName (signatures s.toLoader m.functionList))
    { s with moduleAliases := (aliasName, moduleName) :: s.moduleAliases } s' := by
  rw [bindModuleAlias, hm] at h
  cases h
  have hfunctions := brings_qualified
    (s := { s with moduleAliases := (aliasName, moduleName) :: s.moduleAliases })
    hs moduleName aliasName hids
  rw [← append_nil (qualifiedSignatures _ _)]
  refine hfunctions.trans (brings_each_nil (fun s id hs => ?_) m.conceptDefs hfunctions.allocated)
  split
  · exact brings_nil hs rfl rfl rfl (fun _ => rfl) rfl
  · exact brings_addConceptAlias hs _ id

theorem filter_signatures (l : Loader) (itemName : Name) (ids : List NodeId) :
    signatures l (ids.filter (fun id => (l.functions id).signature.name = itemName)) =
      (signatures l ids).filter (fun σ => σ.name = itemName) := by
  rw [signatures, signatures, filter_map]
  rfl

variable (hs : Allocated s.toLoader s.program.functionList)
include hs

theorem brings_bindItemAlias {itemName : Name} (hids : Allocated s.toLoader m.functionList)
    (h : bindItemAlias moduleName itemName aliasName m s = .ok s') :
    Brings (itemSignatures itemName aliasName (signatures s.toLoader m.functionList)) s s' := by
  have hconcepts := brings_each_nil (f := addConceptAlias aliasName)
    (fun s id hs => brings_addConceptAlias hs aliasName id)
    ((m.conceptDefs.filter (fun id => (s.definitions id).name = itemName)).take 1) hs
  have hfunctions := brings_each (f := addFunctionAlias moduleName aliasName)
    (g := fun σ => [renamed aliasName σ])
    (fun s id hs => brings_addFunctionAlias hs moduleName aliasName id)
    (m.functionList.filter (fun id => (s.functions id).signature.name = itemName))
    hconcepts.allocated
    (hconcepts.allocated_of fun id hid => hids id (mem_of_mem_filter hid))
  have hboth := hconcepts.trans hfunctions
  rw [signatures_kept hconcepts fun id hid => hids id (mem_of_mem_filter hid),
    filter_signatures, nil_append, ← map_eq_flatMap] at hboth
  simp only [bindItemAlias] at h
  split at h
  · cases h
    exact hboth
  · split at h
    · cases h
      rw [← append_nil (itemSignatures _ _ _)]
      refine hboth.trans (brings_nil hboth.allocated ?_ ?_ ?_ ?_ ?_) <;> unfold addTypeAlias <;>
        split <;> simp
    · cases h

variable {useDecls : List UseDeclNode} {currentModuleName : Name} {tracked : Bool}
  {useDecl : UseDeclNode}

theorem brings_tagFunction (moduleName : Name)
    (id : NodeId) : Brings [] s { s with toLoader := tagFunction moduleName id s.toLoader } :=
  brings_nil hs (modules_tagFunction _ _ _) rfl (nextFunction_tagFunction _ _ _)
    (signature_tagFunction _ _ _) rfl

theorem brings_importFunction (hid : id < s.nextFunction)
    (h : importFunction moduleName id s = .ok s') : Brings [(s.functions id).signature] s s' := by
  have htag := brings_tagFunction hs moduleName id
  have hid' := hid.trans_le htag.next
  rw [← htag.kept id hid]
  unfold importFunction at h
  cases hfind : findDuplicate { s with toLoader := tagFunction moduleName id s.toLoader } id with
  | none =>
    simp only [hfind] at h
    cases h
    exact htag.trans (brings_append htag.allocated hid')
  | some existing =>
    simp only [hfind] at h
    split at h
    · cases h
    · split at h
      · cases h
        exact htag.trans (brings_replace htag.allocated hid' hfind)
      · cases h
        exact htag.trans (brings_self htag.allocated (holds_of_findDuplicate hfind))

theorem brings_importFunctions (hids : Allocated s.toLoader ids) (h : importFunctions moduleName ids s = .ok s') :
    Brings (signatures s.toLoader ids) s s' := by
  induction ids generalizing s with
  | nil =>
    cases h
    exact brings_nil hs rfl rfl rfl (fun _ => rfl) rfl
  | cons id ids ih =>
    rw [importFunctions] at h
    cases himport : importFunction moduleName id s with
    | error e =>
      rw [himport] at h
      cases h
    | ok s₁ =>
      rw [himport] at h
      have hstep := brings_importFunction hs (hids id mem_cons_self) himport
      have hrest : Allocated s.toLoader ids :=
        fun id' hid' => hids id' (mem_cons_of_mem _ hid')
      have htail := ih hstep.allocated (hstep.allocated_of hrest) h
      rw [signatures_kept hstep hrest] at htail
      exact hstep.trans htail

theorem brings_importStruct (moduleName : Name)
    (id : NodeId) : Brings [] s (importStruct moduleName id s) := by
  refine brings_nil hs ?_ ?_ ?_ (fun _ => ?_) ?_ <;> unfold importStruct <;> dsimp only <;> split <;> rfl

theorem brings_importEnum (moduleName : Name)
    (id : NodeId) : Brings [] s (importEnum moduleName id s) := by
  refine brings_nil hs ?_ ?_ ?_ (fun _ => ?_) ?_ <;> unfold importEnum tagDefinition <;> dsimp only <;>
    split <;> split <;> rfl

theorem brings_importConcept (id : NodeId) :
    Brings [] s (importConcept id s) := by
  refine brings_nil hs ?_ ?_ ?_ (fun _ => ?_) ?_ <;> unfold importConcept <;> split <;> rfl

theorem brings_importTrait (id : NodeId) :
    Brings [] s (importTrait id s) := by
  refine brings_nil hs ?_ ?_ ?_ (fun _ => ?_) ?_ <;> unfold importTrait <;> split <;> rfl

theorem brings_importTypeAliases (aliases : List Name) :
    Brings [] s (importTypeAliases aliases s) :=
  brings_nil hs rfl rfl rfl (fun _ => rfl) rfl

theorem brings_importModule (hids : Allocated s.toLoader m.functionList) (h : importModule moduleName m s = .ok s') :
    Brings (signatures s.toLoader m.functionList) s s' := by
  rw [importModule] at h
  cases hfunctions : importFunctions moduleName m.functionList s with
  | error e =>
    rw [hfunctions] at h
    cases h
  | ok s₁ =>
    rw [hfunctions] at h
    cases h
    have h₁ := brings_importFunctions hs hids hfunctions
    have h₂ := h₁.trans (brings_each_nil (f := importStruct moduleName)
      (fun s id hs => brings_importStruct hs moduleName id) m.structList h₁.allocated)
    have h₃ := h₂.trans (brings_each_nil (f := importEnum moduleName)
      (fun s id hs => brings_importEnum hs moduleName id) m.enumList h₂.allocated)
    have h₄ := h₃.trans (brings_importTypeAliases h₃.allocated m.typeAliases)
    have h₅ := h₄.trans (brings_each_nil (f := importConcept)
      (fun s id hs => brings_importConcept hs id) m.conceptDefs h₄.allocated)
    have h₆ := h₅.trans (brings_each_nil (f := importTrait)
      (fun s id hs => brings_importTrait hs id) m.traitDefs h₅.allocated)
    simp only [append_nil] at h₆
    rw [← append_nil (signatures _ _)]
    exact h₆.trans (brings_nil h₆.allocated rfl rfl rfl (fun _ => rfl) rfl)

omit hs

def ModulesAllocated (l : Loader) : Prop :=
  ∀ moduleName m, getModule l moduleName = some m → Allocated l m.functionList

variable (h : Brings σs s s')
include h

theorem Brings.getModule_eq (moduleName : Name) :
    getModule s'.toLoader moduleName = getModule s.toLoader moduleName := by
  rw [getModule, getModule, h.modules]

theorem Brings.modulesAllocated (hm : ModulesAllocated s.toLoader) :
    ModulesAllocated s'.toLoader := by
  intro moduleName m hget
  rw [h.getModule_eq] at hget
  exact h.allocated_of (hm moduleName m hget)

theorem Brings.moduleSignatures_eq (hm : ModulesAllocated s.toLoader)
    (moduleName : Name) : moduleSignatures s'.toLoader moduleName =
    moduleSignatures s.toLoader moduleName := by
  unfold moduleSignatures
  rw [h.getModule_eq]
  cases hget : getModule s.toLoader moduleName with
  | none => rfl
  | some m => exact signatures_kept h (hm moduleName m hget)

theorem Brings.aliasedModule_eq (moduleAliases : List (Name × Name))
    (useDecl : UseDeclNode) : aliasedModule s'.toLoader moduleAliases useDecl =
    aliasedModule s.toLoader moduleAliases useDecl := by
  simp only [aliasedModule, h.getModule_eq]

theorem Brings.offered_eq (hm : ModulesAllocated s.toLoader)
    (useDecls : List UseDeclNode) (moduleAliases : List (Name × Name)) :
    offered s'.toLoader useDecls moduleAliases = offered s.toLoader useDecls moduleAliases := by
  induction useDecls generalizing moduleAliases with
  | nil => rfl
  | cons useDecl useDecls ih =>
    simp only [offered, h.aliasedModule_eq, h.moduleSignatures_eq hm, ih]

omit h

def plainSignatures (useDecl : UseDeclNode) (σs : List Signature) : List Signature :=
  σs ++ if useDecl.importAll ∨ useDecl.aliasName = [] then []
    else itemSignatures useDecl.itemName useDecl.aliasName σs

theorem brings_importUse {skip : Bool} (hs : Allocated s.toLoader s.program.functionList)
    (hm : ModulesAllocated s.toLoader)
    (h : importUse tracked currentModuleName useDecl skip moduleName s = .ok s') : Brings
    (if skip then moduleSignatures s.toLoader moduleName else plainSignatures useDecl (moduleSignatures
      s.toLoader moduleName)) s s' := by
  unfold importUse at h
  cases hget : getModule s.toLoader moduleName with
  | none =>
    rw [hget] at h
    cases h
  | some m =>
    have hsignatures : moduleSignatures s.toLoader moduleName = signatures s.toLoader m.functionList := by
      rw [moduleSignatures, hget]
    rw [hsignatures]
    simp only [hget] at h
    split at h
    · cases h
    · cases himport : importModule moduleName m s with
      | error e =>
        simp only [himport, reduceCtorEq] at h
      | ok s₁ =>
        have h₁ := brings_importModule hs (hm moduleName m hget) himport
        simp only [himport] at h
        cases skip with
        | true =>
          simp only [Bool.or_true, if_true] at h
          cases h
          exact h₁
        | false =>
          simp only [Bool.or_false] at h
          simp only [Bool.false_eq_true, if_false, plainSignatures]
          cases hall : useDecl.importAll with
          | true =>
            simp only [hall, if_true] at h
            cases h
            simpa only [true_or, if_true, append_nil] using h₁
          | false =>
            simp only [hall, Bool.false_eq_true, if_false] at h
            split at h
            · cases h
            · split at h
              · rename_i halias
                cases h
                simpa only [halias, or_true, if_true, append_nil] using h₁
              · rename_i halias
                have hids := hm moduleName m hget
                have h₂ := brings_bindItemAlias h₁.allocated (h₁.allocated_of hids) h
                rw [signatures_kept h₁ hids] at h₂
                simpa only [halias, Bool.false_eq_true, or_self, if_false] using h₁.trans h₂

theorem bindModuleAlias_loaded (h : bindModuleAlias moduleName aliasName s = .ok s') :
    ∃ m, getModule s.toLoader moduleName = some m := by
  cases hget : getModule s.toLoader moduleName with
  | none =>
    rw [bindModuleAlias, hget] at h
    cases h
  | some m => exact ⟨m, rfl⟩

variable (hs : Allocated s.toLoader s.program.functionList)
include hs

variable (hm : ModulesAllocated s.toLoader)
include hm

theorem brings_aliasAndImport {s₁ : Importer} (hbind : bindModuleAlias moduleName useDecl.aliasName s = .ok s₁)
    (h : importUse tracked currentModuleName useDecl true moduleName s₁ = .ok s') : Brings
    (qualifiedSignatures useDecl.aliasName (moduleSignatures s.toLoader moduleName) ++ moduleSignatures
      s.toLoader moduleName)
    { s with moduleAliases := (useDecl.aliasName, moduleName) :: s.moduleAliases } s' := by
  obtain ⟨m, hget⟩ := bindModuleAlias_loaded hbind
  have h₁ := brings_bindModuleAlias hs hget (hm moduleName m hget) hbind
  have h₂ := brings_importUse h₁.allocated (h₁.modulesAllocated hm) h
  rw [if_pos rfl, h₁.moduleSignatures_eq hm] at h₂
  have hsignatures : moduleSignatures s.toLoader moduleName = signatures s.toLoader m.functionList := by
    rw [moduleSignatures, hget]
  rw [hsignatures]
  have h₃ := h₁.trans h₂
  rwa [show moduleSignatures _ moduleName = _ from hsignatures] at h₃

theorem brings_processUse_some (haliased : aliasedModule s.toLoader s.moduleAliases useDecl = some moduleName)
    (h : processUse tracked currentModuleName useDecl s = .ok s') : Brings
    (qualifiedSignatures useDecl.aliasName (moduleSignatures s.toLoader moduleName) ++ moduleSignatures
      s.toLoader moduleName)
    { s with moduleAliases := (useDecl.aliasName, moduleName) :: s.moduleAliases } s' := by
  simp only [aliasedModule] at haliased
  simp only [processUse] at h
  split at haliased
  · rename_i halias
    cases haliased
    rw [if_pos halias] at h
    split at h
    · cases h
    · exact brings_aliasAndImport hs hm (by assumption) h
  · rename_i halias
    rw [if_neg halias] at h
    split at haliased
    · rename_i hcombined
      cases haliased
      rw [if_pos hcombined] at h
      split at h
      · cases h
      · exact brings_aliasAndImport hs hm (by assumption) h
    · cases haliased

theorem brings_processUse_none (haliased : aliasedModule s.toLoader s.moduleAliases useDecl = none)
    (h : processUse tracked currentModuleName useDecl s = .ok s') : Brings
    (plainSignatures useDecl (moduleSignatures s.toLoader (resolveModuleAlias s.moduleAliases
      useDecl.moduleName))) s s' := by
  simp only [aliasedModule] at haliased
  simp only [processUse] at h
  split at haliased
  · cases haliased
  · rename_i halias
    rw [if_neg halias] at h
    split at haliased
    · cases haliased
    · rename_i hcombined
      rw [if_neg hcombined] at h
      exact brings_importUse hs hm h

theorem brings_processUses (h : processUses tracked currentModuleName useDecls s = .ok s') :
    (∀ σ, Holds s σ → Holds s' σ) ∧ (∀ σ ∈ offered s.toLoader useDecls s.moduleAliases, Holds s' σ) ∧
    ∀ σ ∈ signatures s'.toLoader s'.program.functionList,
    σ ∈ signatures s.toLoader s.program.functionList ++ offered s.toLoader useDecls s.moduleAliases := by
  induction useDecls generalizing s with
  | nil =>
    cases h
    exact ⟨fun _ hσ => hσ, fun _ hσ => (not_mem_nil hσ).elim, fun _ hσ => mem_append_left _ hσ⟩
  | cons useDecl useDecls ih =>
    rw [processUses] at h
    cases huse : processUse tracked currentModuleName useDecl s with
    | error e =>
      rw [huse] at h
      cases h
    | ok s₁ =>
      rw [huse] at h
      -- the step is one of two, and so is the head of what is offered
      have hstep : ∃ σs moduleAliases, Brings σs { s with moduleAliases := moduleAliases } s₁ ∧
          offered s.toLoader (useDecl :: useDecls) s.moduleAliases =
            σs ++ offered s.toLoader useDecls moduleAliases := by
        cases haliased : aliasedModule s.toLoader s.moduleAliases useDecl with
        | some moduleName =>
          refine ⟨_, _, brings_processUse_some hs hm haliased huse, ?_⟩
          simp only [offered, haliased, append_assoc]
        | none =>
          refine ⟨_, s.moduleAliases, brings_processUse_none hs hm haliased huse, ?_⟩
          simp only [offered, haliased, plainSignatures, append_assoc]
      obtain ⟨σs, moduleAliases, hbrings, hoffered⟩ := hstep
      obtain ⟨hheld, hbrought, hlisted⟩ := ih hbrings.allocated (hbrings.modulesAllocated hm) h
      rw [hbrings.offered_eq hm, hbrings.aliases] at hbrought hlisted
      rw [hoffered]
      refine ⟨fun σ hσ => hheld σ (hbrings.held σ hσ), ?_, ?_⟩
      · intro σ hσ
        rcases mem_append.1 hσ with hσ | hσ
        · exact hheld σ (hbrings.brought σ hσ)
        · exact hbrought σ hσ
      · intro σ hσ
        rw [← append_assoc]
        rcases mem_append.1 (hlisted σ hσ) with hσ | hσ
        · exact mem_append_left _ (hbrings.listed σ hσ)
        · exact mem_append_right _ hσ

omit hm

omit hs

variable {l : Loader}

structure WellFormed (l : Loader) (program : ProgramNode) : Prop where
  modules : ModulesAllocated l
  functionList : Allocated l program.functionList
  signatures : ∀ id < l.nextFunction, (l.functions id).signature.WellFormed
  aliasNames : ∀ useDecl ∈ program.imports, '(' ∉ useDecl.aliasName

theorem wellFormed_renamed {name : Name}
    (hname : '(' ∉ name) (hσ : σ.WellFormed) : (renamed name σ).WellFormed :=
  ⟨hname, hσ.parameters⟩

theorem wellFormed_offered (hm : ModulesAllocated l)
    (hl : ∀ id < l.nextFunction, (l.functions id).signature.WellFormed)
    (huses : ∀ useDecl ∈ useDecls, '(' ∉ useDecl.aliasName) (moduleAliases : List (Name × Name)) : ∀ σ ∈
      offered l useDecls moduleAliases, σ.WellFormed := by
  have hmodule : ∀ moduleName, ∀ σ ∈ moduleSignatures l moduleName, σ.WellFormed := by
    intro moduleName σ hσ
    unfold moduleSignatures at hσ
    split at hσ
    · cases hσ
    · rename_i m hget
      obtain ⟨id, hid, rfl⟩ := mem_map.1 hσ
      exact hl id (hm moduleName m hget id hid)
  induction useDecls generalizing moduleAliases with
  | nil => exact fun _ hσ => (not_mem_nil hσ).elim
  | cons useDecl useDecls ih =>
    have halias := huses useDecl mem_cons_self
    have hrest := ih fun u hu => huses u (mem_cons_of_mem _ hu)
    intro σ hσ
    rw [offered] at hσ
    split at hσ
    · rcases mem_append.1 hσ with hσ | hσ
      · obtain ⟨τ, hτ, rfl⟩ := mem_map.1 hσ
        have hτ' := hmodule _ τ (mem_of_mem_filter hτ)
        refine wellFormed_renamed ?_ hτ'
        simp [qualified, halias, hτ'.name]
      · rcases mem_append.1 hσ with hσ | hσ
        · exact hmodule _ σ hσ
        · exact hrest _ σ hσ
    · rcases mem_append.1 hσ with hσ | hσ
      · exact hmodule _ σ hσ
      · rcases mem_append.1 hσ with hσ | hσ
        · split at hσ
          · cases hσ
          · obtain ⟨τ, hτ, rfl⟩ := mem_map.1 hσ
            exact wellFormed_renamed halias (hmodule _ τ (mem_of_mem_filter hτ))
        · exact hrest _ σ hσ

theorem wellFormed_considered {program : ProgramNode} (h : WellFormed l program) :
    ∀ σ ∈ considered l program, σ.WellFormed := by
  intro σ hσ
  rcases mem_append.1 hσ with hσ | hσ
  · obtain ⟨id, hid, rfl⟩ := mem_map.1 hσ
    exact h.signatures id (h.functionList id hid)
  · exact wellFormed_offered h.modules h.signatures h.aliasNames [] σ hσ

/-- Imports lose no overload, and take no function for a duplicate of another, exactly where no two
of the functions they look at differ only in parameter types of the same words. -/
theorem losesNoOverload_iff_wordsSeparate {tracked : Bool} {l : Loader} {program : ProgramNode}
    {currentModuleName : Name} {s : Importer} (hl : WellFormed l program)
    (h : processUseDeclarations tracked program currentModuleName l = .ok s) :
    (KeepsOverloads (offered l program.imports []) s ∧ NoFalseDuplicates (considered l program)) ↔
      WordsSeparate (considered l program) := by
  have hseparate := noFalseDuplicates_iff (wellFormed_considered hl)
  constructor
  · rintro ⟨-, hdistinct⟩
    exact hseparate.1 hdistinct
  · intro hwords
    refine ⟨fun σ hσ => ?_, hseparate.2 hwords⟩
    obtain ⟨-, hbrought, hlisted⟩ := brings_processUses hl.functionList hl.modules h
    obtain ⟨id, hid, hkey⟩ := hbrought σ hσ
    have hσ' : σ ∈ considered l program := mem_append_right _ hσ
    have hid' : (s.functions id).signature ∈ considered l program :=
      hlisted _ (mem_map_of_mem hid)
    obtain ⟨hname, hparameters, hvar, hconstraints⟩ :=
      (functionSignatureKey_eq_iff (wellFormed_considered hl _ hid')
        (wellFormed_considered hl σ hσ')).1 hkey
    exact ⟨id, hid, hname, hwords _ hid' σ hσ' hname hvar hconstraints hparameters, hvar⟩

def moduleOf (ids : List NodeId) : ProgramNode := ⟨ids, [], [], [], [], [], [], []⟩

/-- The modules `a` and `b` declare one function each. -/
def twoModules (σ τ : Signature) : Loader :=
  ⟨fun id => if id = 0 then ⟨σ, true, ['a'], ['a']⟩ else ⟨τ, true, ['b'], ['b']⟩, 2,
    fun _ => ⟨[], false, [], []⟩, 0, [(['a'], moduleOf [0]), (['b'], moduleOf [1])]⟩

/-- `use a::*; use b::*;` -/
def usesBoth : ProgramNode :=
  { moduleOf [] with imports := [⟨['a'], [], [], true, false⟩, ⟨['b'], [], [], true, false⟩] }

def overload (t : Mangling.TypeNode) : Signature := ⟨['f'], [t], false, []⟩

theorem wellFormed_twoModules {τ : Signature} (hσ : σ.WellFormed) (hτ : τ.WellFormed) :
    WellFormed (twoModules σ τ) usesBoth where
  modules := by
    intro moduleName m hget id hid
    have hmem := mem_of_getModule hget
    simp only [twoModules, mem_cons, Prod.mk.injEq, not_mem_nil, or_false] at hmem
    rcases hmem with ⟨-, rfl⟩ | ⟨-, rfl⟩
    · obtain rfl := mem_singleton.1 hid
      exact Nat.zero_lt_two
    · obtain rfl := mem_singleton.1 hid
      exact Nat.one_lt_two
  functionList := fun _ hid => nomatch hid
  signatures := by
    intro id _
    simp only [twoModules]
    split
    · exact hσ
    · exact hτ
  aliasNames := by decide

theorem considered_twoModules (σ τ : Signature) : considered (twoModules σ τ) usesBoth = [σ, τ] := rfl

theorem wellFormed_overload {t : Mangling.TypeNode} (ht : TypeText.WellFormed t) :
    (overload t).WellFormed :=
  ⟨by simp [overload], by simpa [overload] using ht⟩

/-- With `f` on `i32` in one module and on `i64` in the other, both are there afterwards. -/
theorem widths_loseNoOverload :
    ∃ s, processUseDeclarations false usesBoth []
        (twoModules (overload (.scalar .i32)) (overload (.scalar .i64))) = .ok s ∧
      KeepsOverloads (offered (twoModules (overload (.scalar .i32)) (overload (.scalar .i64)))
        usesBoth.imports []) s ∧
      NoFalseDuplicates
        (considered (twoModules (overload (.scalar .i32)) (overload (.scalar .i64))) usesBoth) := by
  have hwell : WellFormed (twoModules (overload (.scalar .i32)) (overload (.scalar .i64))) usesBoth :=
    wellFormed_twoModules (wellFormed_overload (t := .scalar .i32) trivial)
      (wellFormed_overload (t := .scalar .i64) trivial)
  have hrun : ∃ s, processUseDeclarations false usesBoth []
      (twoModules (overload (.scalar .i32)) (overload (.scalar .i64))) = .ok s := ⟨_, rfl⟩
  obtain ⟨s, hs⟩ := hrun
  refine ⟨s, hs, (losesNoOverload_iff_wordsSeparate hwell hs).2 ?_⟩
  intro σ hσ τ hτ _ _ _ hwords
  rw [considered_twoModules, mem_pair] at hσ hτ
  rcases hσ with rfl | rfl
  · rcases hτ with rfl | rfl
    · rfl
    · exact absurd hwords (by decide)
  · rcases hτ with rfl | rfl
    · exact absurd hwords (by decide)
    · rfl

/-- A `bit` and a trait object are both `unknown` in a key, so that one of two overloads is lost. -/
theorem bitAndTraitObject_loseOverload :
    WellFormed (twoModules (overload (.scalar .bit)) (overload (.traitObject ['S']))) usesBoth ∧
      ∃ s, processUseDeclarations false usesBoth []
          (twoModules (overload (.scalar .bit)) (overload (.traitObject ['S']))) = .ok s ∧
        ¬KeepsOverloads (offered (twoModules (overload (.scalar .bit))
          (overload (.traitObject ['S']))) usesBoth.imports []) s := by
  have hpath : TypeText.IsPath ['S'] := ⟨by decide, by decide, by decide⟩
  refine ⟨wellFormed_twoModules (wellFormed_overload (t := .scalar .bit) trivial)
    (wellFormed_overload (t := .traitObject ['S']) hpath), _, rfl, ?_⟩
  intro hkeeps
  obtain ⟨id, hid, -, hparameters, -⟩ :=
    hkeeps (overload (.traitObject ['S'])) (mem_cons_of_mem _ mem_cons_self)
  have hlisted : id ∈ [0] := hid
  obtain rfl := mem_singleton.1 hlisted
  have hsame : [Mangling.TypeNode.scalar .bit] = [.traitObject ['S']] := hparameters
  cases hsame

end Mlang.Imports
