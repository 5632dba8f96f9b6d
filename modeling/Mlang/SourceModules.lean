import Mlang.ModuleLoader

namespace Mlang.SourceModules

open Mangling (Name)
open SignatureKeys (Signature)
open ModuleLoader Importer List
open Function (update_of_ne update_self)

variable {l l' : Loader} {moduleName : Name} {id : NodeId}

structure Tagged (l : Loader) : Prop where
  functions : ∀ id, (l.functions id).sourceModule = (l.functions id).declaredIn
  definitions : ∀ id, (l.definitions id).sourceModule = (l.definitions id).declaredIn

structure Grows (l l' : Loader) : Prop where
  nextFunction : l.nextFunction ≤ l'.nextFunction
  nextDefinition : l.nextDefinition ≤ l'.nextDefinition
  functions : ∀ id < l.nextFunction, (l'.functions id).declaredIn = (l.functions id).declaredIn
  definitions : ∀ id < l.nextDefinition, (l'.definitions id).declaredIn = (l.definitions id).declaredIn

theorem Grows.refl (l : Loader) : Grows l l :=
  ⟨le_rfl, le_rfl, fun _ _ => rfl, fun _ _ => rfl⟩

variable {l'' : Loader}

theorem Grows.trans (h : Grows l l') (h' : Grows l' l'') : Grows l l'' where
  nextFunction := h.nextFunction.trans h'.nextFunction
  nextDefinition := h.nextDefinition.trans h'.nextDefinition
  functions := fun id hid =>
    (h'.functions id (hid.trans_le h.nextFunction)).trans (h.functions id hid)
  definitions := fun id hid =>
    (h'.definitions id (hid.trans_le h.nextDefinition)).trans (h.definitions id hid)

structure Declared (l : Loader) (p : ProgramNode) : Prop where
  functions : ∀ id ∈ p.functionList, id < l.nextFunction ∧ (l.functions id).declaredIn ≠ []
  definitions : ∀ id ∈ p.structList ++ p.enumList,
    id < l.nextDefinition ∧ (l.definitions id).declaredIn ≠ []

theorem Declared.grows {p : ProgramNode} (h : Declared l p) (hgrows : Grows l l') : Declared l' p where
  functions := by
    intro id hid
    obtain ⟨hlt, hne⟩ := h.functions id hid
    exact ⟨hlt.trans_le hgrows.nextFunction, (hgrows.functions id hlt).symm ▸ hne⟩
  definitions := by
    intro id hid
    obtain ⟨hlt, hne⟩ := h.definitions id hid
    exact ⟨hlt.trans_le hgrows.nextDefinition, (hgrows.definitions id hlt).symm ▸ hne⟩

structure Invariant (l : Loader) : Prop where
  tagged : Tagged l
  declared : ∀ moduleName m, getModule l moduleName = some m → Declared l m

theorem tagFunction_of_tagged (hl : Tagged l) (hid : (l.functions id).declaredIn ≠ []) (moduleName : Name) :
    tagFunction moduleName id l = l := by
  rw [tagFunction, hl.functions id, if_neg hid]

theorem tagDefinition_of_tagged (hl : Tagged l) (hid : (l.definitions id).declaredIn ≠ [])
    (moduleName : Name) : tagDefinition moduleName id l = l := by
  rw [tagDefinition, hl.definitions id, if_neg hid]

theorem tagStruct_of_tagged (hl : Tagged l) (hid : (l.definitions id).declaredIn = moduleName) :
    tagStruct moduleName id l = l := by
  have hsame : { l.definitions id with sourceModule := moduleName } = l.definitions id := by
    rw [← hid, ← hl.definitions id]
  rw [tagStruct, hsame, Function.update_eq_self]

variable {skip : Bool} {s' : Importer} {useDecls : List UseDeclNode} {currentModuleName aliasName : Name}
  {m : ProgramNode} {useDecl : UseDeclNode}

structure Keeps (s s' : Importer) : Prop where
  grows : Grows s.toLoader s'.toLoader
  tagged : Tagged s'.toLoader
  modules : s'.modules = s.modules
  declared : Declared s.toLoader s.program → Declared s'.toLoader s'.program

theorem Keeps.trans {s s'' : Importer} (h : Keeps s s') (h' : Keeps s' s'') : Keeps s s'' where
  grows := h.grows.trans h'.grows
  tagged := h'.tagged
  modules := h'.modules.trans h.modules
  declared := fun hs => h'.declared (h.declared hs)

theorem Keeps.invariant {s : Importer} (h : Keeps s s') (hs : Invariant s.toLoader) :
    Invariant s'.toLoader where
  tagged := h.tagged
  declared := by
    intro moduleName m hget
    rw [getModule, h.modules] at hget
    exact (hs.declared moduleName m hget).grows h.grows

theorem keeps_of_program {s : Importer} (hs : Tagged s.toLoader) (hloader : s'.toLoader = s.toLoader)
    (hfunctions : ∀ id ∈ s'.program.functionList, id ∈ s.program.functionList ∨ id < s.nextFunction ∧
      (s.functions id).declaredIn ≠ [])
    (hdefinitions : ∀ id ∈ s'.program.structList ++ s'.program.enumList, id ∈ s.program.structList ++
      s.program.enumList ∨ id < s.nextDefinition ∧ (s.definitions id).declaredIn ≠ [])
    : Keeps s s' where
  grows := hloader ▸ Grows.refl _
  tagged := hloader ▸ hs
  modules := congrArg Loader.modules hloader
  declared := by
    intro hdeclared
    rw [hloader]
    constructor
    · intro id hid
      rcases hfunctions id hid with hid | hid
      · exact hdeclared.functions id hid
      · exact hid
    · intro id hid
      rcases hdefinitions id hid with hid | hid
      · exact hdeclared.definitions id hid
      · exact hid

theorem keeps_refl {s : Importer} (hs : Tagged s.toLoader) : Keeps s s :=
  keeps_of_program hs rfl (fun _ hid => .inl hid) (fun _ hid => .inl hid)

theorem keeps_each {f : NodeId → Importer → Importer} {ids : List NodeId} {s : Importer}
    (hs : Invariant s.toLoader)
    (hf : ∀ s' : Importer, Keeps s s' → ∀ id ∈ ids, Keeps s' (f id s')) : Keeps s (each f ids s) := by
  induction ids generalizing s with
  | nil => exact keeps_refl hs.tagged
  | cons id ids ih =>
    have hstep := hf s (keeps_refl hs.tagged) id mem_cons_self
    exact hstep.trans (ih (hstep.invariant hs) fun s' hs' id' hid' =>
      hf s' (hstep.trans hs') id' (mem_cons_of_mem _ hid'))

theorem keeps_copyFunction {s : Importer} (hs : Tagged s.toLoader) (moduleName name : Name)
    (hid : (s.functions id).declaredIn ≠ []) :
    Keeps s { s with toLoader := copyFunction moduleName name id s.toLoader } ∧
      s.nextFunction < (copyFunction moduleName name id s.toLoader).nextFunction ∧
      ((copyFunction moduleName name id s.toLoader).functions s.nextFunction).declaredIn ≠ [] := by
  have hcopy : copyFunction moduleName name id s.toLoader =
      { s.toLoader with
        functions := Function.update s.functions s.nextFunction
          { s.functions id with signature := { (s.functions id).signature with name := name } }
        nextFunction := s.nextFunction + 1 } := by
    rw [copyFunction, tagFunction]
    simp only [update_self, hs.functions id, if_neg hid]
  rw [hcopy]
  refine ⟨⟨⟨Nat.le_succ _, le_rfl, ?_, fun _ _ => rfl⟩, ⟨?_, hs.definitions⟩, rfl, ?_⟩,
    Nat.lt_succ_self _, ?_⟩
  · intro id' hid'
    simp only [update_of_ne hid'.ne]
  · intro id'
    by_cases heq : id' = s.nextFunction
    · subst heq
      simpa only [update_self] using hs.functions id
    · simpa only [update_of_ne heq] using hs.functions id'
  · intro hdeclared
    refine ⟨fun id' hid' => ?_, hdeclared.definitions⟩
    obtain ⟨hlt, hne⟩ := hdeclared.functions id' hid'
    refine ⟨hlt.trans (Nat.lt_succ_self _), ?_⟩
    simpa only [update_of_ne hlt.ne] using hne
  · simpa only [update_self] using hid

theorem keeps_addFunctionAlias {s : Importer} (hs : Tagged s.toLoader) (moduleName name : Name)
    (hid : (s.functions id).declaredIn ≠ []) : Keeps s (addFunctionAlias moduleName name id s) := by
  obtain ⟨hcopy, hlt, hne⟩ := keeps_copyFunction hs moduleName name hid
  unfold addFunctionAlias
  cases hfind : findDuplicate { s with toLoader := copyFunction moduleName name id s.toLoader }
      s.nextFunction with
  | some existing =>
    simp only [hfind]
    exact hcopy
  | none =>
    simp only [hfind]
    refine hcopy.trans (keeps_of_program hcopy.tagged rfl ?_ (fun _ hid => .inl hid))
    intro id' hid'
    rcases mem_append.1 hid' with hid' | hid'
    · exact .inl hid'
    · obtain rfl := mem_singleton.1 hid'
      exact .inr ⟨hlt, hne⟩

theorem keeps_addConceptAlias {s : Importer} (hs : Tagged s.toLoader) (name : Name) (id : NodeId) :
    Keeps s (addConceptAlias name id s) := by
  refine ⟨⟨le_rfl, Nat.le_succ _, fun _ _ => rfl, ?_⟩, ⟨hs.functions, ?_⟩, rfl, ?_⟩
  · intro id' hid'
    simp only [addConceptAlias, addConcept, update_of_ne hid'.ne]
  · intro id'
    simp only [addConceptAlias, addConcept]
    by_cases heq : id' = s.nextDefinition
    · subst heq
      simpa only [update_self] using hs.definitions id
    · simpa only [update_of_ne heq] using hs.definitions id'
  · intro hdeclared
    refine ⟨hdeclared.functions, fun id' hid' => ?_⟩
    obtain ⟨hlt, hne⟩ := hdeclared.definitions id' hid'
    refine ⟨hlt.trans (Nat.lt_succ_self _), ?_⟩
    simpa only [addConceptAlias, addConcept, update_of_ne hlt.ne] using hne

theorem keeps_bindModuleAlias {s : Importer} (hs : Invariant s.toLoader)
    (h : bindModuleAlias moduleName aliasName s = .ok s') : Keeps s s' := by
  unfold bindModuleAlias at h
  cases hget : getModule s.toLoader moduleName with
  | none =>
    rw [hget] at h
    cases h
  | some m =>
    have hdeclared := hs.declared moduleName m hget
    rw [hget] at h
    cases h
    have halias : Keeps s { s with moduleAliases := (aliasName, moduleName) :: s.moduleAliases } :=
      keeps_of_program hs.tagged rfl (fun _ hid => .inl hid) (fun _ hid => .inl hid)
    refine halias.trans ?_
    have hfunctions := @keeps_each (fun id s =>
        if (s.functions id).signature.name = [] then s
        else addFunctionAlias moduleName (qualified aliasName (s.functions id).signature.name) id s)
      m.functionList _ (halias.invariant hs) fun s' hs' id hid => by
        split
        · exact keeps_refl hs'.tagged
        · exact keeps_addFunctionAlias hs'.tagged _ _
            ((hdeclared.grows (halias.trans hs').grows).functions id hid).2
    refine hfunctions.trans (keeps_each ((halias.trans hfunctions).invariant hs) ?_)
    intro s' hs' id _
    split
    · exact keeps_refl hs'.tagged
    · exact keeps_addConceptAlias hs'.tagged _ _

theorem keeps_importFunction {s : Importer} (hs : Tagged s.toLoader) (hlt : id < s.nextFunction)
    (hid : (s.functions id).declaredIn ≠ []) (h : importFunction moduleName id s = .ok s') : Keeps s s' := by
  unfold importFunction at h
  rw [tagFunction_of_tagged hs hid] at h
  have hmem : ∀ ids : List NodeId, (∀ id' ∈ ids, id' ∈ s.program.functionList ∨ id' = id) →
      Keeps s (s.setFunctions ids) := by
    intro ids hids
    refine keeps_of_program hs rfl (fun id' hid' => ?_) (fun _ hid => .inl hid)
    rcases hids id' hid' with hid' | rfl
    · exact .inl hid'
    · exact .inr ⟨hlt, hid⟩
  cases hfind : findDuplicate s id with
  | none =>
    simp only [hfind] at h
    cases h
    refine hmem _ fun id' hid' => ?_
    simpa only [mem_append, mem_singleton] using hid'
  | some existing =>
    simp only [hfind] at h
    split at h
    · cases h
    · split at h
      · cases h
        obtain ⟨before, after, hlist, hreplaced⟩ := replace_of_mem (mem_of_find?_eq_some hfind) id
        refine hmem _ fun id' hid' => ?_
        rw [hreplaced] at hid'
        rw [hlist]
        simp only [mem_append, mem_cons] at hid' ⊢
        tauto
      · cases h
        exact keeps_refl hs

theorem keeps_importFunctions {ids : List NodeId} {s : Importer} (hs : Tagged s.toLoader)
    (hids : ∀ id ∈ ids, id < s.nextFunction ∧ (s.functions id).declaredIn ≠ [])
    (h : importFunctions moduleName ids s = .ok s') : Keeps s s' := by
  induction ids generalizing s with
  | nil =>
    cases h
    exact keeps_refl hs
  | cons id ids ih =>
    rw [importFunctions] at h
    obtain ⟨hlt, hne⟩ := hids id mem_cons_self
    cases himport : importFunction moduleName id s with
    | error e =>
      rw [himport] at h
      cases h
    | ok s₁ =>
      rw [himport] at h
      have hstep := keeps_importFunction hs hlt hne himport
      refine hstep.trans (ih hstep.tagged (fun id' hid' => ?_) h)
      obtain ⟨hlt', hne'⟩ := hids id' (mem_cons_of_mem _ hid')
      exact ⟨hlt'.trans_le hstep.grows.nextFunction, (hstep.grows.functions id' hlt').symm ▸ hne'⟩

theorem keeps_importStruct {s : Importer} (hs : Tagged s.toLoader) (hlt : id < s.nextDefinition)
    (hne : (s.definitions id).declaredIn ≠ []) (hid : (s.definitions id).declaredIn = moduleName) :
    Keeps s (importStruct moduleName id s) := by
  unfold importStruct
  rw [tagStruct_of_tagged hs hid]
  dsimp only
  split
  · exact keeps_refl hs
  · refine keeps_of_program hs rfl (fun _ hid => .inl hid) (fun id' hid' => ?_)
    simp only [mem_append, mem_singleton] at hid' ⊢
    rcases hid' with (hid' | rfl) | hid'
    · exact .inl (.inl hid')
    · exact .inr ⟨hlt, hne⟩
    · exact .inl (.inr hid')

theorem keeps_importEnum {s : Importer} (hs : Tagged s.toLoader) (moduleName : Name)
    (hlt : id < s.nextDefinition) (hid : (s.definitions id).declaredIn ≠ []) :
    Keeps s (importEnum moduleName id s) := by
  unfold importEnum
  rw [tagDefinition_of_tagged hs hid]
  dsimp only
  split
  · exact keeps_refl hs
  · refine keeps_of_program hs rfl (fun _ hid => .inl hid) (fun id' hid' => ?_)
    simp only [mem_append, mem_singleton] at hid' ⊢
    rcases hid' with hid' | hid' | rfl
    · exact .inl (.inl hid')
    · exact .inl (.inr hid')
    · exact .inr ⟨hlt, hid⟩

theorem keeps_importTypeAliases {s : Importer} (hs : Tagged s.toLoader) (aliases : List Name) :
    Keeps s (importTypeAliases aliases s) :=
  keeps_of_program hs rfl (fun _ hid => .inl hid) (fun _ hid => .inl hid)

theorem keeps_importConcept {s : Importer} (hs : Tagged s.toLoader) (id : NodeId) :
    Keeps s (importConcept id s) := by
  unfold importConcept
  split
  · exact keeps_refl hs
  · exact keeps_of_program hs rfl (fun _ hid => .inl hid) (fun _ hid => .inl hid)

theorem keeps_importTrait {s : Importer} (hs : Tagged s.toLoader) (id : NodeId) :
    Keeps s (importTrait id s) := by
  unfold importTrait
  split
  · exact keeps_refl hs
  · exact keeps_of_program hs rfl (fun _ hid => .inl hid) (fun _ hid => .inl hid)

theorem keeps_importModule {s : Importer} (hs : Invariant s.toLoader) (hm : Declared s.toLoader m)
    (hstructs : ∀ id ∈ m.structList, (s.definitions id).declaredIn = moduleName)
    (h : importModule moduleName m s = .ok s') : Keeps s s' := by
  rw [importModule] at h
  cases hfunctions : importFunctions moduleName m.functionList s with
  | error e =>
    rw [hfunctions] at h
    cases h
  | ok s₁ =>
    rw [hfunctions] at h
    cases h
    have h₁ := keeps_importFunctions hs.tagged hm.functions hfunctions
    have h₂ := h₁.trans (@keeps_each (importStruct moduleName) m.structList _
      (h₁.invariant hs) fun s' hs' id hid => by
        have hmem := mem_append_left m.enumList hid
        obtain ⟨hlt, hne⟩ := (hm.grows (h₁.trans hs').grows).definitions id hmem
        have hsame := (h₁.trans hs').grows.definitions id (hm.definitions id hmem).1
        exact keeps_importStruct hs'.tagged hlt hne (hsame.trans (hstructs id hid)))
    have h₃ := h₂.trans (@keeps_each (importEnum moduleName) m.enumList _
      (h₂.invariant hs) fun s' hs' id hid => by
        obtain ⟨hlt, hne⟩ := (hm.grows (h₂.trans hs').grows).definitions id
          (mem_append_right m.structList hid)
        exact keeps_importEnum hs'.tagged moduleName hlt hne)
    have h₄ := h₃.trans (keeps_importTypeAliases h₃.tagged m.typeAliases)
    have h₅ := h₄.trans (@keeps_each importConcept m.conceptDefs _
      (h₄.invariant hs) fun s' hs' id _ => keeps_importConcept hs'.tagged id)
    have h₆ := h₅.trans (@keeps_each importTrait m.traitDefs _
      (h₅.invariant hs) fun s' hs' id _ => keeps_importTrait hs'.tagged id)
    exact h₆.trans (keeps_of_program h₆.tagged rfl (fun _ hid => .inl hid) (fun _ hid => .inl hid))

theorem keeps_bindItemAlias {s : Importer} {itemName : Name} (hs : Invariant s.toLoader)
    (hm : Declared s.toLoader m) (h : bindItemAlias moduleName itemName aliasName m s = .ok s') :
    Keeps s s' := by
  have hconcepts := @keeps_each (addConceptAlias aliasName)
    ((m.conceptDefs.filter (fun id => (s.definitions id).name = itemName)).take 1) _ hs fun s' hs' id _ => keeps_addConceptAlias hs'.tagged aliasName id
  have hfunctions := hconcepts.trans (@keeps_each (addFunctionAlias moduleName aliasName)
    (m.functionList.filter (fun id => (s.functions id).signature.name = itemName)) _
    (hconcepts.invariant hs) fun s' hs' id hid => keeps_addFunctionAlias hs'.tagged _ _
      ((hm.grows (hconcepts.trans hs').grows).functions id (mem_of_mem_filter hid)).2)
  simp only [bindItemAlias] at h
  split at h
  · cases h
    exact hfunctions
  · split at h
    · cases h
      refine hfunctions.trans ?_
      unfold addTypeAlias
      split
      · exact keeps_refl hfunctions.tagged
      · exact keeps_of_program hfunctions.tagged rfl (fun _ hid => .inl hid) (fun _ hid => .inl hid)
    · cases h

theorem keeps_importUse {s : Importer} (hs : Invariant s.toLoader)
    (h : importUse true currentModuleName useDecl skip moduleName s = .ok s') : Keeps s s' := by
  unfold importUse at h
  cases hget : getModule s.toLoader moduleName with
  | none =>
    rw [hget] at h
    cases h
  | some m =>
    have hm := hs.declared moduleName m hget
    simp only [hget, Bool.true_and] at h
    split at h
    · cases h
    · rename_i hforeign
      have hstructs : ∀ id ∈ m.structList, (s.definitions id).declaredIn = moduleName := by
        simpa using hforeign
      cases himport : importModule moduleName m s with
      | error e => simp only [himport, reduceCtorEq] at h
      | ok s₁ =>
        have h₁ := keeps_importModule hs hm hstructs himport
        simp only [himport] at h
        split at h
        · cases h
          exact h₁
        · split at h
          · cases h
          · split at h
            · cases h
              exact h₁
            · exact h₁.trans (keeps_bindItemAlias (h₁.invariant hs) (hm.grows h₁.grows) h)

theorem keeps_processUse {s : Importer} (hs : Invariant s.toLoader)
    (h : processUse true currentModuleName useDecl s = .ok s') : Keeps s s' := by
  have hbound : ∀ {moduleName : Name} {s₁ : Importer},
      bindModuleAlias moduleName useDecl.aliasName s = .ok s₁ →
      importUse true currentModuleName useDecl true moduleName s₁ = .ok s' → Keeps s s' := by
    intro moduleName s₁ hbind himport
    have h₁ := keeps_bindModuleAlias hs hbind
    exact h₁.trans (keeps_importUse (h₁.invariant hs) himport)
  simp only [processUse] at h
  split at h
  · split at h
    · cases h
    · exact hbound (by assumption) h
  · split at h
    · split at h
      · cases h
      · exact hbound (by assumption) h
    · exact keeps_importUse hs h

theorem keeps_processUses {s : Importer} (hs : Invariant s.toLoader)
    (h : processUses true currentModuleName useDecls s = .ok s') : Keeps s s' := by
  induction useDecls generalizing s with
  | nil =>
    cases h
    exact keeps_refl hs.tagged
  | cons useDecl useDecls ih =>
    rw [processUses] at h
    cases huse : processUse true currentModuleName useDecl s with
    | error e =>
      rw [huse] at h
      cases h
    | ok s₁ =>
      rw [huse] at h
      have hstep := keeps_processUse hs huse
      exact hstep.trans (ih (hstep.invariant hs) h)

variable {tag : NodeId → Loader → Loader} {β α : Type}
variable {f : Loader → β} {add : α → Loader → NodeId × Loader}

section Parsing

def functionTags (l : Loader) (id : NodeId) : Name × Name :=
  ((l.functions id).sourceModule, (l.functions id).declaredIn)

def definitionTags (l : Loader) (id : NodeId) : Name × Name :=
  ((l.definitions id).sourceModule, (l.definitions id).declaredIn)

theorem tagged_iff (l : Loader) :
    Tagged l ↔ (∀ id, (functionTags l id).1 = (functionTags l id).2) ∧
      ∀ id, (definitionTags l id).1 = (definitionTags l id).2 :=
  ⟨fun h => ⟨h.functions, h.definitions⟩, fun h => ⟨h.1, h.2⟩⟩

theorem addNodes_keeps (hadd : ∀ a l, f (add a l).2 = f l) (as : List α) (l : Loader) :
    f (addNodes add as l).2 = f l := by
  induction as generalizing l with
  | nil => rfl
  | cons a as ih => exact (ih _).trans (hadd a l)

theorem tagEach_keeps (htag : ∀ id l, f (tag id l) = f l) (ids : List NodeId) (l : Loader) :
    f (tagEach tag ids l) = f l := by
  induction ids generalizing l with
  | nil => rfl
  | cons id ids ih => exact (ih _).trans (htag id l)

structure Adds (next : Loader → NodeId) (tags : Loader → NodeId → Name × Name) (moduleName : Name)
    (ids : List NodeId) (l l' : Loader) : Prop where
  le : next l ≤ next l'
  range : ∀ id ∈ ids, next l ≤ id ∧ id < next l'
  written : ∀ id, tags l' id = if id ∈ ids then ([], moduleName) else tags l id

variable {next : Loader → NodeId} {tags : Loader → NodeId → Name × Name}

theorem adds_nil (hnext : next l' = next l) (htags : tags l' = tags l) : Adds next tags moduleName [] l l' :=
  ⟨hnext.ge, (fun _ hid => nomatch hid), fun _ => congrFun htags _⟩

theorem Adds.trans {ids ids' : List NodeId} (h : Adds next tags moduleName ids l l')
    (h' : Adds next tags moduleName ids' l' l'') : Adds next tags moduleName (ids ++ ids') l l'' where
  le := h.le.trans h'.le
  range := by
    intro id hid
    rcases mem_append.1 hid with hid | hid
    · exact ⟨(h.range id hid).1, (h.range id hid).2.trans_le h'.le⟩
    · exact ⟨h.le.trans (h'.range id hid).1, (h'.range id hid).2⟩
  written := by
    intro id
    rw [h'.written, h.written]
    by_cases hid : id ∈ ids' <;> simp [hid]

theorem adds_addNodes (hadd : ∀ a l, Adds next tags moduleName [(add a l).1] l (add a l).2)
    (as : List α) (l : Loader) :
    Adds next tags moduleName (addNodes add as l).1 l (addNodes add as l).2 := by
  induction as generalizing l with
  | nil => exact adds_nil rfl rfl
  | cons a as ih => exact (hadd a l).trans (ih (add a l).2)

theorem tagEach_tags (htag : ∀ id l id', tags (tag id l) id' =
      if id' = id ∧ (tags l id').1 = [] then (moduleName, (tags l id').2) else tags l id')
    (ids : List NodeId) (l : Loader) (id' : NodeId) :
    tags (tagEach tag ids l) id' =
      if id' ∈ ids ∧ (tags l id').1 = [] then (moduleName, (tags l id').2) else tags l id' := by
  induction ids generalizing l with
  | nil => simp [tagEach]
  | cons id ids ih =>
    rw [tagEach, ih, htag]
    by_cases hempty : (tags l id').1 = []
    · by_cases hid : id' = id
      · subst hid
        by_cases hmodule : moduleName = [] <;> simp [hempty, hmodule]
      · simp [hempty, hid]
    · simp [hempty]

variable (moduleName : Name) (file : ParsedFile) (l : Loader)

def declaredDefinitions : List NodeId :=
  (parseFile moduleName file l).1.structList ++ (parseFile moduleName file l).1.enumList ++
    (parseFile moduleName file l).1.traitDefs ++ (parseFile moduleName file l).1.conceptDefs

abbrev AddsFunctions := Adds Loader.nextFunction functionTags

abbrev AddsDefinitions := Adds Loader.nextDefinition definitionTags

theorem adds_addFunction (fs : List (Signature × Bool)) :
    AddsFunctions moduleName (addNodes (addFunction moduleName) fs l).1 l
      (addNodes (addFunction moduleName) fs l).2 := by
  refine adds_addNodes (fun f l => ⟨Nat.le_succ _, ?_, fun id => ?_⟩) fs l
  · intro id hid
    obtain rfl := mem_singleton.1 hid
    exact ⟨le_rfl, Nat.lt_succ_self _⟩
  · by_cases hid : id = l.nextFunction
    · subst hid
      simp [functionTags, addFunction]
    · simp [functionTags, addFunction, hid]

theorem adds_addDefinition (ds : List (Name × Bool)) :
    AddsDefinitions moduleName (addNodes (addDefinition moduleName) ds l).1 l
      (addNodes (addDefinition moduleName) ds l).2 := by
  refine adds_addNodes (fun d l => ⟨Nat.le_succ _, ?_, fun id => ?_⟩) ds l
  · intro id hid
    obtain rfl := mem_singleton.1 hid
    exact ⟨le_rfl, Nat.lt_succ_self _⟩
  · by_cases hid : id = l.nextDefinition
    · subst hid
      simp [definitionTags, addDefinition]
    · simp [definitionTags, addDefinition, hid]

theorem adds_parseFile_functions :
    AddsFunctions moduleName (parseFile moduleName file l).1.functionList l
      (parseFile moduleName file l).2 := by
  have hdefinitions : ∀ (ds : List (Name × Bool)) (l : Loader),
      AddsFunctions moduleName [] l (addNodes (addDefinition moduleName) ds l).2 := fun ds l =>
    adds_nil (addNodes_keeps (fun _ _ => rfl) ds l) (addNodes_keeps (fun _ _ => rfl) ds l)
  have hall := ((((adds_addFunction moduleName l file.functions).trans
    (hdefinitions file.structs _)).trans (hdefinitions file.enums _)).trans
    (hdefinitions file.traits _)).trans (hdefinitions file.concepts _)
  simp only [append_nil] at hall
  exact hall

theorem adds_parseFile_definitions :
    AddsDefinitions moduleName (declaredDefinitions moduleName file l) l
      (parseFile moduleName file l).2 := by
  have hfunctions : AddsDefinitions moduleName [] l
      (addNodes (addFunction moduleName) file.functions l).2 :=
    adds_nil (addNodes_keeps (fun _ _ => rfl) _ l) (addNodes_keeps (fun _ _ => rfl) _ l)
  exact (((hfunctions.trans (adds_addDefinition moduleName _ file.structs)).trans
    (adds_addDefinition moduleName _ file.enums)).trans
    (adds_addDefinition moduleName _ file.traits)).trans
    (adds_addDefinition moduleName _ file.concepts)

theorem tagEach_append (tag : NodeId → Loader → Loader) (ids ids' : List NodeId) (l : Loader) :
    tagEach tag (ids ++ ids') l = tagEach tag ids' (tagEach tag ids l) := by
  induction ids generalizing l with
  | nil => rfl
  | cons id ids ih => exact ih (tag id l)

theorem tagFunction_keeps (id : NodeId) (l : Loader) :
    definitionTags (tagFunction moduleName id l) = definitionTags l ∧
      (tagFunction moduleName id l).nextFunction = l.nextFunction ∧
      (tagFunction moduleName id l).nextDefinition = l.nextDefinition ∧
      (tagFunction moduleName id l).modules = l.modules := by
  unfold tagFunction
  split <;> exact ⟨rfl, rfl, rfl, rfl⟩

theorem tagDefinition_keeps (id : NodeId) (l : Loader) :
    functionTags (tagDefinition moduleName id l) = functionTags l ∧
      (tagDefinition moduleName id l).nextFunction = l.nextFunction ∧
      (tagDefinition moduleName id l).nextDefinition = l.nextDefinition ∧
      (tagDefinition moduleName id l).modules = l.modules := by
  unfold tagDefinition
  split <;> exact ⟨rfl, rfl, rfl, rfl⟩

theorem tagFunction_tags (id : NodeId) (l : Loader) (id' : NodeId) :
    functionTags (tagFunction moduleName id l) id' =
      if id' = id ∧ (functionTags l id').1 = [] then (moduleName, (functionTags l id').2)
      else functionTags l id' := by
  by_cases hid : id' = id
  · subst hid
    by_cases hempty : (l.functions id').sourceModule = [] <;> simp [tagFunction, functionTags, hempty]
  · by_cases hempty : (l.functions id).sourceModule = [] <;>
      simp [tagFunction, functionTags, hempty, hid]

theorem tagDefinition_tags (id : NodeId) (l : Loader) (id' : NodeId) :
    definitionTags (tagDefinition moduleName id l) id' =
      if id' = id ∧ (definitionTags l id').1 = [] then (moduleName, (definitionTags l id').2)
      else definitionTags l id' := by
  by_cases hid : id' = id
  · subst hid
    by_cases hempty : (l.definitions id').sourceModule = [] <;>
      simp [tagDefinition, definitionTags, hempty]
  · by_cases hempty : (l.definitions id).sourceModule = [] <;>
      simp [tagDefinition, definitionTags, hempty, hid]

def readModule : Loader :=
  tagProgram moduleName (parseFile moduleName file l).1 (parseFile moduleName file l).2

theorem readModule_eq :
    readModule moduleName file l =
      tagEach (tagDefinition moduleName) (declaredDefinitions moduleName file l)
        (tagEach (tagFunction moduleName) (parseFile moduleName file l).1.functionList
          (parseFile moduleName file l).2) := by
  simp only [readModule, tagProgram, declaredDefinitions, tagEach_append]

theorem readModule_functionTags (id : NodeId) :
    functionTags (readModule moduleName file l) id =
      if id ∈ (parseFile moduleName file l).1.functionList then (moduleName, moduleName)
      else functionTags l id := by
  have hparsed := (adds_parseFile_functions moduleName file l).written id
  rw [readModule_eq, tagEach_keeps (fun id l => (tagDefinition_keeps moduleName id l).1),
    tagEach_tags (tagFunction_tags moduleName), hparsed]
  by_cases hid : id ∈ (parseFile moduleName file l).1.functionList <;> simp [hid]

theorem readModule_definitionTags (id : NodeId) :
    definitionTags (readModule moduleName file l) id =
      if id ∈ declaredDefinitions moduleName file l then (moduleName, moduleName)
      else definitionTags l id := by
  have hparsed := (adds_parseFile_definitions moduleName file l).written id
  rw [readModule_eq, tagEach_tags (tagDefinition_tags moduleName),
    tagEach_keeps (fun id l => (tagFunction_keeps moduleName id l).1), hparsed]
  by_cases hid : id ∈ declaredDefinitions moduleName file l <;> simp [hid]

theorem parseFile_modules : (parseFile moduleName file l).2.modules = l.modules := by
  have hdefinitions : ∀ (ds : List (Name × Bool)) (l : Loader),
      (addNodes (addDefinition moduleName) ds l).2.modules = l.modules :=
    fun ds l => addNodes_keeps (fun _ _ => rfl) ds l
  simp only [parseFile, hdefinitions]
  exact addNodes_keeps (fun _ _ => rfl) _ l

theorem readModule_keeps :
    (readModule moduleName file l).nextFunction = (parseFile moduleName file l).2.nextFunction ∧
      (readModule moduleName file l).nextDefinition = (parseFile moduleName file l).2.nextDefinition ∧
      (readModule moduleName file l).modules = l.modules := by
  rw [readModule_eq, ← parseFile_modules moduleName file l]
  refine ⟨?_, ?_, ?_⟩
  · rw [tagEach_keeps (f := Loader.nextFunction) (fun id l => (tagDefinition_keeps moduleName id l).2.1),
      tagEach_keeps (f := Loader.nextFunction) (fun id l => (tagFunction_keeps moduleName id l).2.1)]
  · rw [tagEach_keeps (f := Loader.nextDefinition)
        (fun id l => (tagDefinition_keeps moduleName id l).2.2.1),
      tagEach_keeps (f := Loader.nextDefinition)
        (fun id l => (tagFunction_keeps moduleName id l).2.2.1)]
  · rw [tagEach_keeps (f := Loader.modules) (fun id l => (tagDefinition_keeps moduleName id l).2.2.2),
      tagEach_keeps (f := Loader.modules) (fun id l => (tagFunction_keeps moduleName id l).2.2.2)]

theorem grows_readModule : Grows l (readModule moduleName file l) := by
  obtain ⟨hfunction, hdefinition, -⟩ := readModule_keeps moduleName file l
  have hfunctions := adds_parseFile_functions moduleName file l
  have hdefinitions := adds_parseFile_definitions moduleName file l
  refine ⟨hfunctions.le.trans_eq hfunction.symm, hdefinitions.le.trans_eq hdefinition.symm, ?_, ?_⟩
  · intro id hid
    have hnew : id ∉ (parseFile moduleName file l).1.functionList :=
      fun hmem => absurd (hfunctions.range id hmem).1 (Nat.not_le.2 hid)
    have htags := readModule_functionTags moduleName file l id
    rw [if_neg hnew] at htags
    exact congrArg Prod.snd htags
  · intro id hid
    have hnew : id ∉ declaredDefinitions moduleName file l :=
      fun hmem => absurd (hdefinitions.range id hmem).1 (Nat.not_le.2 hid)
    have htags := readModule_definitionTags moduleName file l id
    rw [if_neg hnew] at htags
    exact congrArg Prod.snd htags

theorem tagged_readModule (hl : Tagged l) : Tagged (readModule moduleName file l) := by
  rw [tagged_iff] at hl ⊢
  constructor
  · intro id
    rw [readModule_functionTags]
    split
    · rfl
    · exact hl.1 id
  · intro id
    rw [readModule_definitionTags]
    split
    · rfl
    · exact hl.2 id

theorem declared_readModule (hmodule : moduleName ≠ []) :
    Declared (readModule moduleName file l) (parseFile moduleName file l).1 := by
  obtain ⟨hfunction, hdefinition, -⟩ := readModule_keeps moduleName file l
  constructor
  · intro id hid
    have htags := readModule_functionTags moduleName file l id
    rw [if_pos hid] at htags
    refine ⟨((adds_parseFile_functions moduleName file l).range id hid).2.trans_eq hfunction.symm, ?_⟩
    rw [show ((readModule moduleName file l).functions id).declaredIn = moduleName from
      congrArg Prod.snd htags]
    exact hmodule
  · intro id hid
    have hmem : id ∈ declaredDefinitions moduleName file l :=
      mem_append_left _ (mem_append_left _ hid)
    have htags := readModule_definitionTags moduleName file l id
    rw [if_pos hmem] at htags
    refine ⟨((adds_parseFile_definitions moduleName file l).range id hmem).2.trans_eq
      hdefinition.symm, ?_⟩
    rw [show ((readModule moduleName file l).definitions id).declaredIn = moduleName from
      congrArg Prod.snd htags]
    exact hmodule

theorem invariant_readModule (hl : Invariant l) : Invariant (readModule moduleName file l) where
  tagged := tagged_readModule moduleName file l hl.tagged
  declared := by
    intro name m hget
    rw [getModule, (readModule_keeps moduleName file l).2.2] at hget
    exact (hl.declared name m hget).grows (grows_readModule moduleName file l)

end Parsing

variable {files : List (Name × ParsedFile)}
variable {load : Name → Loader → Except ModuleError Loader} {moduleNames : List Name} {s : Importer}

theorem processModDeclarations_keeps
    (hload : ∀ {moduleName l l'}, Invariant l → load moduleName l = .ok l' → Invariant l' ∧ Grows l l')
    (hl : Invariant l) (h : processModDeclarations load moduleNames l = .ok l') :
    Invariant l' ∧ Grows l l' := by
  induction moduleNames generalizing l with
  | nil =>
    cases h
    exact ⟨hl, Grows.refl _⟩
  | cons moduleName moduleNames ih =>
    rw [processModDeclarations] at h
    cases hone : load moduleName l with
    | error e =>
      rw [hone] at h
      cases h
    | ok l₁ =>
      rw [hone] at h
      obtain ⟨hinvariant, hgrows⟩ := hload hl hone
      obtain ⟨hinvariant', hgrows'⟩ := ih hinvariant h
      exact ⟨hinvariant', hgrows.trans hgrows'⟩

theorem invariant_store (hs : Invariant s.toLoader) (hp : Declared s.toLoader s.program) (moduleName : Name) :
    Invariant { s.toLoader with modules := (moduleName, s.program) :: s.modules } where
  tagged := ⟨hs.tagged.functions, hs.tagged.definitions⟩
  declared := by
    intro name m hget
    rw [getModule, lookup_cons] at hget
    split at hget
    · cases hget
      exact ⟨hp.functions, hp.definitions⟩
    · have hdeclared := hs.declared name m hget
      exact ⟨hdeclared.functions, hdeclared.definitions⟩

theorem loadModule_keeps (hfiles : ∀ name file, files.lookup name = some file → name ≠ []) (fuel : Nat)
    (loadingStack : List Name) (hl : Invariant l)
    (h : loadModule true files fuel loadingStack moduleName l = .ok l') : Invariant l' ∧ Grows l l' := by
  induction fuel generalizing loadingStack moduleName l l' with
  | zero =>
    unfold loadModule at h
    split at h
    · cases h
      exact ⟨hl, Grows.refl _⟩
    · split at h
      · cases h
      · split at h
        · cases h
        · cases h
        · rename_i hfuel
          cases hfuel
  | succ fuel ih =>
    unfold loadModule at h
    split at h
    · cases h
      exact ⟨hl, Grows.refl _⟩
    · split at h
      · cases h
      · cases hfile : files.lookup moduleName with
        | none => simp only [hfile, reduceCtorEq] at h
        | some file =>
          simp only [hfile] at h
          have hread := invariant_readModule moduleName file l hl
          have hreadGrows := grows_readModule moduleName file l
          have hdeclared := declared_readModule moduleName file l (hfiles _ _ hfile)
          cases hmods : processModDeclarations
              (loadModule true files fuel (moduleName :: loadingStack))
              (parseFile moduleName file l).1.modules (readModule moduleName file l) with
          | error e =>
            rw [readModule] at hmods
            simp only [hmods, reduceCtorEq] at h
          | ok l₁ =>
            obtain ⟨hinvariant, hgrows⟩ := processModDeclarations_keeps
              (fun hl h => ih (moduleName :: loadingStack) hl h) hread hmods
            rw [readModule] at hmods
            simp only [hmods] at h
            cases huses : processUseDeclarations true (parseFile moduleName file l).1
                moduleName l₁ with
            | error e => simp only [huses, reduceCtorEq] at h
            | ok s =>
              simp only [huses] at h
              cases h
              have hkeeps := keeps_processUses (s := ⟨l₁, _, [], []⟩) hinvariant huses
              refine ⟨invariant_store (hkeeps.invariant hinvariant)
                (hkeeps.declared (hdeclared.grows hgrows)) moduleName, ?_⟩
              have hall := (hreadGrows.trans hgrows).trans hkeeps.grows
              exact ⟨hall.nextFunction, hall.nextDefinition, hall.functions, hall.definitions⟩

theorem invariant_parseMain (main : ParsedFile) : Invariant (parseFile [] main emptyLoader).2 where
  tagged := by
    rw [tagged_iff]
    constructor
    · intro id
      rw [(adds_parseFile_functions [] main emptyLoader).written id]
      split <;> rfl
    · intro id
      rw [(adds_parseFile_definitions [] main emptyLoader).written id]
      split <;> rfl
  declared := by
    intro name m hget
    rw [getModule, parseFile_modules] at hget
    cases hget

theorem importUse_tracked (h : importUse true currentModuleName useDecl skip moduleName s = .ok s') :
    importUse false currentModuleName useDecl skip moduleName s = .ok s' := by
  unfold importUse at h ⊢
  split at h
  · cases h
  · rename_i m hget
    simp only [Bool.true_and] at h
    simp only [Bool.false_and, Bool.false_eq_true, if_false]
    split at h
    · cases h
    · exact h

theorem processUse_tracked (h : processUse true currentModuleName useDecl s = .ok s') :
    processUse false currentModuleName useDecl s = .ok s' := by
  simp only [processUse] at h ⊢
  split at h
  · rename_i halias
    rw [if_pos halias]
    split at h
    · cases h
    · exact importUse_tracked h
  · rename_i halias
    rw [if_neg halias]
    split at h
    · rename_i hcombined
      rw [if_pos hcombined]
      split at h
      · cases h
      · exact importUse_tracked h
    · rename_i hcombined
      rw [if_neg hcombined]
      exact importUse_tracked h

theorem processUses_tracked (h : processUses true currentModuleName useDecls s = .ok s') :
    processUses false currentModuleName useDecls s = .ok s' := by
  induction useDecls generalizing s with
  | nil => exact h
  | cons useDecl useDecls ih =>
    rw [processUses] at h ⊢
    cases huse : processUse true currentModuleName useDecl s with
    | error e =>
      rw [huse] at h
      cases h
    | ok s₁ =>
      rw [huse] at h
      rw [processUse_tracked huse]
      exact ih h

theorem processModDeclarations_tracked {load' : Name → Loader → Except ModuleError Loader}
    (hload : ∀ {moduleName l l'}, load moduleName l = .ok l' → load' moduleName l = .ok l')
    (h : processModDeclarations load moduleNames l = .ok l') :
    processModDeclarations load' moduleNames l = .ok l' := by
  induction moduleNames generalizing l with
  | nil => exact h
  | cons moduleName moduleNames ih =>
    rw [processModDeclarations] at h ⊢
    cases hone : load moduleName l with
    | error e =>
      rw [hone] at h
      cases h
    | ok l₁ =>
      rw [hone] at h
      rw [hload hone]
      exact ih h

theorem loadModule_tracked {fuel : Nat} {loadingStack : List Name}
    (h : loadModule true files fuel loadingStack moduleName l = .ok l') :
    loadModule false files fuel loadingStack moduleName l = .ok l' := by
  induction fuel generalizing loadingStack moduleName l l' with
  | zero =>
    unfold loadModule at h ⊢
    cases hfile : files.lookup moduleName <;> simpa only [hfile] using h
  | succ fuel ih =>
    unfold loadModule at h ⊢
    split at h
    · rename_i hloaded
      rwa [if_pos hloaded]
    · rename_i hloaded
      rw [if_neg hloaded]
      split at h
      · cases h
      · rename_i hstack
        rw [if_neg hstack]
        cases hfile : files.lookup moduleName with
        | none => simp only [hfile, reduceCtorEq] at h
        | some file =>
          simp only [hfile] at h ⊢
          cases hmods : processModDeclarations
              (loadModule true files fuel (moduleName :: loadingStack))
              (parseFile moduleName file l).1.modules
              (tagProgram moduleName (parseFile moduleName file l).1
                (parseFile moduleName file l).2) with
          | error e => simp only [hmods, reduceCtorEq] at h
          | ok l₁ =>
            simp only [hmods] at h
            simp only [processModDeclarations_tracked (fun h => ih h) hmods]
            cases huses : processUseDeclarations true (parseFile moduleName file l).1
                moduleName l₁ with
            | error e => simp only [huses, reduceCtorEq] at h
            | ok s =>
              simp only [huses] at h
              have huses' : processUseDeclarations false (parseFile moduleName file l).1
                  moduleName l₁ = .ok s := processUses_tracked huses
              simp only [huses', h]

/-- Where every module that is used has only structs of its own, a loaded program is the one the
loader makes without looking, and every node is tagged with the module whose file declares it. -/
theorem loadProgram_keepsSourceModules {main : ParsedFile} {s : Importer}
    (hfiles : ∀ name file, files.lookup name = some file → name ≠ [])
    (h : loadProgram true files main = .ok s) :
    loadProgram false files main = .ok s ∧
      (∀ id, (s.functions id).sourceModule = (s.functions id).declaredIn) ∧
      ∀ id, (s.definitions id).sourceModule = (s.definitions id).declaredIn := by
  have hmain := invariant_parseMain main
  unfold loadProgram at h ⊢
  dsimp only at h ⊢
  split at h
  · rename_i hmodules
    rw [if_pos hmodules]
    cases h
    exact ⟨rfl, hmain.tagged.functions, hmain.tagged.definitions⟩
  · rename_i hmodules
    rw [if_neg hmodules]
    split at h
    · cases h
    · rename_i l hload
      obtain ⟨hinvariant, -⟩ := processModDeclarations_keeps
        (fun hl h => loadModule_keeps hfiles _ _ hl h) hmain hload
      have hkeeps := keeps_processUses (s := ⟨l, _, [], []⟩) hinvariant h
      rw [processModDeclarations_tracked (fun h => loadModule_tracked h) hload]
      exact ⟨processUses_tracked h, hkeeps.tagged.functions, hkeeps.tagged.definitions⟩

def emptyFile : ParsedFile := ⟨[], [], [], [], [], [], [], []⟩

/-- `mod m; use m::*;` -/
def usingModule (moduleName : Name) (file : ParsedFile) : ParsedFile :=
  { file with modules := [moduleName], imports := [⟨moduleName, [], [], true, false⟩] }

/-- The module `f` imports all of the module `d`. -/
def facadeFiles (detail : ParsedFile) : List (Name × ParsedFile) :=
  [(['f'], usingModule ['d'] emptyFile), (['d'], detail)]

/-- A function that comes through a facade still belongs to the module behind it. -/
theorem facadeFunction_keepsSourceModule :
    ∃ s, loadProgram false (facadeFiles { emptyFile with functions := [(⟨['g'], [], false, []⟩, true)] })
        (usingModule ['f'] emptyFile) = .ok s ∧
      ∀ id, (s.functions id).sourceModule = (s.functions id).declaredIn := by
  have hrun : ∃ s, loadProgram true
      (facadeFiles { emptyFile with functions := [(⟨['g'], [], false, []⟩, true)] })
      (usingModule ['f'] emptyFile) = .ok s := ⟨_, rfl⟩
  obtain ⟨s, hs⟩ := hrun
  obtain ⟨hload, hfunctions, -⟩ := loadProgram_keepsSourceModules (fun name file hfile => by
    rintro rfl
    revert hfile
    simp [facadeFiles, lookup_cons]) hs
  exact ⟨s, hload, hfunctions⟩

/-- A struct that comes through a facade is tagged with the facade. -/
theorem facadeStruct_losesSourceModule :
    ∃ s, loadProgram false (facadeFiles { emptyFile with structs := [(['S'], true)] })
        (usingModule ['f'] emptyFile) = .ok s ∧
      (s.definitions 0).declaredIn = ['d'] ∧ (s.definitions 0).sourceModule = ['f'] :=
  ⟨_, rfl, rfl, rfl⟩

end Mlang.SourceModules
