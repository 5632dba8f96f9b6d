import Mlang.BuildCommands
import Mlang.SourceModules

namespace Mlang.ModuleLoading

open Mangling (Name)
open BracketedText (Text)
open BuildCommands (joinPath)
open ModuleLoader SourceModules List Option
open Relation (ReflTransGen TransGen)

/-- Where modules are looked for, and what is there. -/
structure Configuration where
  searchPaths : List Text
  files : List (Text × Option ParsedFile)

inductive LoadError
  | circularImport (moduleName : Name)
  | cannotFind (moduleName : Name)
  | failedToParse (moduleName : Name)
  | invalidUse (e : ModuleError)
  | outOfFuel
  deriving DecidableEq

structure LoaderState where
  loader : Loader
  loadingStack : Finset Name

abbrev Outcome := Except LoadError Unit × LoaderState

def LoaderState.push (s : LoaderState) (moduleName : Name) : LoaderState :=
  { s with loadingStack := insert moduleName s.loadingStack }

def LoaderState.pop (s : LoaderState) (moduleName : Name) : LoaderState :=
  { s with loadingStack := s.loadingStack.erase moduleName }

def relName : Name → Text
  | ':' :: ':' :: cs => '/' :: relName cs
  | c :: cs => c :: relName cs
  | [] => []

variable (c : Configuration)

def Configuration.exists (path : Text) : Bool := (c.files.lookup path).isSome

def Configuration.parse (path : Text) : Option ParsedFile := (c.files.lookup path).join

def resolveModulePath (moduleName : Name) : Option Text :=
  c.searchPaths.findSome? fun root =>
    let modulePath := joinPath root (relName moduleName ++ ".mla".toList)
    let dirModulePath := joinPath (joinPath root (relName moduleName)) "mod.mla".toList
    if c.exists modulePath then some modulePath
    else if c.exists dirModulePath then some dirModulePath
    else none

def processModDeclarations (load : Name → LoaderState → Outcome) : List Name → LoaderState → Outcome
  | [], s => (.ok (), s)
  | moduleName :: moduleNames, s =>
    match load moduleName s with
    | (.error e, s') => (.error e, s')
    | (.ok (), s') => processModDeclarations load moduleNames s'

/-- The use declarations of a module that is being loaded, and the module is stored. -/
def finish (moduleName : Name) (program : ProgramNode) (s : LoaderState) : Outcome :=
  match processUseDeclarations false program moduleName s.loader with
  | .error e => (.error (.invalidUse e), s.pop moduleName)
  | .ok imported =>
    (.ok (), LoaderState.pop ⟨{ imported.toLoader with
      modules := (moduleName, imported.program) :: imported.modules }, s.loadingStack⟩ moduleName)

def loadModule : Nat → Name → LoaderState → Outcome
  | fuel, moduleName, s =>
    if (getModule s.loader moduleName).isSome then (.ok (), s)
    else if moduleName ∈ s.loadingStack then (.error (.circularImport moduleName), s)
    else
      match resolveModulePath c moduleName with
      | none => (.error (.cannotFind moduleName), s)
      | some path =>
        match c.parse path, fuel with
        | none, _ => (.error (.failedToParse moduleName), (s.push moduleName).pop moduleName)
        | some _, 0 => (.error .outOfFuel, (s.push moduleName).pop moduleName)
        | some file, fuel + 1 =>
          let read := readModule moduleName file s.loader
          match processModDeclarations (loadModule fuel) file.modules
              ⟨read, (s.push moduleName).loadingStack⟩ with
          | (.error e, s') => (.error e, s'.pop moduleName)
          | (.ok (), s') => finish moduleName (parseFile moduleName file s.loader).1 s'

variable {moduleName : Name} {s s' : Importer}

theorem modules_each {f : NodeId → Importer → Importer} (hf : ∀ id s, (f id s).modules = s.modules)
    (ids : List NodeId) (s : Importer) : (Importer.each f ids s).modules = s.modules := by
  induction ids generalizing s with
  | nil => rfl
  | cons id ids ih => exact (ih (f id s)).trans (hf id s)

theorem modules_addFunctionAlias (moduleName name : Name) (id : NodeId) (s : Importer) :
    (Importer.addFunctionAlias moduleName name id s).modules = s.modules := by
  have hcopy : (Importer.copyFunction moduleName name id s.toLoader).modules = s.modules :=
    (tagFunction_keeps moduleName s.nextFunction _).2.2.2
  rw [Importer.addFunctionAlias]
  split <;> exact hcopy

variable {aliasName currentModuleName : Name} {m : ProgramNode} {useDecl : UseDeclNode}

theorem modules_bindModuleAlias (h : Importer.bindModuleAlias moduleName aliasName s = .ok s') :
    s'.modules = s.modules := by
  rw [Importer.bindModuleAlias] at h
  split at h
  · exact nomatch h
  · cases h
    refine (modules_each (fun id s => ?_) _ _).trans (modules_each (fun id s => ?_) _ _)
    · split <;> rfl
    · split
      · rfl
      · exact modules_addFunctionAlias _ _ _ _

theorem modules_importFunction {id : NodeId} (h : Importer.importFunction moduleName id s = .ok s') :
    s'.modules = s.modules := by
  have htag := (tagFunction_keeps moduleName id s.toLoader).2.2.2
  rw [Importer.importFunction] at h
  split at h
  · cases h
    exact htag
  · split at h
    · exact nomatch h
    · split at h <;> obtain rfl := Except.ok.inj h <;> exact htag

theorem modules_importFunctions {ids : List NodeId} (h : Importer.importFunctions moduleName ids s = .ok s') :
    s'.modules = s.modules := by
  induction ids generalizing s with
  | nil =>
    cases h
    rfl
  | cons id ids ih =>
    rw [Importer.importFunctions] at h
    split at h
    · cases h
    · rename_i himport
      exact (ih h).trans (modules_importFunction himport)

theorem modules_importEnum (moduleName : Name) (id : NodeId) (s : Importer) :
    (Importer.importEnum moduleName id s).modules = s.modules := by
  have htag := (tagDefinition_keeps moduleName id s.toLoader).2.2.2
  rw [Importer.importEnum]
  split <;> exact htag

theorem modules_importModule (h : Importer.importModule moduleName m s = .ok s') :
    s'.modules = s.modules := by
  rw [Importer.importModule] at h
  split at h
  · cases h
  · rename_i hfunctions
    cases h
    refine (modules_each (fun id s => ?_) _ _).trans ((modules_each (fun id s => ?_) _ _).trans
      ((modules_each (modules_importEnum moduleName) _ _).trans
        ((modules_each (fun id s => ?_) _ _).trans (modules_importFunctions hfunctions))))
    · rw [Importer.importTrait]
      split <;> rfl
    · rw [Importer.importConcept]
      split <;> rfl
    · rw [Importer.importStruct]
      split <;> rfl

theorem modules_bindItemAlias {itemName : Name}
    (h : Importer.bindItemAlias moduleName itemName aliasName m s = .ok s') : s'.modules = s.modules := by
  have hboth : ∀ ids : List NodeId, (Importer.each (Importer.addFunctionAlias moduleName aliasName) ids
      (Importer.each (Importer.addConceptAlias aliasName)
        ((m.conceptDefs.filter fun id => (s.definitions id).name = itemName).take 1) s)).modules =
      s.modules := fun ids =>
    (modules_each (modules_addFunctionAlias moduleName aliasName) _ _).trans
      (modules_each (f := Importer.addConceptAlias aliasName) (fun _ _ => rfl) _ _)
  simp only [Importer.bindItemAlias] at h
  split at h
  · cases h
    exact hboth _
  · split at h
    · cases h
      rw [Importer.addTypeAlias]
      split <;> exact hboth _
    · cases h

theorem modules_importUse {skip : Bool}
    (h : Importer.importUse false currentModuleName useDecl skip moduleName s = .ok s') :
    s'.modules = s.modules := by
  rw [Importer.importUse] at h
  split at h
  · exact nomatch h
  · rw [Bool.false_and, if_neg Bool.false_ne_true] at h
    split at h
    · exact nomatch h
    · rename_i himport
      have hmodule := modules_importModule himport
      split at h
      · cases h
        exact hmodule
      · split at h
        · exact nomatch h
        · split at h
          · cases h
            exact hmodule
          · exact (modules_bindItemAlias h).trans hmodule

theorem modules_processUse (h : Importer.processUse false currentModuleName useDecl s = .ok s') :
    s'.modules = s.modules := by
  simp only [Importer.processUse] at h
  split at h
  · split at h
    · cases h
    · rename_i hbind
      exact (modules_importUse h).trans (modules_bindModuleAlias hbind)
  · split at h
    · split at h
      · cases h
      · rename_i hbind
        exact (modules_importUse h).trans (modules_bindModuleAlias hbind)
    · exact modules_importUse h

theorem modules_processUses {useDecls : List UseDeclNode}
    (h : Importer.processUses false currentModuleName useDecls s = .ok s') : s'.modules = s.modules := by
  induction useDecls generalizing s with
  | nil =>
    cases h
    rfl
  | cons useDecl useDecls ih =>
    rw [Importer.processUses] at h
    split at h
    · cases h
    · rename_i huse
      exact (ih h).trans (modules_processUse huse)

variable {submodule : Name} {file : ParsedFile}

section Graphs

variable (c : Configuration)

def Parses (moduleName : Name) (file : ParsedFile) : Prop :=
  ∃ path, resolveModulePath c moduleName = some path ∧ c.parse path = some file

def Declares (moduleName submodule : Name) : Prop :=
  ∃ file, Parses c moduleName file ∧ submodule ∈ file.modules

structure Loadable (moduleName : Name) : Prop where
  parses : ∀ m, ReflTransGen (Declares c) moduleName m → ∃ file, Parses c m file
  acyclic : ∀ m, ReflTransGen (Declares c) moduleName m → ¬TransGen (Declares c) m m

variable {c} {file' : ParsedFile}

theorem Parses.unique (h : Parses c moduleName file) (h' : Parses c moduleName file') : file = file' := by
  obtain ⟨path, hpath, hfile⟩ := h
  obtain ⟨path', hpath', hfile'⟩ := h'
  obtain rfl := some.inj (hpath.symm.trans hpath')
  exact some.inj (hfile.symm.trans hfile')

theorem Loadable.declared (h : Loadable c moduleName) (hdeclares : Declares c moduleName submodule) :
    Loadable c submodule where
  parses m hm := h.parses m (hm.head hdeclares)
  acyclic m hm := h.acyclic m (hm.head hdeclares)

theorem loadable_of_declared (hfile : Parses c moduleName file)
    (h : ∀ m ∈ file.modules, Loadable c m) : Loadable c moduleName := by
  have hdeclared : ∀ m, Declares c moduleName m → Loadable c m := by
    rintro m ⟨file', hfile', hm⟩
    exact h m (hfile.unique hfile' ▸ hm)
  constructor
  · intro m hm
    obtain rfl | ⟨m', hstep, hrest⟩ := hm.cases_head
    · exact ⟨file, hfile⟩
    · exact (hdeclared m' hstep).parses m hrest
  · intro m hm hcycle
    obtain rfl | ⟨m', hstep, hrest⟩ := hm.cases_head
    · obtain ⟨m', hstep, hrest⟩ := TransGen.head'_iff.1 hcycle
      exact (hdeclared m' hstep).acyclic _ hrest hcycle
    · exact (hdeclared m' hstep).acyclic m hrest hcycle

end Graphs

variable {s : LoaderState} {load : Name → LoaderState → Outcome} {fuel : Nat}

section Calls

variable (c : Configuration)

def Consistent (s : LoaderState) : Prop :=
  ∀ m p, getModule s.loader m = some p → Loadable c m

def Keeps (s s' : LoaderState) : Prop :=
  ∀ m p, getModule s.loader m = some p → getModule s'.loader m = some p

def LoadError.aboutModules : LoadError → Bool
  | .circularImport _ | .cannotFind _ | .failedToParse _ => true
  | .invalidUse _ | .outOfFuel => false

def Leads (s : LoaderState) (moduleName : Name) : Prop :=
  ∀ m ∈ s.loadingStack, TransGen (Declares c) m moduleName

structure Loads (names : List Name) (s : LoaderState) (r : Outcome) : Prop where
  stack : r.2.loadingStack = s.loadingStack
  kept : Keeps s r.2
  consistent : Consistent c s → Consistent c r.2
  loaded : r.1 = .ok () → Consistent c s → ∀ m ∈ names, Loadable c m
  refused : ∀ e, r.1 = .error e → e.aboutModules = true → (∀ m ∈ names, Leads c s m) →
    ∃ m ∈ names, ¬Loadable c m

variable {c}

theorem loads_refl (h : Consistent c s → Loadable c moduleName) : Loads c [moduleName] s (.ok (), s) where
  stack := rfl
  kept _ _ hm := hm
  consistent := id
  loaded _ hs := forall_mem_singleton.2 (h hs)
  refused _ he := nomatch he

theorem loads_refused {e : LoadError} (h : e.aboutModules = true → Leads c s moduleName →
    ¬Loadable c moduleName) : Loads c [moduleName] s (.error e, s) where
  stack := rfl
  kept _ _ hm := hm
  consistent := id
  loaded hok := nomatch hok
  refused e' he habout hleads := by
    obtain rfl := Except.error.inj he
    exact ⟨moduleName, mem_singleton_self _, h habout (hleads _ (mem_singleton_self _))⟩

theorem push_pop (h : moduleName ∉ s.loadingStack) : (s.push moduleName).pop moduleName = s :=
  congrArg (LoaderState.mk s.loader) (Finset.erase_insert h)

theorem loads_processModDeclarations (hload : ∀ m s, Loads c [m] s (load m s)) (names : List Name)
    (s : LoaderState) : Loads c names s (processModDeclarations load names s) := by
  induction names generalizing s with
  | nil => exact ⟨rfl, fun _ _ hm => hm, id, fun _ _ _ hm => (nomatch hm), fun _ he => (nomatch he)⟩
  | cons m names ih =>
    have hone := hload m s
    rw [processModDeclarations]
    generalize load m s = r at hone
    obtain ⟨_ | _, s'⟩ := r
    · refine ⟨hone.stack, hone.kept, hone.consistent, fun hok => (nomatch hok), fun e he habout hleads => ?_⟩
      obtain ⟨m', hm', hnot⟩ := hone.refused e he habout
        (forall_mem_singleton.2 (hleads m mem_cons_self))
      obtain rfl := mem_singleton.1 hm'
      exact ⟨m', mem_cons_self, hnot⟩
    · have hrest := ih s'
      refine ⟨hrest.stack.trans hone.stack, fun m' p hp => hrest.kept m' p (hone.kept m' p hp),
        fun hs => hrest.consistent (hone.consistent hs), fun hok hs => ?_, fun e he habout hleads => ?_⟩
      · refine forall_mem_cons.2 ⟨?_, hrest.loaded hok (hone.consistent hs)⟩
        exact hone.loaded rfl hs m (mem_singleton_self m)
      · obtain ⟨m', hm', hnot⟩ := hrest.refused e he habout fun m' hm' p hp =>
          hleads m' (mem_cons_of_mem _ hm') p (hone.stack ▸ hp)
        exact ⟨m', mem_cons_of_mem _ hm', hnot⟩

theorem loads_finish {program : ProgramNode} {s' : LoaderState} (hnew : getModule s.loader moduleName = none)
    (hstack : moduleName ∉ s.loadingStack)
    (hpushed : s'.loadingStack = insert moduleName s.loadingStack) (hkept : Keeps s s')
    (hconsistent : Consistent c s → Consistent c s') (hloadable : Consistent c s → Loadable c moduleName) :
    Loads c [moduleName] s (finish moduleName program s') := by
  have hpopped : s'.loadingStack.erase moduleName = s.loadingStack := by
    rw [hpushed, Finset.erase_insert hstack]
  rw [finish]
  split
  · refine ⟨hpopped, hkept, hconsistent, fun hok => (nomatch hok), fun e he habout => ?_⟩
    obtain rfl := Except.error.inj he
    exact nomatch habout
  · rename_i imported huses
    have hmodules : imported.modules = s'.loader.modules := modules_processUses huses
    refine ⟨hpopped, fun m p hp => ?_, fun hs m p hp => ?_,
      fun _ hs => forall_mem_singleton.2 (hloadable hs), fun e he => nomatch he⟩
    · have hne : m ≠ moduleName := by
        rintro rfl
        exact nomatch hnew.symm.trans hp
      show List.lookup m ((moduleName, imported.program) :: imported.modules) = some p
      rw [lookup_cons, beq_false_of_ne hne, hmodules]
      exact hkept m p hp
    · replace hp : List.lookup m ((moduleName, imported.program) :: imported.modules) = some p := hp
      by_cases heq : m = moduleName
      · exact heq ▸ hloadable hs
      · rw [lookup_cons, beq_false_of_ne heq, hmodules] at hp
        exact hconsistent hs m p hp

theorem not_loadable_of_declares (h : ¬Loadable c submodule) (hdeclares : Declares c moduleName submodule) :
    ¬Loadable c moduleName :=
  fun hloadable => h (hloadable.declared hdeclares)

def afterModules (moduleName : Name) (program : ProgramNode) : Outcome → Outcome
  | (.error e, s) => (.error e, s.pop moduleName)
  | (.ok (), s) => finish moduleName program s

theorem loads_declared (hload : ∀ m s, Loads c [m] s (load m s)) (hfile : Parses c moduleName file)
    (hnew : getModule s.loader moduleName = none) (hstack : moduleName ∉ s.loadingStack) :
    Loads c [moduleName] s
    (afterModules moduleName (parseFile moduleName file s.loader).1 (processModDeclarations load file.modules
      ⟨readModule moduleName file s.loader, (s.push moduleName).loadingStack⟩)) := by
  have hread : ∀ m, getModule (readModule moduleName file s.loader) m = getModule s.loader m := by
    intro m
    rw [getModule, (readModule_keeps moduleName file s.loader).2.2]
    rfl
  have hnested := loads_processModDeclarations hload file.modules
    ⟨readModule moduleName file s.loader, (s.push moduleName).loadingStack⟩
  have hkept : ∀ m p, getModule s.loader m = some p →
      getModule (readModule moduleName file s.loader) m = some p := fun m p hp => (hread m).trans hp
  have hconsistent : Consistent c s →
      Consistent c ⟨readModule moduleName file s.loader, (s.push moduleName).loadingStack⟩ :=
    fun hs m p hp => hs m p ((hread m).symm.trans hp)
  generalize processModDeclarations load file.modules _ = r at hnested
  obtain ⟨_ | _, s'⟩ := r
  · have hpopped : s'.loadingStack.erase moduleName = s.loadingStack := by
      rw [hnested.stack]
      exact Finset.erase_insert hstack
    refine ⟨hpopped, fun m p hp => hnested.kept m p (hkept m p hp),
      fun hs => hnested.consistent (hconsistent hs), fun hok => (by cases hok),
      fun e he habout hleads => ?_⟩
    have hsubmodules : ∀ m ∈ file.modules,
        Leads c ⟨readModule moduleName file s.loader, (s.push moduleName).loadingStack⟩ m := by
      intro m hm p hp
      have hstep : Declares c moduleName m := ⟨file, hfile, hm⟩
      obtain rfl | hp := Finset.mem_insert.1 hp
      · exact .single hstep
      · exact (hleads _ (mem_singleton_self _) p hp).tail hstep
    obtain ⟨m, hm, hnot⟩ := hnested.refused e he habout hsubmodules
    exact ⟨moduleName, mem_singleton_self _, not_loadable_of_declares hnot ⟨file, hfile, hm⟩⟩
  · exact loads_finish hnew hstack hnested.stack (fun m p hp => hnested.kept m p (hkept m p hp))
      (fun hs => hnested.consistent (hconsistent hs))
      fun hs => loadable_of_declared hfile (hnested.loaded rfl (hconsistent hs))

theorem loads_attempt (hnested : ∀ fuel', fuel = fuel' + 1 → ∀ m s, Loads c [m] s (loadModule c fuel' m s)) :
    Loads c [moduleName] s (loadModule c fuel moduleName s) := by
  rw [loadModule]
  split
  · rename_i hloaded
    obtain ⟨p, hp⟩ := isSome_iff_exists.1 hloaded
    exact loads_refl fun hs => hs moduleName p hp
  · rename_i hnew
    split
    · rename_i hstack
      exact loads_refused fun _ hleads hloadable => hloadable.acyclic _ .refl (hleads _ hstack)
    · rename_i hstack
      have hmissing : (∀ file, ¬Parses c moduleName file) → ¬Loadable c moduleName :=
        fun hnone hloadable => (hloadable.parses _ .refl).elim hnone
      split
      · rename_i hpath
        refine loads_refused fun _ _ => hmissing ?_
        rintro file ⟨path, hpath', -⟩
        exact nomatch hpath.symm.trans hpath'
      · rename_i path hpath
        split
        · rename_i hparse
          rw [push_pop hstack]
          refine loads_refused fun _ _ => hmissing ?_
          rintro file ⟨path', hpath', hparse'⟩
          obtain rfl := some.inj (hpath.symm.trans hpath')
          exact nomatch hparse.symm.trans hparse'
        · rw [push_pop hstack]
          exact loads_refused fun habout => nomatch habout
        · rename_i file fuel' hparse
          exact loads_declared (hnested fuel' rfl) ⟨path, hpath, hparse⟩
            (not_isSome_iff_eq_none.1 hnew) hstack

theorem loads_loadModule (fuel : Nat) (moduleName : Name) (s : LoaderState) :
    Loads c [moduleName] s (loadModule c fuel moduleName s) := by
  induction fuel generalizing moduleName s with
  | zero => exact loads_attempt fun fuel' h => nomatch h
  | succ fuel ih =>
    refine loads_attempt fun fuel' h => ?_
    obtain rfl := Nat.succ.inj h
    exact ih

end Calls

section Termination

variable (c : Configuration)

def Configuration.declared : List Name := c.files.flatMap fun e => e.2.elim [] ParsedFile.modules

def Configuration.depth : Nat := c.declared.length + 1

variable {c}

theorem Parses.declared (h : Parses c moduleName file) : ∀ m ∈ file.modules, m ∈ c.declared := by
  obtain ⟨path, -, hfile⟩ := h
  intro m hm
  obtain ⟨before, after, hfiles, -⟩ := lookup_eq_some_iff.1 (join_eq_some_iff.1 hfile)
  refine mem_flatMap.2 ⟨(path, some file), ?_, hm⟩
  rw [hfiles]
  exact mem_append_right _ mem_cons_self

theorem processModDeclarations_ends {stack : Finset Name} (hload : ∀ m s, Loads c [m] s (load m s))
    {names : List Name} (hends : ∀ m ∈ names, ∀ s, s.loadingStack = stack → (load m s).1 ≠ .error .outOfFuel)
    (s : LoaderState) (hs : s.loadingStack = stack) :
    (processModDeclarations load names s).1 ≠ .error .outOfFuel := by
  induction names generalizing s with
  | nil => exact fun h => nomatch h
  | cons m names ih =>
    have hone := hends m mem_cons_self s hs
    have hstack := (hload m s).stack.trans hs
    rw [processModDeclarations]
    generalize load m s = r at hone hstack
    obtain ⟨_ | _, s'⟩ := r
    · exact hone
    · exact ih (fun m' hm' => hends m' (mem_cons_of_mem _ hm')) s' hstack

theorem finish_ends (program : ProgramNode) : (finish moduleName program s).1 ≠ .error .outOfFuel := by
  rw [finish]
  split <;> exact fun h => nomatch h

theorem loadModule_ends {names : Finset Name} (hnames : ∀ m ∈ c.declared, m ∈ names)
    (hmem : moduleName ∈ names) (hfuel : (names \ s.loadingStack).card ≤ fuel) :
    (loadModule c fuel moduleName s).1 ≠ .error .outOfFuel := by
  induction fuel generalizing moduleName s with
  | zero =>
    rw [loadModule]
    split
    · exact fun h => nomatch h
    · split
      · exact fun h => nomatch h
      · rename_i hstack
        rw [Nat.le_zero, Finset.card_eq_zero, Finset.sdiff_eq_empty_iff_subset] at hfuel
        exact absurd (hfuel hmem) hstack
  | succ fuel ih =>
    rw [loadModule]
    split
    · exact fun h => nomatch h
    · split
      · exact fun h => nomatch h
      · rename_i hstack
        split
        · exact fun h => nomatch h
        · rename_i path hpath
          split
          · exact fun h => nomatch h
          · rename_i hfuel'
            exact nomatch hfuel'
          · rename_i file fuel' hparse hsucc
            obtain rfl := Nat.succ.inj hsucc
            have hfile : Parses c moduleName file := ⟨path, hpath, hparse⟩
            have hless : (names \ insert moduleName s.loadingStack).card ≤ fuel := by
              rw [Finset.sdiff_insert, Finset.card_erase_of_mem (Finset.mem_sdiff.2 ⟨hmem, hstack⟩)]
              exact Nat.sub_le_of_le_add hfuel
            have hmods := processModDeclarations_ends (loads_loadModule (c := c) fuel)
              (fun m hm s' hs' => ih (hnames m (hfile.declared m hm)) (hs' ▸ hless))
              ⟨readModule moduleName file s.loader, (s.push moduleName).loadingStack⟩ rfl
            dsimp only
            generalize processModDeclarations _ file.modules _ = r at hmods
            obtain ⟨_ | _, s'⟩ := r
            · exact hmods
            · exact finish_ends _

theorem loadModule_terminates (hfuel : c.depth ≤ fuel) (moduleName : Name) (s : LoaderState) :
    (loadModule c fuel moduleName s).1 ≠ .error .outOfFuel := by
  have hnames : ∀ m ∈ c.declared, m ∈ insert moduleName c.declared.toFinset :=
    fun m hm => Finset.mem_insert_of_mem (mem_toFinset.2 hm)
  refine loadModule_ends hnames (Finset.mem_insert_self _ _) ?_
  calc (insert moduleName c.declared.toFinset \ s.loadingStack).card
      ≤ (insert moduleName c.declared.toFinset).card := Finset.card_le_card Finset.sdiff_subset
    _ ≤ c.declared.toFinset.card + 1 := Finset.card_insert_le _ _
    _ ≤ c.declared.length + 1 := Nat.succ_le_succ (toFinset_card_le _)
    _ ≤ fuel := hfuel

end Termination

/-- A loader between two requests. -/
inductive Between : LoaderState → Prop
  | start {s : LoaderState} (hmodules : s.loader.modules = []) (hstack : s.loadingStack = ∅) : Between s
  | request {s : LoaderState} (h : Between s) (moduleName : Name) {fuel : Nat} (hfuel : c.depth ≤ fuel) :
      Between (loadModule c fuel moduleName s).2
  | others {s s' : LoaderState} (h : Between s) (hmodules : s'.loader.modules = s.loader.modules)
      (hstack : s'.loadingStack = s.loadingStack) : Between s'

/-- The calls: those from outside, and those for the modules that a file declares. -/
inductive Calls : Name → LoaderState → Prop
  | request {s : LoaderState} (h : Between c s) (moduleName : Name) : Calls moduleName s
  | nested {s s' : LoaderState} {moduleName m : Name} {file : ParsedFile} {before after : List Name}
      {fuel : Nat} (h : Calls moduleName s) (hnew : getModule s.loader moduleName = none)
      (hstack : moduleName ∉ s.loadingStack) (hfile : Parses c moduleName file)
      (hmodules : file.modules = before ++ m :: after)
      (hbefore : processModDeclarations (loadModule c fuel) before
        ⟨readModule moduleName file s.loader, (s.push moduleName).loadingStack⟩ = (.ok (), s')) :
      Calls m s'

variable {c}

theorem Between.invariant (h : Between c s) : Consistent c s ∧ s.loadingStack = ∅ := by
  induction h with
  | start hmodules hstack =>
    refine ⟨fun m p hp => ?_, hstack⟩
    rw [getModule, hmodules] at hp
    cases hp
  | @request s h moduleName fuel hfuel ih =>
    have hloads := loads_loadModule (c := c) fuel moduleName s
    exact ⟨hloads.consistent ih.1, hloads.stack.trans ih.2⟩
  | others h hmodules hstack ih =>
    refine ⟨fun m p hp => ih.1 m p ?_, hstack.trans ih.2⟩
    rwa [getModule, hmodules] at hp

theorem Calls.invariant (h : Calls c moduleName s) : Consistent c s ∧ Leads c s moduleName := by
  induction h with
  | request h moduleName =>
    obtain ⟨hconsistent, hstack⟩ := h.invariant
    refine ⟨hconsistent, fun m hm => ?_⟩
    rw [hstack] at hm
    exact absurd hm (Finset.notMem_empty m)
  | @nested s s' moduleName m file before after fuel h hnew hstack hfile hmodules hbefore ih =>
    have hloads := loads_processModDeclarations (loads_loadModule (c := c) fuel) before
      ⟨readModule moduleName file s.loader, (s.push moduleName).loadingStack⟩
    rw [hbefore] at hloads
    have hstep : Declares c moduleName m :=
      ⟨file, hfile, hmodules ▸ mem_append_right _ mem_cons_self⟩
    refine ⟨hloads.consistent fun m' p hp => ih.1 m' p ?_, fun m' hm' => ?_⟩
    · rw [getModule, (readModule_keeps moduleName file s.loader).2.2] at hp
      exact hp
    · rw [hloads.stack] at hm'
      obtain rfl | hm' := Finset.mem_insert.1 hm'
      · exact .single hstep
      · exact (ih.2 m' hm').tail hstep

/-- A call ends, leaves the stack as it was and keeps what is loaded. -/
theorem loadModule_exact {moduleName : Name} {s : LoaderState} (h : Calls c moduleName s) {fuel : Nat}
    (hfuel : c.depth ≤ fuel) :
    (loadModule c fuel moduleName s).1 ≠ .error .outOfFuel ∧
      (loadModule c fuel moduleName s).2.loadingStack = s.loadingStack ∧
      ((∀ e, (loadModule c fuel moduleName s).1 ≠ .error (.invalidUse e)) →
        ((loadModule c fuel moduleName s).1 = .ok () ↔
          (∀ m, ReflTransGen (Declares c) moduleName m → ∃ file, Parses c m file) ∧
            ∀ m, ReflTransGen (Declares c) moduleName m → ¬TransGen (Declares c) m m)) ∧
      ∀ m p, getModule s.loader m = some p →
        getModule (loadModule c fuel moduleName s).2.loader m = some p := by
  obtain ⟨hconsistent, hleads⟩ := h.invariant
  have hends := loadModule_terminates hfuel moduleName s
  have hloads := loads_loadModule (c := c) fuel moduleName s
  refine ⟨hends, hloads.stack, fun huses => ⟨fun hok => ?_, fun ⟨hparses, hacyclic⟩ => ?_⟩, hloads.kept⟩
  · have hloadable := hloads.loaded hok hconsistent moduleName (mem_singleton_self _)
    exact ⟨hloadable.parses, hloadable.acyclic⟩
  · cases hresult : (loadModule c fuel moduleName s).1 with
    | ok => rfl
    | error e =>
      have habout : e.aboutModules = true := by
        cases e with
        | invalidUse e => exact absurd hresult (huses e)
        | outOfFuel => exact absurd hresult hends
        | circularImport | cannotFind | failedToParse => rfl
      obtain ⟨m, hm, hnot⟩ := hloads.refused e hresult habout (forall_mem_singleton.2 hleads)
      obtain rfl := mem_singleton.1 hm
      exact absurd ⟨hparses, hacyclic⟩ hnot

def twoFiles : Configuration where
  searchPaths := [['.']]
  files := [("./a.mla".toList, some ⟨[], [], [], [], [], [], [['b']], []⟩),
    ("./b/mod.mla".toList, some ⟨[], [], [], [], [], [], [], []⟩)]

def freshState : LoaderState := ⟨emptyLoader, ∅⟩

theorem loadModule_twoFiles_exact :
    (loadModule twoFiles 2 ['a'] freshState).1 = .ok () ∧ Calls twoFiles ['a'] freshState ∧
      ∀ m, ReflTransGen (Declares twoFiles) ['a'] m → ¬TransGen (Declares twoFiles) m m := by
  have hcall : Calls twoFiles ['a'] freshState := .request (.start rfl rfl) _
  have hok : (loadModule twoFiles 2 ['a'] freshState).1 = .ok () := rfl
  have hexact := (loadModule_exact hcall (show twoFiles.depth ≤ 2 by decide)).2.2.1
  have huses : ∀ e, (loadModule twoFiles 2 ['a'] freshState).1 ≠ .error (.invalidUse e) := by
    intro e he
    exact nomatch hok.symm.trans he
  exact ⟨hok, hcall, ((hexact huses).1 hok).2⟩

end Mlang.ModuleLoading
