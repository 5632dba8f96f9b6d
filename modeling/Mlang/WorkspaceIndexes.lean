import Mathlib
import Mlang.BracketedText
import Mlang.BreadthFirst
import Mlang.InverseIndexes

namespace Mlang.WorkspaceGraphs

open BracketedText (Text)
open FiniteMaps InverseIndexes BreadthFirst

structure WorkspaceImport where
  moduleName : Text
  itemName : Text
  importAll : Bool

structure WorkspaceDocumentNode where
  uri : Text
  path : Text
  providedModules : List Text
  imports : List WorkspaceImport

def WorkspaceDocumentNode.importedModules (doc : WorkspaceDocumentNode) : List Text :=
  doc.imports.map WorkspaceImport.moduleName

structure WorkspaceGraph where
  documents : FiniteMap Text WorkspaceDocumentNode
  moduleProviders : Index Text Text
  moduleImporters : Index Text Text

def WorkspaceGraph.empty : WorkspaceGraph := ⟨∅, ∅, ∅⟩

def removeDocumentIndexes (g : WorkspaceGraph) (doc : WorkspaceDocumentNode) : WorkspaceGraph :=
  { g with
    moduleProviders := doc.providedModules.foldl (unlink doc.uri) g.moduleProviders
    moduleImporters := doc.importedModules.foldl (unlink doc.uri) g.moduleImporters }

def linkNamed (uri : Text) (index : Index Text Text) (module : Text) : Index Text Text :=
  if module = [] then index else link uri index module

def upsertDocument (g : WorkspaceGraph) (doc : WorkspaceDocumentNode) : WorkspaceGraph :=
  let g :=
    match g.documents.lookup doc.uri with
    | some old => removeDocumentIndexes g old
    | none => g
  { documents := g.documents.insert doc.uri doc
    moduleProviders := doc.providedModules.foldl (linkNamed doc.uri) g.moduleProviders
    moduleImporters := doc.importedModules.foldl (linkNamed doc.uri) g.moduleImporters }

def removeDocument (g : WorkspaceGraph) (uri : Text) : WorkspaceGraph :=
  match g.documents.lookup uri with
  | none => g
  | some doc =>
    let g := removeDocumentIndexes g doc
    { g with documents := g.documents.erase uri }

structure Iteration where
  order : Finset Text → List Text
  nodup : ∀ s, (order s).Nodup
  mem_iff : ∀ s x, x ∈ order s ↔ x ∈ s

variable (it : Iteration) (g : WorkspaceGraph)

def sort (out : List Text) : List Text := out.insertionSort (· ≤ ·)

def addUnseen (out : List Text) (x : Text) : List Text := if x ∈ out then out else out ++ [x]

def findProviderUris (moduleName : Text) : List Text :=
  match g.moduleProviders.lookup moduleName with
  | none => []
  | some uris => sort (it.order uris)

def directDependencyModules (uri : Text) : List Text :=
  match g.documents.lookup uri with
  | none => []
  | some doc =>
    sort (doc.importedModules.foldl
      (fun out module => if module = [] then out else addUnseen out module) [])

def addImporters (docUri : Text) (out : List Text) (provided : Text) : List Text :=
  match g.moduleImporters.lookup provided with
  | none => out
  | some uris =>
    (it.order uris).foldl
      (fun out depUri => if depUri = docUri then out else addUnseen out depUri) out

def directDependentUris (uri : Text) : List Text :=
  match g.documents.lookup uri with
  | none => []
  | some doc => sort (doc.providedModules.foldl (addImporters it g doc.uri) [])

def namedImports (doc : WorkspaceDocumentNode) : List Text := doc.importedModules.filter (· ≠ [])

def documentImports (providerUri : Text) : List Text :=
  match g.documents.lookup providerUri with
  | none => []
  | some doc => namedImports doc

/-- The modules that the providers of a module import, in the order in which they are met. -/
def providerImports (module : Text) : List Text :=
  match g.moduleProviders.lookup module with
  | none => []
  | some uris => (it.order uris).flatMap (documentImports g)

def transitiveDependencyModules (rounds : Nat) (uri : Text) : Option (List Text) :=
  match g.documents.lookup uri with
  | none => some []
  | some doc =>
    search (providerImports it g) rounds ((namedImports doc).foldl meet BreadthFirst.empty)

inductive Call
  | upsertDocument (doc : WorkspaceDocumentNode)
  | removeDocument (uri : Text)

def WorkspaceGraph.call (g : WorkspaceGraph) : Call → WorkspaceGraph
  | .upsertDocument doc => WorkspaceGraphs.upsertDocument g doc
  | .removeDocument uri => WorkspaceGraphs.removeDocument g uri

def after (calls : List Call) : WorkspaceGraph := calls.foldl WorkspaceGraph.call .empty

end Mlang.WorkspaceGraphs

namespace Mlang.WorkspaceIndexes

open BracketedText (Text)
open FiniteMaps InverseIndexes BreadthFirst WorkspaceGraphs List
open Finmap (lookup_empty lookup_erase lookup_erase_ne lookup_insert lookup_insert_of_ne)

abbrev Documents := FiniteMap Text WorkspaceDocumentNode

/-- The current documents: for each name the one that was put there last, unless it was removed. -/
def current (calls : List Call) : Documents :=
  calls.foldl (fun docs call =>
    match call with
    | .upsertDocument doc => docs.insert doc.uri doc
    | .removeDocument uri => docs.erase uri) ∅

def namedModules (doc : WorkspaceDocumentNode) : List Text := doc.providedModules.filter (· ≠ [])

def providedBy (docs : Documents) (uri : Text) : List Text :=
  ((docs.lookup uri).map namedModules).getD []

def importedBy (docs : Documents) (uri : Text) : List Text :=
  ((docs.lookup uri).map namedImports).getD []

def providersOf (docs : Documents) (module : Text) : Finset Text :=
  docs.keys.filter fun uri => module ∈ providedBy docs uri

def dependenciesOf (docs : Documents) (uri : Text) : Finset Text := (importedBy docs uri).toFinset

def dependentsOf (docs : Documents) (uri : Text) : Finset Text :=
  docs.keys.filter fun other =>
    other ≠ uri ∧ ∃ module ∈ providedBy docs uri, module ∈ importedBy docs other

/-- The least set that has the imports of a document and is closed under the imports of providers. -/
inductive DependsOn (docs : Documents) (uri : Text) : Text → Prop
  | direct (module : Text) : module ∈ importedBy docs uri → DependsOn docs uri module
  | through (module provider imported : Text) : DependsOn docs uri module →
      module ∈ providedBy docs provider → imported ∈ importedBy docs provider →
      DependsOn docs uri imported

variable {docs : Documents} {module uri other : Text} {doc : WorkspaceDocumentNode} {g : WorkspaceGraph}

structure Indexed (g : WorkspaceGraph) (docs : Documents) : Prop where
  documents : g.documents = docs
  keys : ∀ uri doc, docs.lookup uri = some doc → doc.uri = uri
  providers : Inverts g.moduleProviders fun module uri => module ∈ providedBy docs uri
  importers : Inverts g.moduleImporters fun module uri => module ∈ importedBy docs uri

theorem providedBy_insert : providedBy (docs.insert uri doc) other =
    if other = uri then namedModules doc else providedBy docs other := by
  rw [providedBy]
  by_cases h : other = uri
  · rw [if_pos h, h, lookup_insert]
    rfl
  · rw [if_neg h, lookup_insert_of_ne _ h, providedBy]

theorem importedBy_insert : importedBy (docs.insert uri doc) other =
    if other = uri then namedImports doc else importedBy docs other := by
  rw [importedBy]
  by_cases h : other = uri
  · rw [if_pos h, h, lookup_insert]
    rfl
  · rw [if_neg h, lookup_insert_of_ne _ h, importedBy]

theorem providedBy_erase :
    providedBy (docs.erase uri) other = if other = uri then [] else providedBy docs other := by
  rw [providedBy]
  by_cases h : other = uri
  · rw [if_pos h, h, lookup_erase]
    rfl
  · rw [if_neg h, lookup_erase_ne h, providedBy]

theorem importedBy_erase :
    importedBy (docs.erase uri) other = if other = uri then [] else importedBy docs other := by
  rw [importedBy]
  by_cases h : other = uri
  · rw [if_pos h, h, lookup_erase]
    rfl
  · rw [if_neg h, lookup_erase_ne h, importedBy]

theorem foldl_linkNamed (uri : Text) (index : Index Text Text) (modules : List Text) :
    modules.foldl (linkNamed uri) index = (modules.filter (· ≠ [])).foldl (link uri) index := by
  induction modules generalizing index with
  | nil => rfl
  | cons module modules ih =>
    rw [foldl_cons, linkNamed, ih]
    by_cases h : module = []
    · rw [if_pos h, filter_cons_of_neg (by simpa using h)]
    · rw [if_neg h, filter_cons_of_pos (by simpa using h), foldl_cons]

theorem mem_providedBy (h : docs.lookup uri = some doc) :
    module ∈ providedBy docs uri ↔ module ∈ doc.providedModules ∧ module ≠ [] := by
  rw [providedBy, h]
  simp [namedModules]

theorem mem_importedBy (h : docs.lookup uri = some doc) :
    module ∈ importedBy docs uri ↔ module ∈ doc.importedModules ∧ module ≠ [] := by
  rw [importedBy, h]
  simp [namedImports]

theorem Indexed.removeDocumentIndexes (h : Indexed g docs) (hdoc : docs.lookup uri = some doc) :
    Indexed { removeDocumentIndexes g doc with documents := g.documents.erase uri } (docs.erase uri) where
  documents := congrArg (Finmap.erase uri) h.documents
  keys other doc' hother := by
    by_cases heq : other = uri
    · rw [heq, lookup_erase] at hother
      cases hother
    · rw [lookup_erase_ne heq] at hother
      exact h.keys other doc' hother
  providers := by
    refine (h.providers.foldl_unlink (v := doc.uri) doc.providedModules).congr fun module other => ?_
    rw [h.keys uri doc hdoc, providedBy_erase]
    by_cases heq : other = uri
    · rw [if_pos heq, heq, mem_providedBy hdoc]
      simp
      tauto
    · rw [if_neg heq]
      simp [heq]
  importers := by
    refine (h.importers.foldl_unlink (v := doc.uri) doc.importedModules).congr fun module other => ?_
    rw [h.keys uri doc hdoc, importedBy_erase]
    by_cases heq : other = uri
    · rw [if_pos heq, heq, mem_importedBy hdoc]
      simp
      tauto
    · rw [if_neg heq]
      simp [heq]

theorem Indexed.removeDocument (h : Indexed g docs) (uri : Text) :
    Indexed (removeDocument g uri) (docs.erase uri) := by
  rw [WorkspaceGraphs.removeDocument]
  cases hdoc : g.documents.lookup uri with
  | none =>
    rw [h.documents] at hdoc
    rwa [erase_of_notMem (Finmap.lookup_eq_none.1 hdoc)]
  | some doc =>
    rw [h.documents] at hdoc
    exact h.removeDocumentIndexes hdoc

theorem Indexed.link (doc : WorkspaceDocumentNode) (h : Indexed g docs) (hnew : doc.uri ∉ docs) :
    Indexed
      { documents := g.documents.insert doc.uri doc
        moduleProviders := doc.providedModules.foldl (linkNamed doc.uri) g.moduleProviders
        moduleImporters := doc.importedModules.foldl (linkNamed doc.uri) g.moduleImporters }
      (docs.insert doc.uri doc) where
  documents := congrArg (Finmap.insert doc.uri doc) h.documents
  keys other doc' hother := by
    by_cases heq : other = doc.uri
    · rw [heq, lookup_insert] at hother
      rw [heq, Option.some.inj hother]
    · rw [lookup_insert_of_ne _ heq] at hother
      exact h.keys other doc' hother
  providers := by
    rw [foldl_linkNamed]
    refine (h.providers.foldl_link (v := doc.uri) (namedModules doc)).congr fun module other => ?_
    rw [providedBy_insert]
    by_cases heq : other = doc.uri
    · rw [if_pos heq, heq, providedBy, Finmap.lookup_eq_none.2 hnew]
      simp
    · rw [if_neg heq]
      simp [heq]
  importers := by
    dsimp only
    rw [foldl_linkNamed]
    refine (h.importers.foldl_link (v := doc.uri) (namedImports doc)).congr fun module other => ?_
    rw [importedBy_insert]
    by_cases heq : other = doc.uri
    · rw [if_pos heq, heq, importedBy, Finmap.lookup_eq_none.2 hnew]
      simp
    · rw [if_neg heq]
      simp [heq]

theorem insert_erase (docs : Documents) (uri : Text) (doc : WorkspaceDocumentNode) :
    (docs.erase uri).insert uri doc = docs.insert uri doc := by
  refine Finmap.ext_lookup fun other => ?_
  by_cases heq : other = uri
  · rw [heq, lookup_insert, lookup_insert]
  · rw [lookup_insert_of_ne _ heq, lookup_insert_of_ne _ heq, lookup_erase_ne heq]

theorem Indexed.upsertDocument (h : Indexed g docs) (doc : WorkspaceDocumentNode) :
    Indexed (upsertDocument g doc) (docs.insert doc.uri doc) := by
  rw [WorkspaceGraphs.upsertDocument]
  cases hold : g.documents.lookup doc.uri with
  | none =>
    rw [h.documents] at hold
    exact h.link doc (Finmap.lookup_eq_none.1 hold)
  | some old =>
    rw [h.documents] at hold
    have herased := (h.removeDocumentIndexes hold).link doc
      fun hmem => (Finmap.mem_erase.1 hmem).1 rfl
    rw [insert_erase docs] at herased
    refine ⟨?_, herased.keys, herased.providers, herased.importers⟩
    exact congrArg (Finmap.insert doc.uri doc) h.documents

variable {it : Iteration}

theorem sort_eq {out : List Text} {s : Finset Text} (hnodup : out.Nodup) (hmem : ∀ x, x ∈ out ↔ x ∈ s) :
    sort out = s.sort := by
  have hperm : out.Perm s.sort := by
    rw [perm_ext_iff_of_nodup hnodup (s.sort_nodup _)]
    intro x
    rw [hmem, Finset.mem_sort]
  have hsorted : (sort out).Perm s.sort := (perm_insertionSort _ out).trans hperm
  exact hsorted.eq_of_pairwise' (pairwise_insertionSort _ out) (Finset.pairwise_sort s _)

theorem foldl_addUnseen (xs out : List Text) (hout : out.Nodup) :
    (xs.foldl addUnseen out).Nodup ∧ ∀ x, x ∈ xs.foldl addUnseen out ↔ x ∈ out ∨ x ∈ xs := by
  induction xs generalizing out with
  | nil => exact ⟨hout, fun x => by simp⟩
  | cons y xs ih =>
    rw [foldl_cons, addUnseen]
    by_cases hy : y ∈ out
    · rw [if_pos hy]
      obtain ⟨hnodup, hmem⟩ := ih out hout
      refine ⟨hnodup, fun x => ?_⟩
      rw [hmem, mem_cons]
      constructor
      · exact Or.imp_right .inr
      · rintro (h | rfl | h)
        · exact .inl h
        · exact .inl hy
        · exact .inr h
    · rw [if_neg hy]
      have hmore : (out ++ [y]).Nodup := concat_eq_append ▸ List.Nodup.concat hy hout
      obtain ⟨hnodup, hmem⟩ := ih (out ++ [y]) hmore
      refine ⟨hnodup, fun x => ?_⟩
      rw [hmem, mem_append, mem_singleton, mem_cons, or_assoc]

theorem foldl_addUnseen_filter (p : Text → Prop) [DecidablePred p] (xs out : List Text) :
    xs.foldl (fun out x => if p x then out else addUnseen out x) out =
      (xs.filter fun x => ¬p x).foldl addUnseen out := by
  induction xs generalizing out with
  | nil => rfl
  | cons x xs ih =>
    rw [foldl_cons, ih]
    by_cases h : p x
    · rw [if_pos h, filter_cons_of_neg (by simpa using h)]
    · rw [if_neg h, filter_cons_of_pos (by simpa using h), foldl_cons]

theorem mem_keys (hmodule : module ∈ providedBy docs uri ∨ module ∈ importedBy docs uri) :
    uri ∈ docs.keys := by
  rw [Finmap.mem_keys]
  by_contra hnone
  rw [providedBy, importedBy, Finmap.lookup_eq_none.2 hnone] at hmodule
  exact hmodule.elim not_mem_nil not_mem_nil

theorem Indexed.mem_providers (h : Indexed g docs) (module uri : Text) :
    uri ∈ members g.moduleProviders module ↔ uri ∈ providersOf docs module := by
  rw [h.providers.mem_iff, providersOf, Finset.mem_filter]
  exact ⟨fun hmodule => ⟨mem_keys (.inl hmodule), hmodule⟩, And.right⟩

theorem Indexed.findProviderUris (h : Indexed g docs) (module : Text) :
    findProviderUris it g module = (providersOf docs module).sort := by
  rw [WorkspaceGraphs.findProviderUris]
  have hmem := h.mem_providers module
  rw [members] at hmem
  cases huris : g.moduleProviders.lookup module with
  | none =>
    rw [huris] at hmem
    refine sort_eq nodup_nil fun uri => ?_
    rw [← hmem uri]
    simp
  | some uris =>
    rw [huris] at hmem
    exact sort_eq (it.nodup uris) fun uri => (it.mem_iff uris uri).trans (hmem uri)

theorem Indexed.directDependencyModules (h : Indexed g docs) (uri : Text) :
    directDependencyModules g uri = (dependenciesOf docs uri).sort := by
  rw [WorkspaceGraphs.directDependencyModules, h.documents]
  cases hdoc : docs.lookup uri with
  | none =>
    refine sort_eq nodup_nil fun module => ?_
    rw [dependenciesOf, importedBy, hdoc]
    rfl
  | some doc =>
    dsimp only
    rw [foldl_addUnseen_filter (· = [])]
    obtain ⟨hnodup, hmem⟩ := foldl_addUnseen (namedImports doc) [] nodup_nil
    refine sort_eq hnodup fun module => (hmem module).trans ?_
    rw [dependenciesOf, importedBy, hdoc]
    simp

def importersBut (it : Iteration) (g : WorkspaceGraph) (docUri provided : Text) : List Text :=
  match g.moduleImporters.lookup provided with
  | none => []
  | some uris => (it.order uris).filter fun depUri => ¬depUri = docUri

theorem foldl_addImporters (it : Iteration) (g : WorkspaceGraph) (docUri : Text)
    (modules out : List Text) :
    modules.foldl (addImporters it g docUri) out =
      (modules.flatMap (importersBut it g docUri)).foldl addUnseen out := by
  induction modules generalizing out with
  | nil => rfl
  | cons provided modules ih =>
    rw [foldl_cons, ih, flatMap_cons, foldl_append, addImporters, importersBut]
    cases g.moduleImporters.lookup provided with
    | none => rfl
    | some uris =>
      dsimp only
      rw [foldl_addUnseen_filter (· = docUri)]

theorem Indexed.mem_importersBut (h : Indexed g docs) :
    other ∈ importersBut it g uri module ↔ module ∈ importedBy docs other ∧ other ≠ uri := by
  rw [← h.importers.mem_iff module other, members, importersBut]
  cases g.moduleImporters.lookup module with
  | none => simp
  | some uris => simp [it.mem_iff]

theorem ne_nil_of_importedBy (h : module ∈ importedBy docs uri) : module ≠ [] := by
  rw [importedBy] at h
  cases hdoc : docs.lookup uri with
  | none =>
    rw [hdoc] at h
    exact absurd h not_mem_nil
  | some doc => exact ((mem_importedBy hdoc).1 (by rwa [importedBy])).2

variable (h : Indexed g docs)
include h

theorem Indexed.mem_importers (hdoc : docs.lookup uri = some doc) :
    other ∈ doc.providedModules.flatMap (importersBut it g doc.uri) ↔ other ∈ dependentsOf docs uri := by
  rw [mem_flatMap, dependentsOf, Finset.mem_filter, h.keys uri doc hdoc]
  constructor
  · rintro ⟨module, hprovided, hmember⟩
    obtain ⟨himported, hne⟩ := h.mem_importersBut.1 hmember
    have hnamed := (mem_providedBy hdoc).2 ⟨hprovided, ne_nil_of_importedBy himported⟩
    exact ⟨mem_keys (.inr himported), hne, module, hnamed, himported⟩
  · rintro ⟨-, hne, module, hprovided, himported⟩
    exact ⟨module, ((mem_providedBy hdoc).1 hprovided).1, h.mem_importersBut.2 ⟨himported, hne⟩⟩

theorem Indexed.directDependentUris (uri : Text) :
    directDependentUris it g uri = (dependentsOf docs uri).sort := by
  rw [WorkspaceGraphs.directDependentUris, h.documents]
  cases hdoc : docs.lookup uri with
  | none =>
    refine sort_eq nodup_nil fun other => ?_
    rw [dependentsOf, Finset.mem_filter, providedBy, hdoc]
    simp
  | some doc =>
    dsimp only
    rw [foldl_addImporters]
    obtain ⟨hnodup, hmem⟩ := foldl_addUnseen
      (doc.providedModules.flatMap (importersBut it g doc.uri)) [] nodup_nil
    refine sort_eq hnodup fun other => (hmem other).trans ?_
    rw [h.mem_importers hdoc]
    exact or_iff_right not_mem_nil

theorem Indexed.documentImports (uri : Text) :
    documentImports g uri = importedBy docs uri := by
  rw [WorkspaceGraphs.documentImports, importedBy, h.documents]
  cases docs.lookup uri with
  | none => rfl
  | some doc => rfl

theorem Indexed.mem_providerImports {imported : Text} :
    imported ∈ providerImports it g module ↔ ∃ provider, module ∈ providedBy docs provider ∧
    imported ∈ importedBy docs provider := by
  simp only [← h.documentImports, ← h.providers.mem_iff module, members]
  rw [providerImports]
  cases g.moduleProviders.lookup module with
  | none => simp
  | some uris => simp [it.mem_iff]

theorem Indexed.reached_iff :
    Reached (providerImports it g) (importedBy docs uri) module ↔ DependsOn docs uri module := by
  constructor
  · intro hreached
    induction hreached with
    | root module hroot => exact .direct module hroot
    | next module imported _ himported ih =>
      obtain ⟨provider, hprovided, himported⟩ := h.mem_providerImports.1 himported
      exact .through module provider imported ih hprovided himported
  · intro hdepends
    induction hdepends with
    | direct module himported => exact .root module himported
    | through module provider imported _ hprovided himported ih =>
      exact .next module imported ih (h.mem_providerImports.2 ⟨provider, hprovided, himported⟩)

omit h

def allImports (docs : Documents) : Finset Text :=
  docs.keys.biUnion fun uri => (importedBy docs uri).toFinset

theorem mem_allImports (h : module ∈ importedBy docs uri) : module ∈ allImports docs :=
  Finset.mem_biUnion.2 ⟨uri, mem_keys (.inr h), List.mem_toFinset.2 h⟩

theorem DependsOn.mem_allImports (h : DependsOn docs uri module) : module ∈ allImports docs := by
  cases h with
  | direct _ himported => exact WorkspaceIndexes.mem_allImports himported
  | through _ _ _ _ _ himported => exact WorkspaceIndexes.mem_allImports himported

theorem Indexed.transitiveDependencyModules (h : Indexed g docs) (uri : Text) {rounds : Nat}
    (hrounds : (allImports docs).card < rounds) :
    ∃ out, transitiveDependencyModules it g rounds uri = some out ∧ out.Nodup ∧
      ∀ module, module ∈ out ↔ DependsOn docs uri module := by
  rw [WorkspaceGraphs.transitiveDependencyModules, h.documents]
  cases hdoc : docs.lookup uri with
  | none =>
    refine ⟨[], rfl, nodup_nil, fun module => iff_of_false not_mem_nil fun hdepends => ?_⟩
    have hempty : importedBy docs uri = [] := by rw [importedBy, hdoc]; rfl
    induction hdepends with
    | direct module himported =>
      rw [hempty] at himported
      exact absurd himported not_mem_nil
    | through _ _ _ _ _ _ ih => exact ih
  | some doc =>
    have hroots : importedBy docs uri = namedImports doc := by rw [importedBy, hdoc]; rfl
    have hnodes : ∀ module, Reached (providerImports it g) (namedImports doc) module →
        module ∈ (allImports docs).toList := by
      intro module hreached
      rw [← hroots, h.reached_iff] at hreached
      exact Finset.mem_toList.2 hreached.mem_allImports
    obtain ⟨n, rfl⟩ : ∃ n, rounds = n + 1 := ⟨rounds - 1, by omega⟩
    have hn : (allImports docs).toList.length ≤ n + ([] : List Text).length := by
      rw [Finset.length_toList]
      exact Nat.lt_succ_iff.1 hrounds
    obtain ⟨out, hout, hnodup, hmem⟩ := searching_start.search hnodes hn
    refine ⟨out, hout, hnodup, fun module => (hmem module).trans ?_⟩
    rw [← hroots, h.reached_iff]

theorem indexed_after (calls : List Call) : Indexed (after calls) (current calls) := by
  have hstart : Indexed .empty ∅ := by
    refine ⟨rfl, fun uri doc hdoc => ?_, inverts_empty.congr fun module uri => ?_,
      inverts_empty.congr fun module uri => ?_⟩
    · rw [lookup_empty] at hdoc
      cases hdoc
    · rw [providedBy, lookup_empty]
      exact (iff_of_false not_mem_nil id).symm
    · rw [importedBy, lookup_empty]
      exact (iff_of_false not_mem_nil id).symm
  have hgeneral : ∀ g docs, Indexed g docs → Indexed (calls.foldl WorkspaceGraph.call g)
      (calls.foldl (fun docs call =>
        match call with
        | .upsertDocument doc => docs.insert doc.uri doc
        | .removeDocument uri => docs.erase uri) docs) := by
    induction calls with
    | nil => exact fun g docs h => h
    | cons call calls ih =>
      intro g docs h
      rw [foldl_cons, foldl_cons]
      cases call with
      | upsertDocument doc => exact ih _ _ (h.upsertDocument doc)
      | removeDocument uri => exact ih _ _ (h.removeDocument uri)
  exact hgeneral _ _ hstart

/-- After any history the indexes are the inverse relations of what the current documents provide and
import, and each query tells what these documents alone do. -/
theorem workspaceGraph_exact (calls : List Call) (it : Iteration) :
    Indexed (after calls) (current calls) ∧
      (∀ module, findProviderUris it (after calls) module = (providersOf (current calls) module).sort) ∧
      (∀ uri, directDependencyModules (after calls) uri = (dependenciesOf (current calls) uri).sort) ∧
      (∀ uri, directDependentUris it (after calls) uri = (dependentsOf (current calls) uri).sort) ∧
      ∀ uri, ∃ enough, ∀ rounds, enough ≤ rounds →
        ∃ out, transitiveDependencyModules it (after calls) rounds uri = some out ∧ out.Nodup ∧
          ∀ module, module ∈ out ↔ DependsOn (current calls) uri module := by
  have h := indexed_after calls
  exact ⟨h, h.findProviderUris, h.directDependencyModules, h.directDependentUris,
    fun uri => ⟨_, fun _ hrounds => h.transitiveDependencyModules uri hrounds⟩⟩

/-- The graph keeps nothing of its history but the current documents. -/
theorem after_eq_iff (calls calls' : List Call) : after calls = after calls' ↔ current calls = current calls' := by
  have h := indexed_after calls
  have h' := indexed_after calls'
  constructor
  · intro heq
    rw [← h.documents, ← h'.documents, heq]
  · intro heq
    rw [← heq] at h'
    have hproviders := h.providers.unique h'.providers
    have himporters := h.importers.unique h'.importers
    have hdocuments := h.documents.trans h'.documents.symm
    cases hafter : after calls
    cases hafter' : after calls'
    rw [hafter, hafter'] at hproviders himporters hdocuments
    cases hproviders
    cases himporters
    cases hdocuments
    rfl

end Mlang.WorkspaceIndexes
