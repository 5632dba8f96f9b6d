import Mlang.DependencyFetching
import Mlang.WalkCoverage

namespace Mlang.LockRecords

open BracketedText (Text)
open OrderedTables DependencyLocks PackageFeatures DependencyWalks WalkCoverage DependencyFetching Option

variable {dep : DepSpec} {context : DependencyLockContext} {manifest version revision checksum key : Text}

def observe (key : Text) (context : DependencyLockContext) : DependencyLockContext :=
  { context with observedLockKeys := context.observedLockKeys.insert key }

theorem observe_observe (key : Text) (context : DependencyLockContext) :
    observe key (observe key context) = observe key context := by
  have hinsert : (context.observedLockKeys.insert key).insert key =
      context.observedLockKeys.insert key := List.insert_of_mem List.mem_insert_self
  rw [observe, observe]
  dsimp only
  rw [hinsert]

theorem dependencyLockEntry_eq : dependencyLockEntry manifest dep context =
    (find context.entries (dependencyLockKey manifest dep.name),
      observe (dependencyLockKey manifest dep.name) context) := rfl

theorem matches_iff {entry expected : DependencyLockEntry} :
    lockEntryMatchesDependency entry expected = true ↔ { expected with
      resolvedVersion := entry.resolvedVersion
      revision := entry.revision
      checksum := entry.checksum } = entry := by
  rw [lockEntryMatchesDependency, decide_eq_true_iff]
  constructor
  · intro h
    rw [← h]
  · intro h
    rw [← h]

theorem recordDiffers_iff {found : Option DependencyLockEntry} {entry : DependencyLockEntry} :
    recordDiffers found entry = false ↔ found = some entry := by
  cases found with
  | none => exact iff_of_false nofun nofun
  | some other =>
    simp only [recordDiffers, Bool.or_eq_false_iff, decide_eq_false_iff_not, not_not,
      Bool.not_eq_false', Option.some.injEq, lockEntryMatchesDependency, decide_eq_true_iff]
    constructor
    · rintro ⟨⟨⟨hrevision, hchecksum⟩, hversion⟩, hmatches⟩
      rw [← hmatches, ← hrevision, ← hchecksum, ← hversion]
    · rintro rfl
      exact ⟨⟨⟨rfl, rfl⟩, rfl⟩, rfl⟩

def recordedEntry (manifest : Text) (dep : DepSpec) (revision checksum version : Text)
    (found : Option DependencyLockEntry) : DependencyLockEntry :=
  { makeDependencyLockEntry manifest dep with
    revision := revision
    checksum := checksum
    resolvedVersion :=
      if version = [] then (found.map DependencyLockEntry.resolvedVersion).getD [] else version }

theorem recordDependencyLockEntry_eq :
    recordDependencyLockEntry manifest dep revision checksum version context =
      if recordDiffers (find context.entries (dependencyLockKey manifest dep.name))
        (recordedEntry manifest dep revision checksum version
          (find context.entries (dependencyLockKey manifest dep.name))) then
        { observe (dependencyLockKey manifest dep.name) context with
          entries := insert textBefore context.entries (dependencyLockKey manifest dep.name)
            (recordedEntry manifest dep revision checksum version
              (find context.entries (dependencyLockKey manifest dep.name)))
          dirty := true }
      else observe (dependencyLockKey manifest dep.name) context := rfl

theorem find_recordDependencyLockEntry :
    find (recordDependencyLockEntry manifest dep revision checksum version context).entries
        (dependencyLockKey manifest dep.name) =
      some (recordedEntry manifest dep revision checksum version
        (find context.entries (dependencyLockKey manifest dep.name))) := by
  rw [recordDependencyLockEntry_eq]
  split_ifs with hdiffers
  · exact (find_insert _ _ _ _ _).trans (if_pos rfl)
  · exact recordDiffers_iff.1 (Bool.eq_false_iff.2 hdiffers)

theorem find_recordDependencyLockEntry_of_ne (hkey : key ≠ dependencyLockKey manifest dep.name) :
    find (recordDependencyLockEntry manifest dep revision checksum version context).entries key =
    find context.entries key := by
  rw [recordDependencyLockEntry_eq]
  split_ifs
  · exact (find_insert _ _ _ _ _).trans (if_neg hkey)
  · rfl

theorem recordDependencyLockEntry_same {entry : DependencyLockEntry}
    (hfound : find context.entries (dependencyLockKey manifest dep.name) = some entry)
    (hmatches : lockEntryMatchesDependency entry (makeDependencyLockEntry manifest dep) = true)
    (hrevision : entry.revision = revision) (hchecksum : entry.checksum = checksum)
    (hversion : version = [] ∨ entry.resolvedVersion = version) :
    recordDependencyLockEntry manifest dep revision checksum version context =
      observe (dependencyLockKey manifest dep.name) context := by
  have hentry : recordedEntry manifest dep revision checksum version (some entry) = entry := by
    have hkept : (if version = [] then entry.resolvedVersion else version) =
        entry.resolvedVersion := by
      rcases hversion with hempty | hsame
      · rw [if_pos hempty]
      · rw [hsame]
        exact ite_self _
    rw [recordedEntry, map_some, getD_some, hkept, ← hrevision, ← hchecksum]
    exact matches_iff.1 hmatches
  rw [recordDependencyLockEntry_eq, hfound, hentry]
  exact if_neg (Bool.eq_false_iff.1 (recordDiffers_iff.2 rfl))

variable {context' : DependencyLockContext} {source name : Text}

def frozen (lock : Lock) (context : DependencyLockContext) : DependencyLockContext :=
  { context with entries := lock, dirty := false, locked := true }

variable {lock : Lock}

theorem transparent_frozen : Transparent (frozen lock) := ⟨fun _ => rfl, fun _ _ => rfl⟩

theorem frozen_observe (key : Text) :
    frozen lock (observe key context) = observe key (frozen lock context) := rfl

theorem frozen_recordDependencyLockEntry :
    frozen lock (recordDependencyLockEntry manifest dep revision checksum version context) =
    observe (dependencyLockKey manifest dep.name) (frozen lock context) := by
  rw [recordDependencyLockEntry_eq]
  split_ifs
  · rfl
  · rfl

theorem noteSource_ok (h : noteSource name source context = .ok context') :
    (∀ other, find context.packageSources name = some other → other = source) ∧
    context' = { context with packageSources := insert textBefore context.packageSources name source } := by
  rw [noteSource] at h
  split at h
  next other hother =>
    split_ifs at h with hne
    refine ⟨fun other' h' => ?_, (Except.ok.inj h).symm⟩
    obtain rfl := Option.some.inj (hother.symm.trans h')
    exact not_not.1 hne
  next hnone =>
    refine ⟨fun other' h' => ?_, (Except.ok.inj h).symm⟩
    rw [hnone] at h'
    cases h'

theorem noteSource_of (h : ∀ other, find context.packageSources name = some other → other = source) :
    noteSource name source context = .ok
    { context with packageSources := insert textBefore context.packageSources name source } := by
  rw [noteSource]
  split
  next other hother => exact if_neg (not_not.2 (h other hother))
  next => rfl

theorem noteSource_frozen (h : noteSource name source context = .ok context') :
    noteSource name source (frozen lock context) = .ok (frozen lock context') := by
  obtain ⟨hsame, rfl⟩ := noteSource_ok h
  exact noteSource_of hsame

variable {context'' : DependencyLockContext}

structure Touched (key : Text) (context context' : DependencyLockContext) : Prop where
  others : ∀ other, other ≠ key → find context'.entries other = find context.entries other
  observed : ∀ other, other = key ∨ other ∈ context.observedLockKeys →
    other ∈ context'.observedLockKeys
  clean : context'.dirty = false → context'.entries = context.entries ∧ context.dirty = false
  dirs : SameDirs context context'
  graph : context'.partialGraph = context.partialGraph

theorem touched_observe : Touched key context (observe key context) where
  others := fun _ _ => rfl
  observed := fun _ h => List.mem_insert_iff.2 h
  clean := fun h => ⟨rfl, h⟩
  dirs := ⟨rfl, rfl⟩
  graph := rfl

theorem Touched.trans (h : Touched key context context') (h' : Touched key context' context'') :
    Touched key context context'' where
  others := fun other hne => (h'.others other hne).trans (h.others other hne)
  observed := fun other hother => h'.observed other (.inr (h.observed other hother))
  clean := fun hclean => by
    obtain ⟨hentries, hdirty⟩ := h'.clean hclean
    obtain ⟨hentries', hdirty'⟩ := h.clean hdirty
    exact ⟨hentries.trans hentries', hdirty'⟩
  dirs := h.dirs.trans h'.dirs
  graph := h'.graph.trans h.graph

theorem touched_record : Touched (dependencyLockKey manifest dep.name) context
    (recordDependencyLockEntry manifest dep revision checksum version context) := by
  refine ⟨fun other hne => find_recordDependencyLockEntry_of_ne hne, fun other hother => ?_,
    fun hclean => ?_, ?_, ?_⟩
  · have hobserved := touched_observe.observed other hother
    rw [recordDependencyLockEntry_eq]
    split_ifs
    · exact hobserved
    · exact hobserved
  · rw [recordDependencyLockEntry_eq] at hclean ⊢
    split_ifs at hclean ⊢
    exact ⟨rfl, hclean⟩
  · rw [recordDependencyLockEntry_eq]
    split_ifs
    · exact ⟨rfl, rfl⟩
    · exact ⟨rfl, rfl⟩
  · rw [recordDependencyLockEntry_eq]
    split_ifs
    · rfl
    · rfl

theorem Touched.noted (h : Touched key context context')
    (hnoted : noteSource name source context' = .ok context'') : Touched key context context'' := by
  obtain ⟨-, rfl⟩ := noteSource_ok hnoted
  exact ⟨h.others, h.observed, h.clean, h.dirs, h.graph⟩

theorem checkLocked_ok (h : checkLocked manifest dep context = .ok context') :
    Touched (dependencyLockKey manifest dep.name) context context' ∧
      find context'.entries (dependencyLockKey manifest dep.name) =
        (find context.entries (dependencyLockKey manifest dep.name)).filter fun entry =>
          lockEntryMatchesDependency entry (makeDependencyLockEntry manifest dep) := by
  rw [checkLocked, dependencyLockEntry_eq] at h
  dsimp only at h
  cases hfound : find context.entries (dependencyLockKey manifest dep.name) with
  | none =>
    rw [hfound] at h
    dsimp only at h
    split_ifs at h
    cases h
    exact ⟨touched_observe, hfound⟩
  | some entry =>
    rw [hfound] at h
    dsimp only at h
    split_ifs at h with hmatches hmode
    · cases h
      refine ⟨touched_observe, ?_⟩
      rw [filter_some, if_pos hmatches]
      exact hfound
    · cases h
      refine ⟨⟨fun other hne => ?_, touched_observe.observed, fun hclean => ?_, ⟨rfl, rfl⟩, rfl⟩, ?_⟩
      · exact (find_erase _ _ _).trans (if_neg hne)
      · cases hclean
      · rw [filter_some, if_neg hmatches]
        exact (find_erase _ _ _).trans (if_pos rfl)

variable {entry : DependencyLockEntry}

theorem checkLocked_of (hfound : find context.entries (dependencyLockKey manifest dep.name) = some entry)
    (hmatches : lockEntryMatchesDependency entry (makeDependencyLockEntry manifest dep) = true) :
    checkLocked manifest dep context = .ok (observe (dependencyLockKey manifest dep.name) context) := by
  rw [checkLocked, dependencyLockEntry_eq, hfound]
  exact if_pos hmatches

theorem checkVersion_of {kind : String} (hversion : entry.resolvedVersion = version) :
    checkVersion dep kind (some entry) version context = .ok () := by
  rw [checkVersion]
  exact if_neg fun h => h.2.1 hversion

end Mlang.LockRecords
