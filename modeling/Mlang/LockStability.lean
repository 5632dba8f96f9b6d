import Mlang.DependencyVerification
import Mlang.LockVisits

namespace Mlang.LockStability

open BracketedText (Text)
open OrderedTables DependencyLocks ManifestDependencies PackageFeatures DependencyWalks WalkCoverage List Bool
open DependencyFetching LockRecords LockVisits

variable {context start next : DependencyLockContext} {entry : DependencyLockEntry} {downloads : Downloads}
  {log : List Visit} {sources : ManifestSources} {v : Visit}

structure Alike (sources : ManifestSources) (v v' : Visit) : Prop where
  declared : declaredEntry sources v.manifest v.dep = declaredEntry sources v'.manifest v'.dep
  vendored : vendoredText sources v.after.vendorDir v.dep =
    vendoredText sources v'.after.vendorDir v'.dep
  version : v.child.map packageVersion = v'.child.map packageVersion

theorem fits_of_alike {v' : Visit} (hfits : Fits sources v entry) (h : Alike sources v v') :
    Fits sources v' entry where
  answers := by
    rw [← h.declared]
    exact hfits.answers
  vendored := by
    rw [← h.vendored]
    exact hfits.vendored
  path := by
    rw [← h.vendored]
    exact hfits.path
  git := by
    rw [← h.vendored]
    exact hfits.git
  archive := by
    rw [← h.vendored]
    exact hfits.archive
  version := by
    intro child hchild
    have hversion : v.child.map packageVersion = some (packageVersion child) := by
      rw [h.version, hchild]
      rfl
    obtain ⟨other, hother, hsame⟩ := Option.map_eq_some_iff.1 hversion
    exact (hfits.version other hother).trans hsame

structure Consistent (sources : ManifestSources) (log : List Visit) : Prop where
  alike : ∀ v ∈ log, ∀ v' ∈ log, visitKey sources v = visitKey sources v' → Alike sources v v'
  honest : ∀ v ∈ log, Honest sources v

theorem Consistent.sublist {log' : List Visit} (h : Consistent sources log') (hlog : log ⊆ log') :
    Consistent sources log :=
  ⟨fun v hv v' hv' => h.alike v (hlog hv) v' (hlog hv'), fun v hv => h.honest v (hlog hv)⟩

def EntriesKept (sources : ManifestSources) (context : DependencyLockContext) (log : List Visit) :
    Prop :=
  Consistent sources log →
    ∀ v ∈ log, ∃ entry, find context.entries (visitKey sources v) = some entry ∧
      Kept sources v entry

theorem EntriesKept.append (h : EntriesKept sources context log)
    (htouched : Touched (visitKey sources v) context next)
    (hkept : Honest sources v → ∃ entry, find next.entries (visitKey sources v) = some entry ∧ Kept sources v
      entry)
    (hsame : ∀ entry, find context.entries (visitKey sources v) = some entry → Fits sources v entry →
      next.entries = context.entries) : EntriesKept sources next (log ++ [v]) := by
  intro hconsistent w hw
  have hv : v ∈ log ++ [v] := mem_append_right _ mem_cons_self
  rcases mem_append.1 hw with hlog | hnew
  · obtain ⟨entry, hfound, hentry⟩ :=
      h (hconsistent.sublist (subset_append_left _ _)) w hlog
    refine ⟨entry, ?_, hentry⟩
    by_cases hkey : visitKey sources w = visitKey sources v
    · have hfits := fits_of_alike hentry.fits (hconsistent.alike w hw v hv hkey)
      rw [hsame entry (hkey ▸ hfound) hfits]
      exact hfound
    · rw [htouched.others _ hkey]
      exact hfound
  · obtain rfl := mem_singleton.1 hnew
    exact hkept (hconsistent.honest w hv)

theorem version_of_load {vendorDir : Text} {owner child : PackageManifest} {dep : DepSpec}
    {depsDir : Text} {required : Bool}
    (h : loadDependencyManifest sources vendorDir owner dep depsDir required = .ok child) :
    packageVersion child ≠ [] := by
  rw [loadDependencyManifest] at h
  split at h
  next => cases h
  next content hfile =>
    split at h
    next => cases h
    next haccepted =>
      cases h
      intro hversion
      rw [refusal] at haccepted
      split_ifs at haccepted with hpackage hname
      exact hname (.inr hversion)

theorem invariant_entriesKept :
    Invariant sources (fetchHooks sources downloads) (EntriesKept sources) where
  adopt := fun _ _ _ h => h
  visit := by
    intro pkg dep depsDir context context' log line hvisit hload hrequired h
    obtain ⟨before, revision, checksum, version, hrecorded⟩ := fetchDep_ok hvisit
    let v : Visit := ⟨pkg, dep, depsDir, context', none⟩
    have hv : Recorded sources v.manifest v.dep v.depsDir context before v.after revision checksum
        version := hrecorded
    have hloaded : Loaded sources v := congrArg Except.toOption hload
    exact h.append hv.steps (fun _ => kept_of_visit hv rfl)
      fun entry hfound hfits => unchanged_of_visit hv hfound hfits hloaded
  settle := by
    intro pkg dep depsDir context context' context'' log child hvisit hload hsettle h
    obtain ⟨before, revision, checksum, version, hrecorded⟩ := fetchDep_ok hvisit
    let v : Visit := ⟨pkg, dep, depsDir, context', some child⟩
    have hv : Recorded sources v.manifest v.dep v.depsDir context before v.after revision checksum
        version := hrecorded
    have hloaded : Loaded sources v := congrArg Except.toOption hload
    have hsettled : settleVersion (sources.lockManifestName v.manifest) v.dep child v.after =
        .ok context'' := hsettle
    refine h.append (hv.steps.trans (touched_settle hsettled))
      (fun hhonest => kept_of_settle hv rfl (version_of_load hload) hhonest hsettled)
      fun entry hfound hfits => ?_
    have hvisited := unchanged_of_visit hv hfound hfits hloaded
    have hfound' : find v.after.entries (visitKey sources v) = some entry := by
      rw [hvisited]
      exact hfound
    exact (unchanged_of_settle hfound' hfits rfl hsettled).trans hvisited

structure Continued (sources : ManifestSources) (start context : DependencyLockContext)
    (log : List Visit) : Prop where
  clean : context.dirty = false → context.entries = start.entries ∧ start.dirty = false
  others : ∀ key, (∀ v ∈ log, visitKey sources v ≠ key) →
    find context.entries key = find start.entries key
  observed : ∀ v ∈ log, visitKey sources v ∈ context.observedLockKeys
  graph : context.partialGraph = start.partialGraph
  children : ∀ v ∈ log, v.dep.path ≠ [] → ∃ child, v.child = some child ∧ packageVersion child ≠ []

theorem Continued.append (h : Continued sources start context log)
    (htouched : Touched (visitKey sources v) context next)
    (hchild : v.dep.path ≠ [] → ∃ child, v.child = some child ∧ packageVersion child ≠ []) :
    Continued sources start next (log ++ [v]) where
  clean := fun hdirty => by
    obtain ⟨hentries, hclean⟩ := htouched.clean hdirty
    obtain ⟨hentries', hclean'⟩ := h.clean hclean
    exact ⟨hentries.trans hentries', hclean'⟩
  others := fun key hkey => by
    obtain ⟨hlog, hv⟩ := forall_mem_append.1 hkey
    rw [htouched.others key (forall_mem_singleton.1 hv).symm]
    exact h.others key hlog
  observed := forall_mem_append.2 ⟨fun w hw => htouched.observed _ (.inr (h.observed w hw)),
    forall_mem_singleton.2 (htouched.observed _ (.inl rfl))⟩
  graph := htouched.graph.trans h.graph
  children := forall_mem_append.2 ⟨h.children, forall_mem_singleton.2 hchild⟩

theorem invariant_continued (start : DependencyLockContext) :
    Invariant sources (fetchHooks sources downloads) (Continued sources start) where
  adopt := fun _ _ _ h => ⟨h.clean, h.others, h.observed, h.graph, h.children⟩
  visit := by
    intro pkg dep depsDir context context' log line hvisit hload hrequired h
    obtain ⟨before, revision, checksum, version, hrecorded⟩ := fetchDep_ok hvisit
    let v : Visit := ⟨pkg, dep, depsDir, context', none⟩
    have hv : Recorded sources v.manifest v.dep v.depsDir context before v.after revision checksum
        version := hrecorded
    refine h.append hv.steps fun hpath => ?_
    rw [requiresManifest_of_path hpath] at hrequired
    cases hrequired
  settle := by
    intro pkg dep depsDir context context' context'' log child hvisit hload hsettle h
    obtain ⟨before, revision, checksum, version, hrecorded⟩ := fetchDep_ok hvisit
    let v : Visit := ⟨pkg, dep, depsDir, context', some child⟩
    have hv : Recorded sources v.manifest v.dep v.depsDir context before v.after revision checksum
        version := hrecorded
    have hsettled : settleVersion (sources.lockManifestName v.manifest) v.dep child v.after =
        .ok context'' := hsettle
    exact h.append (hv.steps.trans (touched_settle hsettled))
      fun _ => ⟨child, rfl, version_of_load hload⟩

variable {depth : Nat} {selected : List (PackageManifest × WalkConfig)} {walk walk' : Walk}

theorem fetchManifests_preserves {P : DependencyLockContext → List Visit → Prop}
    (hinvariant : Invariant sources (fetchHooks sources downloads) P)
    (h : fetchManifests sources downloads depth selected walk = .ok walk')
    (hwalk : P walk.context walk.log) : P walk'.context walk'.log := by
  induction selected generalizing walk with
  | nil =>
    cases h
    exact hwalk
  | cons root selected ih =>
    obtain ⟨next, hnext, h⟩ := bind_eq_ok.1 h
    exact ih h (traverseManifest_preserves hinvariant depth _ _ _ _ hnext hwalk)

theorem fetchManifests_replays {f : DependencyLockContext → DependencyLockContext}
    (hf : Transparent f) (h : fetchManifests sources downloads depth selected walk = .ok walk')
    (hreplayed : ∀ v ∈ walk'.log, Replayed sources (fetchHooks sources downloads) f v) :
    fetchManifests sources downloads depth selected (Walk.image f walk) = .ok (Walk.image f walk') := by
  induction selected generalizing walk with
  | nil =>
    cases h
    rfl
  | cons root selected ih =>
    obtain ⟨next, hnext, h⟩ := bind_eq_ok.1 h
    have hgrown : next.log <+: walk'.log := fetchManifests_preserves
      (P := fun _ log => next.log <+: log) (invariant_log next.log) h prefix_rfl
    exact bind_eq_ok.2 ⟨Walk.image f next, traverseManifest_replays hf depth _ _ _ _ hnext
      fun v hv => hreplayed v (hgrown.subset hv), ih h⟩

theorem fetchManifests_declared (h : fetchManifests sources downloads depth selected walk = .ok walk')
    (hwalk : Declared sources walk) (hselected : ∀ root ∈ selected, OnFile sources root.1) :
    ∀ root ∈ selected, ∀ dep ∈ parseSourceDeps root.1.content, dep.optional = false →
      (root.1, dep) ∈ pairs walk'.log := by
  induction selected generalizing walk with
  | nil => exact forall_mem_nil _
  | cons root selected ih =>
    obtain ⟨next, hnext, h⟩ := bind_eq_ok.1 h
    obtain ⟨hroot, hselected⟩ := forall_mem_cons.1 hselected
    have hgrown : next.log <+: walk'.log := fetchManifests_preserves
      (P := fun _ log => next.log <+: log) (invariant_log next.log) h prefix_rfl
    have hdeclared := traverseManifest_declared depth _ _ _ _ hnext hroot hwalk
    refine forall_mem_cons.2 ⟨fun dep hdep hoptional => ?_, ih h hdeclared hselected⟩
    exact (hgrown.map _).subset
      (hdeclared _ hroot (finished_of_traverseManifest hnext) dep hdep hoptional)

variable {expected : Lock} {e : Text × DependencyLockEntry} {manifests : List PackageManifest}

def expect (expected : Lock) (entry : DependencyLockEntry) : Lock :=
  if (find expected (dependencyLockKey entry.manifest entry.name)).isSome then expected
  else insert textBefore expected (dependencyLockKey entry.manifest entry.name) entry

theorem expected_of_fold {P : DependencyLockEntry → Prop} {entries : List DependencyLockEntry}
    (hentries : ∀ entry ∈ entries, P entry) (hnodup : (expected.map Prod.fst).Nodup)
    (hexpected : ∀ e ∈ expected, e.1 = dependencyLockKey e.2.manifest e.2.name ∧ P e.2) :
    ((entries.foldl expect expected).map Prod.fst).Nodup ∧ ∀ e ∈ entries.foldl expect expected,
    e.1 = dependencyLockKey e.2.manifest e.2.name ∧ P e.2 := by
  induction entries generalizing expected with
  | nil => exact ⟨hnodup, hexpected⟩
  | cons entry entries ih =>
    obtain ⟨hentry, hentries⟩ := forall_mem_cons.1 hentries
    rw [foldl_cons]
    by_cases hfound : (find expected (dependencyLockKey entry.manifest entry.name)).isSome
    · rw [expect, if_pos hfound]
      exact ih hentries hnodup hexpected
    · rw [expect, if_neg hfound]
      refine ih hentries (nodup_insert textBefore hnodup _ _) fun e he => ?_
      rcases (mem_insert _ _ _ _ _).1 he with rfl | ⟨he, -⟩
      · exact ⟨rfl, hentry⟩
      · exact hexpected e he

theorem expectedEntries_declared :
    ((expectedEntries sources manifests).map Prod.fst).Nodup ∧
      ∀ e ∈ expectedEntries sources manifests, ∃ pkg ∈ manifests, ∃ dep ∈ parseSourceDeps pkg.content,
        e.1 = lockKey sources pkg dep ∧ e.2 = declaredEntry sources pkg dep := by
  have hdeclared : ∀ entry ∈ manifests.flatMap fun pkg => (parseSourceDeps pkg.content).map fun dep =>
      makeDependencyLockEntry (sources.lockManifestName pkg) dep,
      ∃ pkg ∈ manifests, ∃ dep ∈ parseSourceDeps pkg.content,
        entry = declaredEntry sources pkg dep := by
    intro entry hentry
    obtain ⟨pkg, hpkg, hentry⟩ := mem_flatMap.1 hentry
    obtain ⟨dep, hdep, rfl⟩ := mem_map.1 hentry
    exact ⟨pkg, hpkg, dep, hdep, rfl⟩
  have hempty : (([] : Lock).map Prod.fst).Nodup := nodup_nil
  obtain ⟨hnodup, hexpected⟩ := expected_of_fold hdeclared hempty (forall_mem_nil _)
  refine ⟨hnodup, fun e he => ?_⟩
  obtain ⟨hkey, pkg, hpkg, dep, hdep, hentry⟩ := hexpected e he
  refine ⟨pkg, hpkg, dep, hdep, ?_, hentry⟩
  rw [hkey, hentry]
  rfl

theorem find_of_mem_expectedEntries (he : e ∈ expectedEntries sources manifests) :
    find (expectedEntries sources manifests) e.1 = some e.2 := by
  cases hfound : find (expectedEntries sources manifests) e.1 with
  | none => exact absurd rfl (find_eq_none.1 hfound e he)
  | some entry =>
    have hsame := eq_of_mem expectedEntries_declared.1 (mem_of_find hfound) he rfl
    rw [← hsame]

theorem isStale_eq_false {entries : Lock} :
    isStale entries expected = false ↔ ∀ e ∈ expected, outOfDate entries e.1 e.2 = false := by
  rw [isStale, any_eq_false]
  simp only [not_eq_true]

variable {pruned : DependencyLockContext} {final : DependencyLockContext} {written : Bool}

theorem find_foldl_erase (keys : List Text) (entries : Lock) (key : Text) :
    find (keys.foldl erase entries) key = if key ∈ keys then none else find entries key := by
  induction keys generalizing entries with
  | nil => rfl
  | cons other keys ih =>
    rw [foldl_cons, ih, find_erase]
    by_cases hkey : key ∈ keys
    · rw [if_pos hkey, if_pos (mem_cons_of_mem _ hkey)]
    · rw [if_neg hkey]
      by_cases hother : key = other
      · rw [if_pos hother, if_pos (mem_cons.2 (.inl hother))]
      · rw [if_neg hother, if_neg (fun h => (mem_cons.1 h).elim hother hkey)]

theorem mem_foldl_erase {keys : List Text} {entries : Lock} (h : e ∈ keys.foldl erase entries) :
    e ∈ entries ∧ e.1 ∉ keys := by
  induction keys generalizing entries with
  | nil => exact ⟨h, not_mem_nil⟩
  | cons other keys ih =>
    obtain ⟨hmem, hkeys⟩ := ih h
    obtain ⟨hmem, hother⟩ := (mem_erase _ _ _).1 hmem
    exact ⟨hmem, fun hcons => (mem_cons.1 hcons).elim hother hkeys⟩

theorem mem_obsoleteKeys {key : Text} :
    key ∈ obsoleteKeys context ↔ ∃ entry, (key, entry) ∈ context.entries ∧
      key ∉ context.observedLockKeys ∧ entry.optional = false := by
  rw [obsoleteKeys, mem_map]
  constructor
  · rintro ⟨e, he, rfl⟩
    obtain ⟨hmem, hobsolete⟩ := mem_filter.1 he
    obtain ⟨hobserved, hoptional⟩ := of_decide_eq_true hobsolete
    exact ⟨e.2, hmem, hobserved, eq_false_iff.2 hoptional⟩
  · rintro ⟨entry, hmem, hobserved, hoptional⟩
    refine ⟨(key, entry), mem_filter.2 ⟨hmem, decide_eq_true ⟨hobserved, ?_⟩⟩, rfl⟩
    exact eq_false_iff.1 hoptional

structure Pruned (context pruned : DependencyLockContext) : Prop where
  clean : pruned.dirty = false → pruned = context
  partly : context.partialGraph = true → pruned = context
  kept : ∀ key, find pruned.entries key = find context.entries key ∨
    (key ∉ context.observedLockKeys ∧ find pruned.entries key = none)
  current : context.partialGraph = true ∨ ∀ e ∈ pruned.entries,
    e.1 ∈ context.observedLockKeys ∨ e.2.optional = true

theorem pruneObsolete_ok (h : pruneObsolete context = .ok pruned) : Pruned context pruned := by
  rw [pruneObsolete] at h
  split_ifs at h with hcurrent hmode
  · cases h
    refine ⟨fun _ => rfl, fun _ => rfl, fun _ => .inl rfl, ?_⟩
    rcases hcurrent with hnone | hpartial
    · refine .inr fun e he => ?_
      by_contra hobsolete
      obtain ⟨hobserved, hoptional⟩ := not_or.1 hobsolete
      have hmem : e.1 ∈ obsoleteKeys context :=
        mem_obsoleteKeys.2 ⟨e.2, he, hobserved, eq_false_iff.2 hoptional⟩
      rw [hnone] at hmem
      cases hmem
    · exact .inl hpartial
  · cases h
    refine ⟨fun hdirty => ?_, fun hpartial => absurd (.inr hpartial) hcurrent, fun key => ?_,
      .inr fun e he => ?_⟩
    · cases hdirty
    · dsimp only
      rw [find_foldl_erase]
      split_ifs with hkey
      · obtain ⟨_, -, hobserved, -⟩ := mem_obsoleteKeys.1 hkey
        exact .inr ⟨hobserved, rfl⟩
      · exact .inl rfl
    · obtain ⟨hmem, hkey⟩ := mem_foldl_erase he
      by_contra hobsolete
      obtain ⟨hobserved, hoptional⟩ := not_or.1 hobsolete
      exact hkey (mem_obsoleteKeys.2 ⟨e.2, hmem, hobserved, eq_false_iff.2 hoptional⟩)

theorem finishDependencyLockContext_ok (h : finishDependencyLockContext context = .ok (final, written)) :
    ∃ pruned, Pruned context pruned ∧ final.entries = pruned.entries ∧
      (written = false → pruned.dirty = false) := by
  obtain ⟨pruned, hpruned, h⟩ := bind_eq_ok.1 h
  refine ⟨pruned, pruneObsolete_ok hpruned, ?_⟩
  split_ifs at h with hdirty hmode
  · cases h
    exact ⟨rfl, fun hwritten => by cases hwritten⟩
  · cases h
    exact ⟨rfl, fun _ => eq_false_iff.2 hdirty⟩

theorem finishDependencyLockContext_clean (hdirty : context.dirty = false)
    (hcurrent : context.partialGraph = true ∨ ∀ e ∈ context.entries,
      e.1 ∈ context.observedLockKeys ∨ e.2.optional = true) :
    finishDependencyLockContext context = .ok (context, false) := by
  have hpruned : pruneObsolete context = .ok context := by
    refine if_pos ?_
    rcases hcurrent with hpartial | hcurrent
    · exact .inr hpartial
    · refine .inl (eq_nil_iff_forall_not_mem.2 fun key hkey => ?_)
      obtain ⟨entry, hmem, hobserved, hoptional⟩ := mem_obsoleteKeys.1 hkey
      rcases hcurrent _ hmem with h | h
      · exact hobserved h
      · exact eq_false_iff.1 hoptional h
  rw [finishDependencyLockContext]
  refine bind_eq_ok.2 ⟨context, hpruned, ?_⟩
  exact if_pos (eq_false_iff.1 hdirty)

variable {run : LockRun} {lock : Option Lock} {result : RunResult}

def staleBefore (sources : ManifestSources) (run : LockRun) (lock : Option Lock) : Bool :=
  isStale (lock.getD []) (expectedEntries sources run.manifests)

def startContext (run : LockRun) (locked : Bool) (entries : Lock) (dirty : Bool) :
    DependencyLockContext where
  rootManifest := run.paths.rootManifest
  lockPath := run.paths.lockPath
  locked := locked
  offline := run.offline
  entries := entries
  dirty := dirty
  partialGraph := run.selected.length ≠ run.manifests.length

theorem readLock_ok {paths : RunPaths} {locked offline : Bool} {entries : Lock}
    (h : readLock paths locked offline (lock.map .ok) = .ok entries) : entries = lock.getD [] := by
  cases lock with
  | none =>
    rw [Option.map_none, readLock] at h
    split_ifs at h
    exact (Except.ok.inj h).symm
  | some entries' => exact (Except.ok.inj h).symm

theorem runLocking_ok (h : runLocking sources downloads run false lock = .ok result) :
    (run.manifests.find? fun pkg => !declaresVersion pkg) = none ∧
      fetchManifests sources downloads run.depth run.selected
        { context := startContext run false
            (if staleBefore sources run lock = true then [] else lock.getD [])
            (staleBefore sources run lock || lock.isNone) } = .ok result.walk ∧
      finishDependencyLockContext result.walk.context = .ok (result.context, result.written) := by
  obtain ⟨context, hprepared, h⟩ := bind_eq_ok.1 h
  obtain ⟨walk, hwalk, h⟩ := bind_eq_ok.1 h
  obtain ⟨finished, hfinished, rfl⟩ := map_eq_ok.1 h
  obtain ⟨entries, hread, hprepared⟩ := bind_eq_ok.1 (mapError_eq_ok.1 hprepared)
  obtain rfl := readLock_ok hread
  split at hprepared
  next => cases hprepared
  next hversions =>
    refine ⟨hversions, ?_, mapError_eq_ok.1 hfinished⟩
    dsimp only at hprepared
    by_cases hmode : isStale (lock.getD []) (expectedEntries sources run.manifests) = true ∧
        (false = true ∨ run.offline = true)
    · rw [if_pos hmode] at hprepared
      cases hprepared
    · rw [if_neg hmode] at hprepared
      cases hprepared
      rw [Option.isNone_map] at hwalk
      exact hwalk

theorem runLocking_of {entries : Lock} {walk : Walk} {final : DependencyLockContext} {written : Bool}
    (hversions : (run.manifests.find? fun pkg => !declaresVersion pkg) = none)
    (hcurrent : isStale entries (expectedEntries sources run.manifests) = false)
    (hwalk : fetchManifests sources downloads run.depth run.selected
      { context := startContext run true entries false } = .ok walk)
    (hfinished : finishDependencyLockContext walk.context = .ok (final, written)) :
    runLocking sources downloads run true (some entries) = .ok ⟨walk, final, written⟩ := by
  have hprepared : prepareDependencyLockContext sources run.paths run.manifests true run.offline
      ((some entries).map .ok) =
        .ok { startContext run true entries false with partialGraph := false } := by
    refine bind_eq_ok.2 ⟨entries, rfl, ?_⟩
    rw [hversions, hcurrent]
    rfl
  exact bind_eq_ok.2 ⟨_, mapError_eq_ok.2 hprepared, bind_eq_ok.2 ⟨walk, hwalk,
    map_eq_ok.2 ⟨(final, written), mapError_eq_ok.2 hfinished, rfl⟩⟩⟩

/-- What the visits of a run and its manifests have to agree in, for the lock to be accepted. -/
structure Relockable (sources : ManifestSources) (run : LockRun) (lock : Option Lock)
    (log : List Visit) : Prop extends Consistent sources log where
  /-- Of the dependencies that are declared with a key, the first one is like those visited. -/
  first : ∀ v ∈ log, ∀ wanted,
    find (expectedEntries sources run.manifests) (visitKey sources v) = some wanted →
      declaredEntry sources v.manifest v.dep = wanted
  /-- A vendored package that a manifest of the run declares states its revision or checksum. -/
  marked : ∀ v ∈ log, ∀ wanted text,
    find (expectedEntries sources run.manifests) (visitKey sources v) = some wanted →
      vendoredText sources v.after.vendorDir v.dep = some text →
        (v.dep.path = [] → v.dep.git ≠ [] → metadataValue (vendorMetadata text) "revision" ≠ []) ∧
        (v.dep.path = [] → v.dep.git = [] → metadataValue (vendorMetadata text) "checksum" ≠ [])
  /-- Where some manifests are left out, the lock was up to date or nothing is missed. -/
  visited : run.selected.length ≠ run.manifests.length → staleBefore sources run lock = true →
    ∀ e ∈ expectedEntries sources run.manifests, e.2.optional = false →
      ∃ v ∈ log, visitKey sources v = e.1

theorem lock_of_run
    (hstart : start = startContext run false (if staleBefore sources run lock = true then [] else lock.getD
      []) (staleBefore sources run lock || lock.isNone))
    (hcontinued : Continued sources start context log)
    (hfinished : finishDependencyLockContext context = .ok (result.context, result.written)) :
    result.lock lock = some result.context.entries := by
  obtain ⟨pruned, hpruned, hentries, hwritten⟩ := finishDependencyLockContext_ok hfinished
  rw [RunResult.lock]
  split_ifs with hwrites
  · rfl
  · have hclean := hwritten (eq_false_iff.2 hwrites)
    obtain rfl := hpruned.clean hclean
    obtain ⟨hkept, hstartClean⟩ := hcontinued.clean hclean
    rw [hstart] at hkept hstartClean
    obtain ⟨hstale, hsome⟩ := or_eq_false_iff.1 hstartClean
    rw [hentries, hkept]
    dsimp only [startContext]
    rw [if_neg (eq_false_iff.1 hstale)]
    cases lock with
    | none => cases hsome
    | some entries => rfl

theorem outOfDate_of_fits {wanted : DependencyLockEntry} {entries : Lock}
    (hrelockable : Relockable sources run lock log) (hv : v ∈ log)
    (hchild : v.dep.path ≠ [] → ∃ child, v.child = some child ∧ packageVersion child ≠ [])
    (hwanted : find (expectedEntries sources run.manifests) (visitKey sources v) = some wanted)
    (hfound : find entries (visitKey sources v) = some entry) (hfits : Fits sources v entry) :
    outOfDate entries (visitKey sources v) wanted = false := by
  obtain rfl := hrelockable.first v hv wanted hwanted
  have hmarked := fun text => hrelockable.marked v hv _ text hwanted
  have hsource := source_of_matches hfits.answers
  rw [outOfDate, hfound]
  dsimp only
  rw [hfits.answers]
  by_cases hpath : v.dep.path ≠ []
  · obtain ⟨child, hsome, hversion⟩ := hchild hpath
    rw [← hfits.version child hsome] at hversion
    rw [source_path hpath]
    simp [hversion]
  · have hpath := not_not.1 hpath
    by_cases hgit : v.dep.git ≠ []
    · have hrevision : entry.revision ≠ [] := by
        cases htext : vendoredText sources v.after.vendorDir v.dep with
        | none => exact (hfits.git htext (hsource.trans (source_git hpath hgit))).1
        | some text =>
          rw [(hfits.vendored text htext).1]
          exact (hmarked text htext).1 hpath hgit
      rw [source_git hpath hgit]
      simp [hrevision]
    · have hgit := not_not.1 hgit
      have hchecksum : entry.checksum ≠ [] := by
        cases htext : vendoredText sources v.after.vendorDir v.dep with
        | none => exact (hfits.archive htext (hsource.trans (source_archive hpath hgit))).2
        | some text =>
          rw [(hfits.vendored text htext).2.1]
          exact (hmarked text htext).2 hpath hgit
      rw [source_archive hpath hgit]
      simp [hchecksum]

theorem current_after {walk : Walk} (hrelockable : Relockable sources run lock log)
    (hstart : start = startContext run false (if staleBefore sources run lock = true then [] else lock.getD
      []) (staleBefore sources run lock || lock.isNone))
    (hcontinued : Continued sources start context log) (hpruned : Pruned context pruned)
    (hkept : ∀ v ∈ log, ∃ entry, find pruned.entries (visitKey sources v) = some entry ∧ Kept sources v entry)
    (hlog : walk.log = log)
    (hdeclared : run.selected.length = run.manifests.length → ∀ pkg ∈ run.manifests, ∀ dep ∈ parseSourceDeps
      pkg.content, dep.optional = false → (pkg, dep) ∈ pairs walk.log)
    : isStale pruned.entries (expectedEntries sources run.manifests) = false := by
  subst hlog
  refine isStale_eq_false.2 fun e he => ?_
  have hwanted := find_of_mem_expectedEntries he
  by_cases hvisited : ∃ v ∈ walk.log, visitKey sources v = e.1
  · obtain ⟨v, hv, hkey⟩ := hvisited
    obtain ⟨entry, hfound, hentry⟩ := hkept v hv
    rw [← hkey] at hwanted ⊢
    exact outOfDate_of_fits hrelockable hv (hcontinued.children v hv) hwanted hfound hentry.fits
  · have hunvisited : ∀ v ∈ walk.log, visitKey sources v ≠ e.1 :=
      fun v hv hkey => hvisited ⟨v, hv, hkey⟩
    have hbefore : find context.entries e.1 =
        if staleBefore sources run lock = true then none else find (lock.getD []) e.1 := by
      rw [hcontinued.others e.1 hunvisited, hstart]
      dsimp only [startContext]
      split_ifs
      · rfl
      · rfl
    by_cases hoptional : e.2.optional = true
    · rcases hpruned.kept e.1 with hsame | ⟨-, hnone⟩
      · by_cases hstale : staleBefore sources run lock = true
        · rw [outOfDate, hsame, hbefore, if_pos hstale, hoptional]
          rfl
        · rw [outOfDate, hsame, hbefore, if_neg hstale]
          exact isStale_eq_false.1 (eq_false_iff.2 hstale) e he
      · rw [outOfDate, hnone, hoptional]
        rfl
    · have hoptional := eq_false_iff.2 hoptional
      by_cases hfull : run.selected.length = run.manifests.length
      · obtain ⟨pkg, hpkg, dep, hdep, hkey, hentry⟩ := expectedEntries_declared.2 e he
        rw [hentry] at hoptional
        obtain ⟨v, hv, hpair⟩ := mem_map.1 (hdeclared hfull pkg hpkg dep hdep hoptional)
        cases hpair
        exact absurd hkey.symm (hunvisited v hv)
      · have hcurrent : staleBefore sources run lock ≠ true := fun hstale =>
          hvisited (hrelockable.visited hfull hstale e he hoptional)
        have hpartial : context.partialGraph = true := by
          rw [hcontinued.graph, hstart]
          exact decide_eq_true hfull
        rw [hpruned.partly hpartial, outOfDate, hbefore, if_neg hcurrent]
        exact isStale_eq_false.1 (eq_false_iff.2 hcurrent) e he

/-- A run that may change the lock leaves one that the same run accepts as it stands. -/
theorem runLocking_stable (hrepeat : Repeatable downloads)
    (hmanifests : ∀ pkg ∈ run.manifests, OnFile sources pkg)
    (hselected : (run.selected.map Prod.fst).Sublist run.manifests)
    (hrun : runLocking sources downloads run false lock = .ok result)
    (hrelockable : Relockable sources run lock result.walk.log) :
    ∃ again, runLocking sources downloads run true (result.lock lock) = .ok again ∧
      again.written = false ∧ again.lock (result.lock lock) = result.lock lock ∧
      again.walk.log.map Visit.manifest = result.walk.log.map Visit.manifest ∧
      again.walk.log.map Visit.dep = result.walk.log.map Visit.dep ∧
      (∀ v ∈ again.walk.log, v.after.dirty = false ∧ some v.after.entries = result.lock lock) ∧
      again.context.dirty = false ∧ some again.context.entries = result.lock lock := by
  obtain ⟨hversions, hwalk, hfinished⟩ := runLocking_ok hrun
  obtain ⟨start, hstart⟩ : ∃ start, start = startContext run false
      (if staleBefore sources run lock = true then [] else lock.getD [])
      (staleBefore sources run lock || lock.isNone) := ⟨_, rfl⟩
  rw [← hstart] at hwalk
  obtain ⟨pruned, hpruned, hentries, -⟩ := finishDependencyLockContext_ok hfinished
  have hcontinued : Continued sources start result.walk.context result.walk.log := by
    refine fetchManifests_preserves (invariant_continued start) hwalk
      ⟨fun h => ⟨rfl, h⟩, fun _ _ => rfl, forall_mem_nil _, rfl, forall_mem_nil _⟩
  have hkept : ∀ v ∈ result.walk.log, ∃ entry,
      find pruned.entries (visitKey sources v) = some entry ∧ Kept sources v entry := by
    intro v hv
    have hinvariant : EntriesKept sources result.walk.context result.walk.log :=
      fetchManifests_preserves invariant_entriesKept hwalk fun _ => forall_mem_nil _
    obtain ⟨entry, hfound, hentry⟩ := hinvariant hrelockable.toConsistent v hv
    rcases hpruned.kept (visitKey sources v) with hsame | ⟨hobserved, -⟩
    · exact ⟨entry, hsame.trans hfound, hentry⟩
    · exact absurd (hcontinued.observed v hv) hobserved
  have hlock : result.lock lock = some result.context.entries :=
    lock_of_run hstart hcontinued hfinished
  have hdeclared : run.selected.length = run.manifests.length →
      ∀ pkg ∈ run.manifests, ∀ dep ∈ parseSourceDeps pkg.content, dep.optional = false →
        (pkg, dep) ∈ pairs result.walk.log := by
    intro hfull pkg hpkg
    have hsame : run.selected.map Prod.fst = run.manifests :=
      hselected.eq_of_length (by rw [length_map, hfull])
    have hroots : ∀ root ∈ run.selected, OnFile sources root.1 := fun root hroot =>
      hmanifests _ (hsame ▸ mem_map_of_mem hroot)
    rw [← hsame] at hpkg
    obtain ⟨root, hroot, rfl⟩ := mem_map.1 hpkg
    exact fetchManifests_declared hwalk (fun _ _ h => nomatch h) hroots root hroot
  have hcurrent := current_after hrelockable hstart hcontinued hpruned hkept rfl hdeclared
  rw [← hentries] at hcurrent hkept
  have hagain := fetchManifests_replays transparent_frozen hwalk fun v hv => by
    obtain ⟨entry, hfound, hentry⟩ := hkept v hv
    exact replayed_of_kept hrepeat hfound hentry
  have hfrozen : Walk.image (frozen result.context.entries) { context := start } =
      { context := startContext run true result.context.entries false } := by
    rw [hstart]
    rfl
  rw [hfrozen] at hagain
  have hclean : finishDependencyLockContext
      (Walk.image (frozen result.context.entries) result.walk).context =
        .ok ((Walk.image (frozen result.context.entries) result.walk).context, false) := by
    refine finishDependencyLockContext_clean rfl ?_
    have hpresent := hpruned.current
    rw [← hentries] at hpresent
    exact hpresent
  refine ⟨⟨Walk.image (frozen result.context.entries) result.walk,
    (Walk.image (frozen result.context.entries) result.walk).context, false⟩, ?_, rfl, rfl, ?_, ?_,
    ?_, rfl, ?_⟩
  · rw [hlock]
    exact runLocking_of hversions hcurrent hagain hclean
  · exact map_map
  · exact map_map
  · intro v hv
    obtain ⟨w, -, rfl⟩ := mem_map.1 hv
    exact ⟨rfl, hlock.symm⟩
  · exact hlock.symm

open DependencyVerification (packageText exists_ok)

def workspaceFiles : List (Text × Text) :=
  [("/app/mlang.toml".toList, packageText "app"
      "[dependencies]\nnear = \x7bpath='/near'\x7d\nlib = \x7bgit='u'\x7d"),
    ("/near/mlang.toml".toList, packageText "near" ""),
    ("/tool/mlang.toml".toList, packageText "tool"
      "[dependencies]\nnear = \x7bpath='/near'\x7d")]

def workspaceSources : ManifestSources where
  file := find workspaceFiles
  manifestPath := fun _ _ depsDir dep =>
    (if dep.path ≠ [] then dep.path else depsDir ++ dep.name) ++ "/mlang.toml".toList
  profiled := fun _ _ => .ok {}
  packageDepsDir := fun pkg _ => parentPath pkg.manifestPath ++ "/deps/".toList
  lockManifestName := fun pkg => "..".toList ++ pkg.manifestPath
  vendored := fun _ _ => none

/-- The remote head is at `r1`; the archives are all alike. -/
def workspaceDownloads : Downloads where
  checkout := fun _ _ _ _ pinned => .ok (pinned.getD "r1".toList)
  archive := fun _ _ _ _ _ _ => .ok "c1".toList
  toolchain := fun _ _ => .ok ()

def workspaceManifest (path : String) : PackageManifest :=
  ⟨path.toList, (find workspaceFiles path.toList).getD []⟩

def workspaceRun (manifests selected : List String) : LockRun where
  paths := ⟨"/mlang.toml".toList, "/mlang.lock".toList⟩
  manifests := manifests.map workspaceManifest
  selected := selected.map fun path => (workspaceManifest path, { allFeatures := true })
  offline := false
  depth := 3

theorem repeatable_workspaceDownloads : Repeatable workspaceDownloads where
  checkout := by
    intro offline cache dep depsDir pinned revision h
    rfl
  archive := by
    intro offline cache fresh dep depsDir expected checksum h
    exact h

theorem onFile_workspace {path : String} (h : (find workspaceFiles path.toList).isSome = true) :
    OnFile workspaceSources (workspaceManifest path) := by
  obtain ⟨content, hcontent⟩ := Option.isSome_iff_exists.1 h
  rw [OnFile, workspaceManifest, hcontent]
  exact hcontent

def relocks (run : LockRun) (log : List Visit) : Bool :=
  (log.map (visitKey workspaceSources)).Nodup && log.all fun v =>
    vendoredText workspaceSources v.after.vendorDir v.dep = none &&
      (find (expectedEntries workspaceSources run.manifests)
        (visitKey workspaceSources v)).all (declaredEntry workspaceSources v.manifest v.dep = ·)

theorem relockable_of_relocks (hfull : run.selected.length = run.manifests.length)
    (h : relocks run log = true) : Relockable workspaceSources run lock log := by
  obtain ⟨hkeys, hall⟩ := (and_eq_true _ _).mp h
  have hv : ∀ v ∈ log, vendoredText workspaceSources v.after.vendorDir v.dep = none ∧
      (find (expectedEntries workspaceSources run.manifests) (visitKey workspaceSources v)).all
        (declaredEntry workspaceSources v.manifest v.dep = ·) = true := by
    intro v hmem
    obtain ⟨htext, hdeclared⟩ := (and_eq_true _ _).mp (all_eq_true.1 hall v hmem)
    exact ⟨of_decide_eq_true htext, hdeclared⟩
  refine ⟨⟨fun v hmem v' hmem' hkey => ?_, fun v hmem text child htext => ?_⟩,
    fun v hmem wanted hwanted => ?_, fun v hmem wanted text _ htext => ?_,
    fun hpartial => absurd hfull hpartial⟩
  · obtain rfl := inj_on_of_nodup_map (of_decide_eq_true hkeys) hmem hmem' hkey
    exact ⟨rfl, rfl, rfl⟩
  · cases (hv v hmem).1.symm.trans htext
  · have hdeclared := (hv v hmem).2
    rw [hwanted] at hdeclared
    exact of_decide_eq_true hdeclared
  · cases (hv v hmem).1.symm.trans htext

/-- The lock of a run from all packages is accepted. -/
theorem workspace_locked : ∃ result, runLocking workspaceSources workspaceDownloads
      (workspaceRun ["/app/mlang.toml"] ["/app/mlang.toml"]) false none = .ok result ∧
    ∃ again, runLocking workspaceSources workspaceDownloads
      (workspaceRun ["/app/mlang.toml"] ["/app/mlang.toml"]) true (result.lock none) = .ok again ∧
      again.written = false := by
  have hresult : (runLocking workspaceSources workspaceDownloads
      (workspaceRun ["/app/mlang.toml"] ["/app/mlang.toml"]) false none).toOption.any fun result =>
        relocks (workspaceRun ["/app/mlang.toml"] ["/app/mlang.toml"]) result.walk.log := by
    decide +kernel
  obtain ⟨result, hrun⟩ := exists_ok (Option.isSome_of_any hresult)
  rw [hrun] at hresult
  have hmanifests : ∀ pkg ∈ (workspaceRun ["/app/mlang.toml"] ["/app/mlang.toml"]).manifests,
      OnFile workspaceSources pkg := by
    intro pkg hpkg
    rw [mem_singleton.1 hpkg]
    exact onFile_workspace (by decide +kernel)
  obtain ⟨again, hagain, hwritten, -⟩ := runLocking_stable repeatable_workspaceDownloads hmanifests
    (List.Sublist.refl _) hrun (relockable_of_relocks rfl hresult)
  exact ⟨result, hrun, again, hagain, hwritten⟩

/-- A run from one of two packages leaves out what the other one declares, and the lock is stale. -/
theorem workspace_refused : ¬ ∀ (sources : ManifestSources) (downloads : Downloads) (run : LockRun)
    (lock : Option Lock) (result : RunResult), Repeatable downloads →
    (∀ pkg ∈ run.manifests, OnFile sources pkg) → (run.selected.map Prod.fst).Sublist run.manifests →
    runLocking sources downloads run false lock = .ok result →
    ∃ again, runLocking sources downloads run true (result.lock lock) = .ok again := by
  intro hall
  have hresult : (runLocking workspaceSources workspaceDownloads
      (workspaceRun ["/app/mlang.toml", "/tool/mlang.toml"] ["/app/mlang.toml"]) false
      none).toOption.any fun result => (runLocking workspaceSources workspaceDownloads
        (workspaceRun ["/app/mlang.toml", "/tool/mlang.toml"] ["/app/mlang.toml"]) true
        (result.lock none)).toOption.isNone := by
    decide +kernel
  obtain ⟨result, hrun⟩ := exists_ok (Option.isSome_of_any hresult)
  rw [hrun] at hresult
  have hmanifests : ∀ pkg ∈ (workspaceRun ["/app/mlang.toml", "/tool/mlang.toml"]
      ["/app/mlang.toml"]).manifests, OnFile workspaceSources pkg := by
    intro pkg hpkg
    rcases mem_cons.1 hpkg with rfl | hpkg
    · exact onFile_workspace (by decide +kernel)
    · rw [mem_singleton.1 hpkg]
      exact onFile_workspace (by decide +kernel)
  obtain ⟨again, hagain⟩ := hall _ _ _ _ result repeatable_workspaceDownloads hmanifests
    (List.Sublist.cons_cons _ (nil_sublist _)) hrun
  have hnone : (runLocking workspaceSources workspaceDownloads
      (workspaceRun ["/app/mlang.toml", "/tool/mlang.toml"] ["/app/mlang.toml"]) true
      (result.lock none)).toOption.isNone = true := hresult
  rw [hagain] at hnone
  cases hnone

end Mlang.LockStability
