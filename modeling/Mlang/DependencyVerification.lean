import Mlang.WalkCoverage

namespace Mlang.DependencyVerification

open BracketedText (Text)
open OrderedTables DependencyLocks ManifestDependencies PackageFeatures MemoTraversals List
open DependencyWalks WalkCoverage

variable (sources : ManifestSources)

def verifyVendored (dep : DepSpec) (entry : DependencyLockEntry) (metadata : Table Text Text) :
    Except Text Unit :=
  if (entry.revision ≠ [] ∧ metadataValue metadata "revision" ≠ entry.revision) ∨
      (entry.checksum ≠ [] ∧ metadataValue metadata "checksum" ≠ entry.checksum) then
    .error ("Vendored dependency verification failed for '".toList ++ dep.name ++ "'".toList)
  else .ok ()

def verifyPath (vendorDir : Text) (pkg : PackageManifest) (dep : DepSpec) (depsDir : Text)
    (entry : DependencyLockEntry) : Except Text Unit :=
  (loadDependencyManifest sources vendorDir pkg dep depsDir true).bind fun child =>
    if packageVersion child ≠ entry.resolvedVersion then
      .error ("Path dependency '".toList ++ dep.name ++ "' changed version: expected ".toList ++
        entry.resolvedVersion ++ ", got ".toList ++ packageVersion child)
    else .ok ()

/-- `checkout` compares the checkout or the archive of a dependency with its entry. -/
def verifySources (checkout : DepSpec → Text → DependencyLockEntry → Except Text Unit)
    (vendorDir : Text) (pkg : PackageManifest) (dep : DepSpec) (depsDir : Text)
    (entry : DependencyLockEntry) : Except Text Unit :=
  match vendoredText sources vendorDir dep with
  | some text => verifyVendored dep entry (vendorMetadata text)
  | none =>
    if entry.source = "path".toList then verifyPath sources vendorDir pkg dep depsDir entry
    else checkout dep depsDir entry

def verifyDependency (checkout : DepSpec → Text → DependencyLockEntry → Except Text Unit)
    (pkg : PackageManifest) (dep : DepSpec) (depsDir : Text) (context : DependencyLockContext) :
    Except Text DependencyLockContext :=
  let manifest := sources.lockManifestName pkg
  let found := dependencyLockEntry manifest dep context
  match found.1 with
  | none =>
    .error ("Dependency '".toList ++ dep.name ++ "' is missing from mlang.lock".toList)
  | some entry =>
    if ¬ lockEntryMatchesDependency entry (makeDependencyLockEntry manifest dep) then
      .error ("mlang.lock is out of date for dependency '".toList ++ dep.name ++ "'".toList)
    else
      (verifySources sources checkout context.vendorDir pkg dep depsDir entry).map fun _ => found.2

def verifyResolvedVersion (pkg : PackageManifest) (dep : DepSpec) (child : PackageManifest)
    (context : DependencyLockContext) : Except Text DependencyLockContext :=
  let version := packageVersion child
  let found := dependencyLockEntry (sources.lockManifestName pkg) dep context
  let resolved := found.1.map DependencyLockEntry.resolvedVersion
  if resolved = some version then .ok found.2
  else
    .error ("Resolved version verification failed for '".toList ++ dep.name ++
      "': expected ".toList ++ resolved.getD "<missing>".toList ++ ", got ".toList ++ version)

def verifyHooks (checkout : DepSpec → Text → DependencyLockEntry → Except Text Unit) : Hooks where
  enter := fun _ _ => .ok ()
  visit := verifyDependency sources checkout
  settle := verifyResolvedVersion sources

/-- The set of the manifests that are finished is `verifiedManifests`, that of the active ones is
`activeVerifyManifests`. -/
def verifyManifestDependencies (checkout : DepSpec → Text → DependencyLockEntry → Except Text Unit)
    (depth : Nat) (pkg : PackageManifest) (buildConfig : WalkConfig) (walk : Walk) : Outcome Walk :=
  traverseManifest sources (verifyHooks sources checkout) depth pkg buildConfig walk

section Coverage

variable {sources : ManifestSources}
  {checkout : DepSpec → Text → DependencyLockEntry → Except Text Unit}

theorem sameDirs_dependencyLockEntry (manifest : Text) (dep : DepSpec) (context : DependencyLockContext) :
    SameDirs context (dependencyLockEntry manifest dep context).2 := ⟨rfl, rfl⟩

theorem steady_verifyHooks : Steady (verifyHooks sources checkout) where
  visit := by
    intro pkg dep depsDir context context' h
    rw [verifyHooks] at h
    dsimp only at h
    rw [verifyDependency] at h
    split at h
    next => cases h
    next entry hfound =>
      split_ifs at h
      obtain ⟨_, -, rfl⟩ := map_eq_ok.1 h
      exact sameDirs_dependencyLockEntry _ _ _
  settle := by
    intro pkg dep child context context' h
    rw [verifyHooks] at h
    dsimp only at h
    rw [verifyResolvedVersion] at h
    split_ifs at h
    cases h
    exact sameDirs_dependencyLockEntry _ _ _

def Verified (sources : ManifestSources)
    (checkout : DepSpec → Text → DependencyLockEntry → Except Text Unit) (walk : Walk)
    (pkg : PackageManifest) (dep : DepSpec) : Prop :=
  ∃ visit ∈ walk.log, visit.manifest = pkg ∧ visit.dep = dep ∧
    ∃ context context', verifyDependency sources checkout pkg dep visit.depsDir context = .ok context'

def EdgesVerified (sources : ManifestSources)
    (checkout : DepSpec → Text → DependencyLockEntry → Except Text Unit) (vendorDir : Text)
    (root : PackageManifest) (config : WalkConfig) (walk : Walk) : Prop :=
  ∀ path pkg c, Chain sources vendorDir root config path pkg c →
    ∀ dep ∈ parseSourceDeps pkg.content, dependencyEnabled dep c →
      Verified sources checkout walk pkg dep

/-- The first chain to each manifest, depth first along the dependencies as they are declared,
enables there what any chain to it enables. -/
def FirstChainsSuffice (sources : ManifestSources) (vendorDir : Text) (root : PackageManifest)
    (config : WalkConfig) : Prop :=
  ∀ path pkg c, Chain sources vendorDir root config path pkg c →
    (∀ path' c', Chain sources vendorDir root config path' pkg c' → ¬ path' < path) →
    ∀ path' c', Chain sources vendorDir root config path' pkg c' →
      ∀ dep ∈ parseSourceDeps pkg.content, dependencyEnabled dep c' → dependencyEnabled dep c

theorem firstChainsSuffice_iff {vendorDir : Text} {root : PackageManifest} {config : WalkConfig} :
    FirstChainsSuffice sources vendorDir root config ↔
      FirstsSuffice (dependencyEdges sources vendorDir) (root, config) := by
  have hlabels : ∀ pkg c dep, dep ∈ labels (dependencyEdges sources vendorDir) pkg c ↔
      dep ∈ parseSourceDeps pkg.content ∧ dependencyEnabled dep c = true := by
    intro pkg c dep
    rw [labels_dependencyEdges, filterDisabledDependencies, mem_filter]
  constructor
  · intro h path pkg c hfirst path' c' hreach dep hdep
    rw [hlabels] at hdep ⊢
    refine ⟨hdep.1, h path pkg c (chain_iff_reaches.2 hfirst.reaches) ?_ path' c'
      (chain_iff_reaches.2 hreach) dep hdep.1 hdep.2⟩
    exact fun path' c' hchain => hfirst.least path' c' (chain_iff_reaches.1 hchain)
  · intro h path pkg c hchain hleast path' c' hchain' dep hdep henabled
    have hfirst : First (dependencyEdges sources vendorDir) (root, config) path pkg c :=
      ⟨chain_iff_reaches.1 hchain, fun path' c' hreach =>
        hleast path' c' (chain_iff_reaches.2 hreach)⟩
    have hmem := h path pkg c hfirst path' c' (chain_iff_reaches.1 hchain') dep
      ((hlabels _ _ _).2 ⟨hdep, henabled⟩)
    exact ((hlabels _ _ _).1 hmem).2

variable {depth : Nat} {root : PackageManifest} {config : WalkConfig}
  {context : DependencyLockContext} {walk : Walk}

theorem verified_iff_mem
    (h : verifyManifestDependencies sources checkout depth root config { context := context } =
      .ok walk) (pkg : PackageManifest) (dep : DepSpec) :
    Verified sources checkout walk pkg dep ↔ (pkg, dep) ∈ pairs walk.log := by
  constructor
  · rintro ⟨visit, hvisit, rfl, rfl, -⟩
    exact mem_map.2 ⟨visit, hvisit, rfl⟩
  · intro hmem
    obtain ⟨visit, hvisit, heq⟩ := mem_map.1 hmem
    cases heq
    obtain ⟨before, after, hpassed⟩ := traverseManifest_preserves invariant_passed depth root config _
      walk h (forall_mem_nil _) visit hvisit
    exact ⟨visit, hvisit, rfl, rfl, before, after, hpassed⟩

/-- A verification that succeeds has verified the dependencies on all chains exactly where the
first chain to each manifest enables enough, as it does under all features. -/
theorem verifyManifestDependencies_covers (hroot : OnFile sources root)
    (h : verifyManifestDependencies sources checkout depth root config { context := context } =
      .ok walk) :
    (EdgesVerified sources checkout (context.adopt config).vendorDir root config walk ↔
      FirstChainsSuffice sources (context.adopt config).vendorDir root config) ∧
    (config.allFeatures = true →
      EdgesVerified sources checkout (context.adopt config).vendorDir root config walk) := by
  obtain ⟨done, htraversed⟩ := traverseManifest_traversed steady_verifyHooks hroot h
  have hiff : EdgesVerified sources checkout (context.adopt config).vendorDir root config walk ↔
      FirstChainsSuffice sources (context.adopt config).vendorDir root config := by
    rw [firstChainsSuffice_iff, ← htraversed.covered_iff stable_dependencyEdges]
    constructor
    · intro hverified path pkg c hreach dep hdep
      rw [labels_dependencyEdges, filterDisabledDependencies, mem_filter] at hdep
      exact (verified_iff_mem h pkg dep).1
        (hverified path pkg c (chain_iff_reaches.2 hreach) dep hdep.1 hdep.2)
    · intro hcovered path pkg c hchain dep hdep henabled
      refine (verified_iff_mem h pkg dep).2
        (hcovered path pkg c (chain_iff_reaches.1 hchain) dep ?_)
      rw [labels_dependencyEdges, filterDisabledDependencies, mem_filter]
      exact ⟨hdep, henabled⟩
  exact ⟨hiff, fun hall => hiff.2 (firstChainsSuffice_iff.2 (firstsSuffice_of_allFeatures hall))⟩

end Coverage

def packageText (name : String) (body : String) : Text :=
  "[package]\nname = '".toList ++ name.toList ++ "'\nversion = '1.0.0'\n".toList ++ body.toList

/-- A package that two others depend on, the root with a feature that needs `tools`. -/
def diamondFiles : List (Text × Text) :=
  [("/app/mlang.toml".toList, packageText "app"
      "[dependencies]\nnear = \x7bpath='/near'\x7d\ncore = \x7bpath='/core', features=['extra']\x7d"),
    ("/near/mlang.toml".toList, packageText "near"
      "[dependencies]\ncore = \x7bpath='/core'\x7d"),
    ("/core/mlang.toml".toList, packageText "core"
      "[features]\nextra = ['dep:tools']\n[dependencies]\ntools = \x7bpath='/tools', optional=true\x7d"),
    ("/tools/mlang.toml".toList, packageText "tools" "")]

def diamondSources : ManifestSources where
  file := find diamondFiles
  manifestPath := fun _ _ _ dep => dep.path ++ "/mlang.toml".toList
  profiled := fun _ _ => .ok {}
  packageDepsDir := fun pkg _ => parentPath pkg.manifestPath ++ "/build/deps".toList
  lockManifestName := fun pkg =>
    if pkg.manifestPath = "/app/mlang.toml".toList then "mlang.toml".toList
    else "..".toList ++ pkg.manifestPath
  vendored := fun _ _ => none

def diamondManifest (path : String) : PackageManifest :=
  ⟨path.toList, (find diamondFiles path.toList).getD []⟩

def diamondContext (paths : List String) : DependencyLockContext where
  entries := paths.flatMap fun path =>
    let pkg := diamondManifest path
    (parseSourceDeps pkg.content).map fun dep =>
      let entry := makeDependencyLockEntry (diamondSources.lockManifestName pkg) dep
      (dependencyLockKey entry.manifest entry.name,
        { entry with resolvedVersion := "1.0.0".toList })

/-- The verification from `app`, with all features or none. -/
def verifyDiamond (allFeatures : Bool) (paths : List String) : Outcome Walk :=
  verifyManifestDependencies diamondSources (fun _ _ _ => .ok ()) 5
    (diamondManifest "/app/mlang.toml") { allFeatures := allFeatures }
    { context := diamondContext paths }

theorem onFile_diamond : OnFile diamondSources (diamondManifest "/app/mlang.toml") := by
  have hfile : (find diamondFiles "/app/mlang.toml".toList).isSome = true := by decide +kernel
  obtain ⟨content, hcontent⟩ := Option.isSome_iff_exists.1 hfile
  rw [OnFile, diamondManifest, hcontent]
  exact hcontent

theorem exists_ok {ε α : Type} {x : Except ε α} (h : x.toOption.isSome = true) : ∃ a, x = .ok a := by
  cases x with
  | error e => cases h
  | ok a => exact ⟨a, rfl⟩

def diamondTools : DepSpec where
  name := "tools".toList
  path := "/tools".toList
  build := "mlang".toList
  optional := true

/-- With all features the dependency on `tools` is met on the way through `near`. -/
theorem diamond_verified : ∃ walk, verifyDiamond true
      ["/app/mlang.toml", "/core/mlang.toml", "/near/mlang.toml"] = .ok walk ∧
    EdgesVerified diamondSources (fun _ _ _ => .ok ()) [] (diamondManifest "/app/mlang.toml")
      { allFeatures := true } walk := by
  have hresult : (verifyDiamond true
      ["/app/mlang.toml", "/core/mlang.toml", "/near/mlang.toml"]).toOption.isSome := by
    decide +kernel
  obtain ⟨walk, hwalk⟩ := exists_ok hresult
  exact ⟨walk, hwalk, (verifyManifestDependencies_covers onFile_diamond hwalk).2 rfl⟩

/-- Without features `core` is finished on the way through `near`, where `tools` is not enabled;
on the way from `app` it is. -/
theorem diamond_notVerified : ¬ ∀ (sources : ManifestSources)
    (checkout : DepSpec → Text → DependencyLockEntry → Except Text Unit) (depth : Nat)
    (root : PackageManifest) (config : WalkConfig) (context : DependencyLockContext) (walk : Walk),
    OnFile sources root →
    verifyManifestDependencies sources checkout depth root config { context := context } =
      .ok walk →
    EdgesVerified sources checkout (context.adopt config).vendorDir root config walk := by
  intro hall
  have hresult : (verifyDiamond false ["/app/mlang.toml", "/near/mlang.toml"]).toOption.any
      fun walk => (diamondManifest "/core/mlang.toml", diamondTools) ∉ pairs walk.log := by
    decide +kernel
  have hfollow : (follow (dependencyEdges diamondSources [])
      (diamondManifest "/app/mlang.toml", { allFeatures := false }) [1]).any fun place =>
        place.1 = diamondManifest "/core/mlang.toml" ∧ dependencyEnabled diamondTools place.2 := by
    decide +kernel
  have hdep : diamondTools ∈ parseSourceDeps (diamondManifest "/core/mlang.toml").content := by
    decide +kernel
  obtain ⟨walk, hwalk⟩ := exists_ok (Option.isSome_of_any hresult)
  rw [hwalk] at hresult
  obtain ⟨⟨core, config⟩, hcore, hplace⟩ := (Option.any_eq_true _ _).1 hfollow
  obtain ⟨rfl, henabled⟩ := of_decide_eq_true hplace
  have hverified := hall _ _ _ _ _ _ walk onFile_diamond hwalk [1] _ config
    (chain_iff_reaches.2 hcore) diamondTools hdep henabled
  exact of_decide_eq_true hresult ((verified_iff_mem hwalk _ _).1 hverified)

end Mlang.DependencyVerification
