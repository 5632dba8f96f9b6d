import Mlang.DependencyWalks

namespace Mlang.DependencyFetching

open BracketedText (Text)
open OrderedTables DependencyLocks ManifestDependencies PackageFeatures DependencyWalks

section Records

variable (manifest : Text) (dep : DepSpec)

def recordDiffers (found : Option DependencyLockEntry) (entry : DependencyLockEntry) : Bool :=
  match found with
  | none => true
  | some found =>
    found.revision ≠ entry.revision || found.checksum ≠ entry.checksum ||
      found.resolvedVersion ≠ entry.resolvedVersion || !lockEntryMatchesDependency found entry

def recordDependencyLockEntry (revision checksum resolvedVersion : Text)
    (context : DependencyLockContext) : DependencyLockContext :=
  let found := dependencyLockEntry manifest dep context
  let entry :=
    { makeDependencyLockEntry manifest dep with
      revision := revision
      checksum := checksum
      resolvedVersion :=
        if resolvedVersion = [] then (found.1.map DependencyLockEntry.resolvedVersion).getD []
        else resolvedVersion }
  if recordDiffers found.1 entry then
    { found.2 with
      entries := insert textBefore context.entries (dependencyLockKey manifest dep.name) entry
      dirty := true }
  else found.2

def noteSource (name source : Text) (context : DependencyLockContext) :
    Except Text DependencyLockContext :=
  match find context.packageSources name with
  | some other =>
    if other ≠ source then
      .error ("Dependency source conflict for package '".toList ++ name ++ "': ".toList ++
        other ++ " and ".toList ++ source)
    else .ok { context with packageSources := insert textBefore context.packageSources name source }
  | none => .ok { context with packageSources := insert textBefore context.packageSources name source }

end Records

section Fetching

structure Downloads where
  /-- The revision of the checkout in a directory, for the one that is pinned. -/
  checkout : (offline : Bool) → (globalCacheDir : Text) → DepSpec → Text → Option Text →
    Except Text Text
  /-- The checksum of the archive, for the one that is expected; `fresh` leaves a copy out of
  account. Nothing where it cannot be computed. -/
  archive : (offline : Bool) → (globalCacheDir : Text) → (fresh : Bool) → DepSpec → Text → Text →
    Except Text Text
  toolchain : PackageManifest → WalkConfig → Except Text Unit

variable (sources : ManifestSources) (downloads : Downloads)

def checkDepSpec (dep : DepSpec) : Except Text Unit :=
  if [dep.path, dep.git, dep.url].countP (· ≠ []) ≠ 1 then
    .error ("Dependency '".toList ++ dep.name ++
      "' must select exactly one of path, git, or url".toList)
  else if dep.git = [] ∧ (dep.rev ≠ [] ∨ dep.tag ≠ []) then
    .error ("Dependency '".toList ++ dep.name ++ "' uses rev/tag without a Git source".toList)
  else if dep.rev ≠ [] ∧ dep.tag ≠ [] then
    .error ("Git dependency '".toList ++ dep.name ++ "' cannot select both rev and tag".toList)
  else .ok ()

variable (manifest : Text) (dep : DepSpec)

def fetchVendored (metadata : Table Text Text) (context : DependencyLockContext) :
    Except Text DependencyLockContext :=
  let revision := metadataValue metadata "revision"
  let checksum := metadataValue metadata "checksum"
  let record :=
    recordDependencyLockEntry manifest dep revision checksum (metadataValue metadata "version")
  let found := dependencyLockEntry manifest dep context
  match found.1 with
  | none =>
    if context.locked ∨ context.offline then
      .error ("Vendored dependency '".toList ++ dep.name ++ "' is missing from mlang.lock".toList)
    else .ok (record found.2)
  | some entry =>
    if (entry.revision ≠ [] ∧ entry.revision ≠ revision) ∨
        (entry.checksum ≠ [] ∧ entry.checksum ≠ checksum) then
      .error ("Vendored source does not match mlang.lock for '".toList ++ dep.name ++ "'".toList)
    else .ok (record found.2)

def checkLocked (context : DependencyLockContext) : Except Text DependencyLockContext :=
  let found := dependencyLockEntry manifest dep context
  match found.1 with
  | none =>
    if context.locked ∨ context.offline then
      .error ("Transitive dependency '".toList ++ dep.name ++
        "' is missing from mlang.lock; rerun 'mlang pkg lock'".toList)
    else .ok found.2
  | some entry =>
    if lockEntryMatchesDependency entry (makeDependencyLockEntry manifest dep) then .ok found.2
    else if context.locked ∨ context.offline then
      .error ("mlang.lock is out of date for transitive dependency '".toList ++ dep.name ++
        "'; rerun 'mlang pkg lock'".toList)
    else
      .ok { found.2 with
        entries := erase context.entries (dependencyLockKey manifest dep.name)
        dirty := true }

def versionLine (kind : String) (locked found : Text) : Text :=
  kind.toList ++ " dependency '".toList ++ dep.name ++ "' changed version: locked ".toList ++
    locked ++ ", found ".toList ++ found

def checkVersion (kind : String) (found : Option DependencyLockEntry) (version : Text)
    (context : DependencyLockContext) : Except Text Unit :=
  let resolved := (found.map DependencyLockEntry.resolvedVersion).getD []
  if resolved ≠ [] ∧ resolved ≠ version ∧ (context.locked ∨ context.offline) then
    .error (versionLine dep kind resolved version)
  else .ok ()

def fetchPath (child : PackageManifest) (context : DependencyLockContext) :
    Except Text DependencyLockContext :=
  let version := packageVersion child
  let found := dependencyLockEntry manifest dep context
  (checkVersion dep "Path" found.1 version context).bind fun _ =>
    (noteSource dep.name ("path:".toList ++ child.manifestPath) found.2).map
      (recordDependencyLockEntry manifest dep [] [] version)

def fetchGitDep (depsDir : Text) (context : DependencyLockContext) :
    Except Text DependencyLockContext :=
  let found := dependencyLockEntry manifest dep context
  (downloads.checkout context.offline context.globalCacheDir dep depsDir
    (found.1.map DependencyLockEntry.revision)).bind fun revision =>
      let locked := (found.1.map DependencyLockEntry.revision).getD revision
      if revision = [] then
        .error ("Failed to resolve exact Git revision for dependency '".toList ++ dep.name ++
          "'".toList)
      else if revision ≠ locked then
        .error ("Git dependency '".toList ++ dep.name ++ "' resolved to ".toList ++ revision ++
          ", expected locked revision ".toList ++ locked)
      else .ok (recordDependencyLockEntry manifest dep revision [] [] found.2)

def fetchArchiveDep (depsDir : Text) (context : DependencyLockContext) :
    Except Text DependencyLockContext :=
  if dep.archiveType ≠ "tar.gz".toList then
    .error ("Unsupported archive type for dependency '".toList ++ dep.name ++ "': ".toList ++
      dep.archiveType)
  else
    let found := dependencyLockEntry manifest dep context
    let expected := (found.1.map DependencyLockEntry.checksum).getD []
    (downloads.archive context.offline context.globalCacheDir (found.1.isNone && context.dirty)
      dep depsDir expected).bind fun checksum =>
        if checksum = [] then
          .error ("Failed to compute SHA-256 for dependency '".toList ++ dep.name ++ "'".toList)
        else if expected ≠ [] ∧ checksum ≠ expected then
          .error ("Checksum mismatch for dependency '".toList ++ dep.name ++
            "': expected sha256:".toList ++ expected ++ ", got sha256:".toList ++ checksum)
        else .ok (recordDependencyLockEntry manifest dep [] checksum [] found.2)

def fetchDep (pkg : PackageManifest) (depsDir : Text) (context : DependencyLockContext) :
    Except Text DependencyLockContext :=
  let manifest := sources.lockManifestName pkg
  (checkDepSpec dep).bind fun _ =>
    match vendoredText sources context.vendorDir dep with
    | some text => fetchVendored manifest dep (vendorMetadata text) context
    | none =>
      if context.vendorDir ≠ [] ∧ context.offline then
        .error ("Vendored dependency is missing: ".toList ++ context.vendorDir ++ '/' :: dep.name)
      else
        (checkLocked manifest dep context).bind fun context =>
          if dep.path ≠ [] then
            (loadDependencyManifest sources context.vendorDir pkg dep depsDir true).bind
              fun child => fetchPath manifest dep child context
          else if dep.git ≠ [] then fetchGitDep downloads manifest dep depsDir context
          else fetchArchiveDep downloads manifest dep depsDir context

def sourceIdentity (child : PackageManifest) : Text :=
  if dep.path ≠ [] then "path:".toList ++ child.manifestPath
  else if dep.git ≠ [] then "git:".toList ++ dep.git
  else "archive:".toList ++ dep.url

/-- The version of the manifest that was loaded for a dependency is recorded, and its source. -/
def settleVersion (child : PackageManifest) (context : DependencyLockContext) :
    Except Text DependencyLockContext :=
  let version := packageVersion child
  let found := dependencyLockEntry manifest dep context
  (checkVersion dep "MLang" found.1 version context).bind fun _ =>
    noteSource dep.name (sourceIdentity dep child)
      (match found.1 with
        | none => found.2
        | some entry =>
          recordDependencyLockEntry manifest dep entry.revision entry.checksum version found.2)

def fetchHooks : Hooks where
  enter := downloads.toolchain
  visit := fun pkg dep depsDir context => fetchDep sources downloads dep pkg depsDir context
  settle := fun pkg dep child context =>
    settleVersion (sources.lockManifestName pkg) dep child context

/-- The set of the manifests that are finished is `fetchedManifests`, that of the active ones is
`activeFetchManifests`. -/
def fetchForManifest (depth : Nat) (pkg : PackageManifest) (buildConfig : WalkConfig)
    (walk : Walk) : Outcome Walk :=
  traverseManifest sources (fetchHooks sources downloads) depth pkg buildConfig walk

end Fetching

variable (sources : ManifestSources) (downloads : Downloads)

structure RunPaths where
  rootManifest : Text
  lockPath : Text
  deriving DecidableEq

/-- What the manifests declare; the first dependency with a key is the one that counts. -/
def expectedEntries (manifests : List PackageManifest) : Lock :=
  (manifests.flatMap fun pkg => (parseSourceDeps pkg.content).map fun dep =>
    makeDependencyLockEntry (sources.lockManifestName pkg) dep).foldl (fun expected entry =>
      let key := dependencyLockKey entry.manifest entry.name
      if (find expected key).isSome then expected else insert textBefore expected key entry) []

def outOfDate (entries : Lock) (key : Text) (wanted : DependencyLockEntry) : Bool :=
  match find entries key with
  | none => !wanted.optional
  | some entry =>
    !lockEntryMatchesDependency entry wanted ||
      (wanted.source = "git".toList && entry.revision = []) ||
      (wanted.source = "archive".toList && entry.checksum = []) ||
      (wanted.source = "path".toList && entry.resolvedVersion = [])

def isStale (entries expected : Lock) : Bool := expected.any fun e => outOfDate entries e.1 e.2

def declaresVersion (pkg : PackageManifest) : Bool :=
  (findSectionTomlString pkg.content "package".toList "name".toList).getD [] ≠ [] &&
    SemanticVersions.isCompleteSemanticVersion (packageVersion pkg)

/-- `lock` is what reading the lock file gives, where there is one. -/
def readLock (paths : RunPaths) (locked offline : Bool) (lock : Option (Except Text Lock)) :
    Except Text Lock :=
  match lock with
  | some result => result
  | none =>
    if locked ∨ offline then
      .error ("mlang.lock not found at ".toList ++ paths.lockPath ++
        (if locked then "; --locked requires an existing lockfile"
          else "; --offline requires an existing lockfile").toList)
    else .ok []

def prepareDependencyLockContext (paths : RunPaths) (manifests : List PackageManifest)
    (locked offline : Bool) (lock : Option (Except Text Lock)) : Except Text DependencyLockContext :=
  (readLock paths locked offline lock).bind fun entries =>
    match manifests.find? fun pkg => !declaresVersion pkg with
    | some pkg =>
      .error ("Package manifest requires a name and complete semantic version: ".toList ++
        pkg.manifestPath)
    | none =>
      let stale := isStale entries (expectedEntries sources manifests)
      if stale ∧ (locked ∨ offline) then
        .error ("mlang.lock is out of date for ".toList ++ paths.rootManifest ++
          (if locked then "; rerun 'mlang pkg lock'"
            else "; update it before using --offline").toList)
      else
        .ok {
          rootManifest := paths.rootManifest
          lockPath := paths.lockPath
          locked := locked
          offline := offline
          entries := if stale then [] else entries
          dirty := stale || lock.isNone }

def obsoleteKeys (context : DependencyLockContext) : List Text :=
  (context.entries.filter fun e => e.1 ∉ context.observedLockKeys ∧ ¬ e.2.optional).map Prod.fst

def pruneObsolete (context : DependencyLockContext) : Except Text DependencyLockContext :=
  let obsolete := obsoleteKeys context
  if obsolete = [] ∨ context.partialGraph then .ok context
  else if context.locked ∨ context.offline then
    .error ("mlang.lock contains dependencies no longer reachable from ".toList ++
      context.rootManifest ++ "; rerun 'mlang pkg lock'".toList)
  else .ok { context with entries := obsolete.foldl erase context.entries, dirty := true }

def finishDependencyLockContext (context : DependencyLockContext) :
    Except Text (DependencyLockContext × Bool) :=
  (pruneObsolete context).bind fun context =>
    if ¬ context.dirty then .ok (context, false)
    else if context.locked ∨ context.offline then
      .error ("Refusing to modify ".toList ++ context.lockPath ++ " in locked/offline mode".toList)
    else .ok ({ context with dirty := false }, true)

def fetchManifests (depth : Nat) : List (PackageManifest × WalkConfig) → Walk → Outcome Walk
  | [], walk => .ok walk
  | (pkg, config) :: selected, walk =>
    (fetchForManifest sources downloads depth pkg config walk).bind
      (fetchManifests depth selected)

/-- A run, with the manifests of the workspace, those that are selected and their configurations. -/
structure LockRun where
  paths : RunPaths
  manifests : List PackageManifest
  selected : List (PackageManifest × WalkConfig)
  offline : Bool
  depth : Nat

structure RunResult where
  walk : Walk
  context : DependencyLockContext
  written : Bool
  deriving DecidableEq

def RunResult.lock (result : RunResult) (before : Option Lock) : Option Lock :=
  if result.written then some result.context.entries else before

def runLocking (run : LockRun) (locked : Bool) (lock : Option Lock) : Outcome RunResult :=
  ((prepareDependencyLockContext sources run.paths run.manifests locked run.offline
    (lock.map .ok)).mapError some).bind fun context =>
      (fetchManifests sources downloads run.depth run.selected
        { context := { context with
            partialGraph := run.selected.length ≠ run.manifests.length } }).bind fun walk =>
          ((finishDependencyLockContext walk.context).mapError some).map fun finished =>
            ⟨walk, finished.1, finished.2⟩

end Mlang.DependencyFetching
