import Mlang.MemoTraversals
import Mlang.PackageFeatures
import Mlang.SemanticVersions

namespace Mlang.DependencyWalks

open BracketedText (Text trimCopy)
open OrderedTables DependencyLocks ManifestDependencies PackageFeatures MemoTraversals

structure ManifestSources where
  /-- The content of a regular file. -/
  file : Text → Option Text
  /-- The manifest in `dep_source_dir`, for a vendor directory, an owner and its directory of
  dependencies. -/
  manifestPath : Text → PackageManifest → Text → DepSpec → Text
  /-- The directories that a manifest sets under the profile of a name. -/
  profiled : PackageManifest → Text → Except Text Directories
  packageDepsDir : PackageManifest → Directories → Text
  lockManifestName : PackageManifest → Text
  /-- What the `.mlang-vendor-source` of a vendored package holds, where the package is there. -/
  vendored : Text → Text → Option Text

/-- The assignments of a `.mlang-vendor-source`. -/
def vendorMetadata (text : Text) : Table Text Text :=
  (TomlText.textLines text).foldl (fun metadata line =>
    if '=' ∈ line then
      insert textBefore metadata (trimCopy (line.takeWhile (· ≠ '=')))
        (trimCopy (line.dropWhile (· ≠ '=')).tail)
    else metadata) []

def vendoredText (sources : ManifestSources) (vendorDir : Text) (dep : DepSpec) : Option Text :=
  if vendorDir = [] then none else sources.vendored vendorDir dep.name

def metadataValue (metadata : Table Text Text) (key : String) : Text :=
  (find metadata key.toList).getD []

variable (sources : ManifestSources)

def packageVersion (pkg : PackageManifest) : Text :=
  (findSectionTomlString pkg.content "package".toList "version".toList).getD []

def refusal (owner : PackageManifest) (dep : DepSpec) (manifestPath content : Text) : Option Text :=
  let packageName := (findSectionTomlString content "package".toList "name".toList).getD []
  let version := (findSectionTomlString content "package".toList "version".toList).getD []
  if content = [] ∨ ¬ hasSection content "package".toList then
    some ("Dependency manifest must declare [package]: ".toList ++ manifestPath)
  else if packageName = [] ∨ version = [] then
    some ("MLang dependency manifest requires package name and version: ".toList ++ manifestPath)
  else if packageName ≠ dep.name then
    some ("Dependency key '".toList ++ dep.name ++ "' does not match package name '".toList ++
      packageName ++ "' in ".toList ++ manifestPath)
  else if ¬ SemanticVersions.isCompleteSemanticVersion version then
    some ("Package '".toList ++ dep.name ++ "' has invalid semantic version '".toList ++ version ++
      "'".toList)
  else if dep.versionRequirement ≠ [] ∧
      ¬ SemanticVersions.semanticVersionSatisfies version dep.versionRequirement then
    some ("Package '".toList ++ dep.name ++ "' version ".toList ++ version ++
      " does not satisfy '".toList ++ dep.versionRequirement ++ "' required by ".toList ++
      owner.manifestPath)
  else none

/-- An error holds the line that is printed. -/
def loadDependencyManifest (vendorDir : Text) (owner : PackageManifest) (dep : DepSpec)
    (depsDir : Text) (required : Bool) : Except Text PackageManifest :=
  let manifestPath := sources.manifestPath vendorDir owner depsDir dep
  match sources.file manifestPath with
  | none =>
    .error (if required then
      "MLang dependency '".toList ++ dep.name ++ "' has no manifest at ".toList ++ manifestPath
      else [])
  | some content =>
    match refusal owner dep manifestPath content with
    | some line => .error line
    | none => .ok ⟨manifestPath, content⟩

def requiresManifest (dep : DepSpec) : Bool := dep.path ≠ [] || dep.build = "mlang".toList

structure DependencyLockContext where
  rootManifest : Text := []
  lockPath : Text := []
  locked : Bool := false
  offline : Bool := false
  dirty : Bool := false
  partialGraph : Bool := false
  globalCacheDir : Text := []
  vendorDir : Text := []
  entries : Lock := []
  observedLockKeys : List Text := []
  packageSources : Table Text Text := []
  deriving DecidableEq

def DependencyLockContext.adopt (context : DependencyLockContext) (config : WalkConfig) :
    DependencyLockContext :=
  { context with
    globalCacheDir :=
      if context.globalCacheDir = [] then config.globalCacheDir else context.globalCacheDir
    vendorDir := if context.vendorDir = [] then config.vendorDir else context.vendorDir }

def dependencyLockEntry (manifest : Text) (dep : DepSpec) (context : DependencyLockContext) :
    Option DependencyLockEntry × DependencyLockContext :=
  let key := dependencyLockKey manifest dep.name
  (find context.entries key,
    { context with observedLockKeys := context.observedLockKeys.insert key })

def lockEntryMatchesDependency (entry expected : DependencyLockEntry) : Bool :=
  { entry with
    resolvedVersion := expected.resolvedVersion
    revision := expected.revision
    checksum := expected.checksum } = expected

structure Hooks where
  enter : PackageManifest → WalkConfig → Except Text Unit
  /-- Before the manifest of a dependency is loaded. -/
  visit : PackageManifest → DepSpec → Text → DependencyLockContext →
    Except Text DependencyLockContext
  /-- Behind that, for the manifest that was loaded. -/
  settle : PackageManifest → DepSpec → PackageManifest → DependencyLockContext →
    Except Text DependencyLockContext

/-- A dependency that was visited, the context behind the visit, and the manifest that was loaded
for the dependency. -/
structure Visit where
  manifest : PackageManifest
  dep : DepSpec
  depsDir : Text
  after : DependencyLockContext
  child : Option PackageManifest
  deriving DecidableEq

structure Walk where
  context : DependencyLockContext := {}
  finished : List Text := []
  active : List Text := []
  log : List Visit := []
  deriving DecidableEq

abbrev Outcome := Except (Option Text)

variable (hooks : Hooks)

def traverseDependency (recurse : PackageManifest → WalkConfig → Walk → Outcome Walk)
    (pkg : PackageManifest) (config : WalkConfig) (dep : DepSpec) (walk : Walk) : Outcome Walk :=
  let depsDir := sources.packageDepsDir pkg config.toDirectories
  ((hooks.visit pkg dep depsDir walk.context).mapError some).bind fun context =>
    match loadDependencyManifest sources context.vendorDir pkg dep depsDir (requiresManifest dep) with
    | .error line =>
      if requiresManifest dep then .error (some line)
      else .ok { walk with context := context, log := walk.log ++ [⟨pkg, dep, depsDir, context, none⟩] }
    | .ok child =>
      ((hooks.settle pkg dep child context).mapError some).bind fun settled =>
        ((dependencyBuildConfig sources.profiled child dep config).mapError some).bind
          fun childConfig =>
            recurse child childConfig
              { walk with
                context := settled
                log := walk.log ++ [⟨pkg, dep, depsDir, context, some child⟩] }

def traverseDependencies (recurse : PackageManifest → WalkConfig → Walk → Outcome Walk)
    (pkg : PackageManifest) (config : WalkConfig) : List DepSpec → Walk → Outcome Walk
  | [], walk => .ok walk
  | dep :: deps, walk =>
    (traverseDependency sources hooks recurse pkg config dep walk).bind
      (traverseDependencies recurse pkg config deps)

def cycleLine (pkg : PackageManifest) : Text :=
  "Transitive dependency cycle reaches ".toList ++ pkg.manifestPath

def traverseManifest : Nat → PackageManifest → WalkConfig → Walk → Outcome Walk
  | 0, _, _, _ => .error none
  | depth + 1, pkg, config, walk =>
    if pkg.manifestPath ∈ walk.finished then .ok walk
    else if pkg.manifestPath ∈ walk.active then .error (some (cycleLine pkg))
    else
      ((hooks.enter pkg config).mapError some).bind fun _ =>
        (traverseDependencies sources hooks (traverseManifest depth) pkg config
          (filterDisabledDependencies (parseSourceDeps pkg.content) config)
          { walk with
            active := pkg.manifestPath :: walk.active
            context := walk.context.adopt config }).map fun inner =>
          { inner with
            active := inner.active.erase pkg.manifestPath
            finished := inner.finished ++ [pkg.manifestPath] }

end Mlang.DependencyWalks
