import Mlang.ManifestDependencies

namespace Mlang.PackageFeatures

open BracketedText (Text)
open OrderedTables DependencyLocks TomlText ManifestDependencies

structure PackageManifest where
  manifestPath : Text
  content : Text
  deriving DecidableEq

/-- What stands in front of the last `/` of a path, and behind it. -/
def parentPath (path : Text) : Text := (path.rdropWhile (· ≠ '/')).dropLast

def fileName (path : Text) : Text := path.rtakeWhile (· ≠ '/')

def packageName (pkg : PackageManifest) : Text :=
  (findSectionTomlString pkg.content "package".toList "name".toList).getD
    (fileName (parentPath pkg.manifestPath))

abbrev FeatureDefinitions := Table Text (List Text)

def parseFeatureDefinitions (content : Text) : FeatureDefinitions :=
  (sectionAssignments (fun header => header = "features".toList) content).foldl
    (fun definitions entry =>
      let key := entry.assignment.key
      insert textBefore definitions key
        ((find definitions key).getD [] ++ tomlStringList entry.assignment.value)) []

def dependencyFeature (feature : Text) : Bool := "dep:".toList.isPrefixOf feature

def validReference (definitions : FeatureDefinitions) (optionalDependencies : List Text)
    (reference : Text) : Bool :=
  if dependencyFeature reference then optionalDependencies.contains (reference.drop 4)
  else (find definitions reference).isSome || optionalDependencies.contains reference

def validatePackageFeatures (pkg : PackageManifest) (explicitlyRequested : List Text) :
    Except Text Unit :=
  let definitions := parseFeatureDefinitions pkg.content
  let optionalDependencies :=
    ((parseSourceDeps pkg.content).filter DepSpec.optional).map DepSpec.name
  let invalid := fun reference => !validReference definitions optionalDependencies reference
  match explicitlyRequested.find? invalid with
  | some feature =>
    .error ("Unknown feature '".toList ++ feature ++ "' for package '".toList ++
      packageName pkg ++ "'".toList)
  | none =>
    match definitions.findSome? fun definition =>
      (definition.2.find? invalid).map (definition.1, ·) with
    | some (feature, member) =>
      .error ("Feature '".toList ++ feature ++ "' in package '".toList ++ packageName pkg ++
        "' refers to unknown feature or optional dependency '".toList ++ member ++ "'".toList)
    | none => .ok ()

/-- The features that are on once those that are pending are; the first number bounds the steps. -/
def expandFeatures (definitions : FeatureDefinitions) : Nat → List Text → List Text → List Text
  | 0, _, enabled => enabled
  | steps + 1, pending, enabled =>
    match pending.getLast? with
    | none => enabled
    | some feature =>
      if feature = [] ∨ feature ∈ enabled then
        expandFeatures definitions steps pending.dropLast enabled
      else if dependencyFeature feature then
        expandFeatures definitions steps pending.dropLast (feature :: enabled)
      else
        expandFeatures definitions steps
          (pending.dropLast ++ (find definitions feature).getD []) (feature :: enabled)

def expansionSteps (definitions : FeatureDefinitions) (pending : List Text) : Nat :=
  pending.length + (definitions.map fun definition => definition.2.length).sum

def pendingFeatures (definitions : FeatureDefinitions) (requestedFeatures : List Text)
    (noDefaultFeatures allFeatures : Bool) : List Text :=
  requestedFeatures ++
    (if noDefaultFeatures then [] else (find definitions "default".toList).getD []) ++
    (if allFeatures then (definitions.map Prod.fst).filter (· ≠ "default".toList) else [])

/-- The features that `configure_profile_and_features` enables. -/
def enabledFeatures (content : Text) (requestedFeatures : List Text)
    (noDefaultFeatures allFeatures : Bool) : List Text :=
  let definitions := parseFeatureDefinitions content
  let pending := pendingFeatures definitions requestedFeatures noDefaultFeatures allFeatures
  (expandFeatures definitions (expansionSteps definitions pending) pending []).insertionSort (· ≤ ·)

structure Directories where
  buildDir : Text := []
  depsDir : Text := []
  includedBuildDir : Text := []
  includedDepsDir : Text := []
  deriving DecidableEq

/-- What the walk over the dependencies reads of a build configuration. -/
structure WalkConfig extends Directories where
  profileName : Text := []
  enabledFeatures : List Text := []
  allFeatures : Bool := false
  globalCacheDir : Text := []
  vendorDir : Text := []
  deriving DecidableEq

def dependencyEnabled (dep : DepSpec) (config : WalkConfig) : Bool :=
  !dep.optional || config.allFeatures || config.enabledFeatures.contains dep.name ||
    config.enabledFeatures.contains ("dep:".toList ++ dep.name)

def filterDisabledDependencies (deps : List DepSpec) (config : WalkConfig) : List DepSpec :=
  deps.filter fun dep => dependencyEnabled dep config

def profileDirectories (profileName : Text) (directories : Directories) : Directories :=
  if profileName ≠ [] ∧ directories.buildDir = [] ∧ directories.includedBuildDir = [] then
    { directories with buildDir := "build/".toList ++ profileName }
  else directories

/-- `profiled` reads the directories that a manifest sets under the profile of a name. -/
def dependencyBuildConfig (profiled : PackageManifest → Text → Except Text Directories)
    (child : PackageManifest) (dep : DepSpec) (parent : WalkConfig) : Except Text WalkConfig :=
  (validatePackageFeatures child dep.features).bind fun _ =>
    (profiled child parent.profileName).map fun directories =>
      { toDirectories := profileDirectories parent.profileName directories
        profileName := parent.profileName
        enabledFeatures :=
          enabledFeatures child.content dep.features (!dep.defaultFeatures) parent.allFeatures
        allFeatures := parent.allFeatures
        globalCacheDir := parent.globalCacheDir
        vendorDir := parent.vendorDir }

end Mlang.PackageFeatures
