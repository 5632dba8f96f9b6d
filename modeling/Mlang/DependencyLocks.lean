import Mathlib
import Mlang.BracketedText
import Mlang.OrderedTables

namespace Mlang.DependencyLocks

open BracketedText (Text)
open OrderedTables

structure DepSpec where
  name : Text
  git : Text := []
  url : Text := []
  path : Text := []
  versionRequirement : Text := []
  features : List Text := []
  archiveType : Text := []
  rev : Text := []
  tag : Text := []
  build : Text := []
  subdir : Text := []
  stripComponents : Int := 1
  submodules : Bool := false
  optional : Bool := false
  defaultFeatures : Bool := true
  deriving DecidableEq

structure DependencyLockEntry where
  manifest : Text := []
  name : Text := []
  source : Text := []
  url : Text := []
  path : Text := []
  versionRequirement : Text := []
  resolvedVersion : Text := []
  requestedFeatures : Text := []
  requestedRev : Text := []
  requestedTag : Text := []
  revision : Text := []
  checksum : Text := []
  archiveType : Text := []
  subdir : Text := []
  stripComponents : Int := 1
  submodules : Bool := false
  optional : Bool := false
  defaultFeatures : Bool := true
  deriving DecidableEq

def dependencyLockKey (manifest name : Text) : Text := manifest ++ '\n' :: name

def joinFeatures (features : List Text) : Text :=
  (features.insertionSort (· ≤ ·)).foldl (fun joined feature =>
    (if joined = [] then [] else joined ++ [',']) ++ feature) []

/-- The entry of a dependency of the manifest that the lock knows as `manifest`. -/
def makeDependencyLockEntry (manifest : Text) (dep : DepSpec) : DependencyLockEntry where
  manifest := manifest
  name := dep.name
  source :=
    if dep.path ≠ [] then "path".toList else if dep.git ≠ [] then "git".toList
    else "archive".toList
  url := if dep.git ≠ [] then dep.git else dep.url
  path := dep.path
  versionRequirement := dep.versionRequirement
  requestedFeatures := joinFeatures dep.features
  requestedRev := dep.rev
  requestedTag := dep.tag
  archiveType := dep.archiveType
  subdir := dep.subdir
  stripComponents := dep.stripComponents
  submodules := dep.submodules
  optional := dep.optional
  defaultFeatures := dep.defaultFeatures

/-- The order of the keys of a `std::map`. -/
def textBefore (a b : Text) : Bool := a < b

abbrev Lock := Table Text DependencyLockEntry

end Mlang.DependencyLocks
