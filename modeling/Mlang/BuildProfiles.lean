import Mlang.BuildCommands
import Mlang.Worklists

namespace Mlang.BuildProfiles

open BracketedText (Text trimCopy)
open OrderedTables DependencyLocks TomlText ManifestDependencies
open PackageFeatures (FeatureDefinitions dependencyFeature parseFeatureDefinitions pendingFeatures
  expansionSteps)
open BuildCommands (BuildConfig mergeBuildConfig appendUniqueFlag)

def targetArchAliases : List (String × String) :=
  [("x86", "x86"), ("i386", "x86"), ("i686", "x86"), ("x64", "x64"), ("x86_64", "x64"),
    ("amd64", "x64"), ("x86-64", "x64"), ("aarch64", "aarch64"), ("arm64", "aarch64")]

def normalizeTargetArchName (arch : Text) : Text :=
  ((targetArchAliases.find? fun e => e.1.toList = trimCopy arch).map fun e => e.2.toList).getD []

def normalizeOptLevel (opt : Text) : Text :=
  let opt := trimCopy opt
  if opt = [] then []
  else
    let opt := if opt.head? = some '-' then opt else '-' :: opt
    if ["-O0", "-Og", "-O1", "-O2", "-O3", "-Os", "-Oz"].any fun level => level.toList = opt then opt
    else []

def unquotePreserve (v : Text) : Text :=
  let t := trimCopy v
  match quoted '"' t with
  | some inner => unescapeTomlBasicString inner
  | none => (quoted '\'' t).getD t

inductive BuildKey
  | optLevel | targetArch | minMlangVersion | makeProgram | buildDir | depsDir | globalCacheDir
  | vendorDir | useGlobalCache | logDir | stdoutLog | stderrLog | warnLog | compilerFlags | pathEntries
  | linkerFlags | libPaths | libs | useNinja | staticDeps | staticCppRuntime | taskPrintToStdoutLog
  deriving DecidableEq

def buildKeys : List (String × BuildKey) :=
  [("opt_level", .optLevel), ("target_arch", .targetArch), ("min_mlang_version", .minMlangVersion),
    ("make_program", .makeProgram), ("build_dir", .buildDir), ("deps_dir", .depsDir),
    ("global_cache_dir", .globalCacheDir), ("vendor_dir", .vendorDir),
    ("use_global_cache", .useGlobalCache), ("log_dir", .logDir), ("stdout_log", .stdoutLog),
    ("stderr_log", .stderrLog), ("warn_log", .warnLog), ("compiler_flags", .compilerFlags),
    ("path_entries", .pathEntries), ("bin_paths", .pathEntries), ("linker_flags", .linkerFlags),
    ("lib_paths", .libPaths), ("libs", .libs), ("use_ninja", .useNinja), ("ninja", .useNinja),
    ("static_deps", .staticDeps), ("static_cpp_runtime", .staticCppRuntime),
    ("task_print_to_stdout_log", .taskPrintToStdoutLog)]

def buildKey (key : Text) : Option BuildKey :=
  (buildKeys.find? fun e => e.1.toList = key).map Prod.snd

def BuildKey.set (cfg : BuildConfig) (value : Text) : BuildKey → BuildConfig
  | .optLevel => { cfg with optLevel := normalizeOptLevel (unquote value) }
  | .targetArch => { cfg with targetArch := normalizeTargetArchName (unquote value) }
  | .minMlangVersion => { cfg with minMlangVersion := unquote value }
  | .makeProgram => { cfg with makeProgram := unquote value }
  | .buildDir => { cfg with buildDir := unquote value }
  | .depsDir => { cfg with depsDir := unquote value }
  | .globalCacheDir => { cfg with globalCacheDir := unquote value }
  | .vendorDir => { cfg with vendorDir := unquote value }
  | .useGlobalCache => { cfg with useGlobalCache := parseTomlBoolValue value }
  | .logDir => { cfg with logDir := unquote value }
  | .stdoutLog => { cfg with stdoutLog := unquote value }
  | .stderrLog => { cfg with stderrLog := unquote value }
  | .warnLog => { cfg with warnLog := unquote value }
  | .compilerFlags => { cfg with compilerFlags := cfg.compilerFlags ++ tomlStringList value }
  | .pathEntries => { cfg with pathEntries := cfg.pathEntries ++ tomlStringList value }
  | .linkerFlags => { cfg with linkerFlags := cfg.linkerFlags ++ tomlStringList value }
  | .libPaths => { cfg with libPaths := cfg.libPaths ++ tomlStringList value }
  | .libs => { cfg with libs := cfg.libs ++ tomlStringList value }
  | .useNinja => { cfg with useNinja := some (parseTomlBoolValue value) }
  | .staticDeps => { cfg with staticDeps := some (parseTomlBoolValue value) }
  | .staticCppRuntime => { cfg with staticCppRuntime := some (parseTomlBoolValue value) }
  | .taskPrintToStdoutLog => { cfg with taskPrintToStdoutLog := some (parseTomlBoolValue value) }

def parseBuildConfigKeyValue (cfg : BuildConfig) (key value : Text) : BuildConfig :=
  match buildKey key with
  | none => cfg
  | some key => key.set cfg value

def parseBuildConfig (content : Text) : BuildConfig :=
  (sectionAssignments (fun _ => true) content).foldl (fun cfg entry =>
    if entry.header = "tool.mlang".toList then
      parseBuildConfigKeyValue cfg entry.assignment.key entry.assignment.value
    else if entry.header = "tool.mlang.options".toList then
      { cfg with
        optionValues := insert textBefore cfg.optionValues entry.assignment.key
          (unquotePreserve entry.assignment.value) }
    else cfg) {}

inductive Failure
  | cycle (profileName : Text)
  | depth
  deriving DecidableEq

def Failure.message : Failure → Text
  | .cycle profileName => "Profile inheritance cycle at '".toList ++ profileName ++ "'".toList
  | .depth => []

def sectionName (profileName : Text) : Text := "profile.".toList ++ profileName

def inherited (content profileName : Text) : Text :=
  (findSectionTomlString content (sectionName profileName) "inherits".toList).getD []

def profileAssignments (content profileName : Text) : List ParsedTomlAssignment :=
  ((sectionAssignments (fun header => header = sectionName profileName) content).map
    SectionAssignment.assignment).filter fun assignment => assignment.key ≠ "inherits".toList

def profileSection (content profileName : Text) : BuildConfig :=
  (profileAssignments content profileName).foldl (fun profile assignment =>
    parseBuildConfigKeyValue profile assignment.key assignment.value) {}

/-- The number bounds the depth of the calls, `active` are the profiles being read. -/
def parseProfileRecursive (content : Text) :
    Nat → List Text → Text → BuildConfig → Except Failure BuildConfig
  | 0, _, _, _ => .error .depth
  | depth + 1, active, profileName, result =>
    if !hasSection content (sectionName profileName) then .ok result
    else if profileName ∈ active then .error (.cycle profileName)
    else
      (if inherited content profileName = [] then .ok result
        else parseProfileRecursive content depth (profileName :: active)
          (inherited content profileName) result).map fun result =>
        mergeBuildConfig result (profileSection content profileName)

def presetProfile (profileName : Text) : BuildConfig :=
  if profileName = "dev".toList then
    { optLevel := "-O0".toList, compilerFlags := ["--debug".toList] }
  else if profileName = "release".toList then { optLevel := "-O3".toList }
  else {}

def configureProfile (content : Text) (config : BuildConfig) (profileName : Text) :
    Except Failure BuildConfig :=
  if profileName = [] then .ok config
  else
    (parseProfileRecursive content ((textLines content).length + 1) [] profileName
      (presetProfile profileName)).map fun profile =>
        let config := mergeBuildConfig config profile
        { config with
          compilerFlags := config.compilerFlags.foldl appendUniqueFlag []
          profileName := profileName
          buildDir :=
            if config.buildDir = [] ∧ config.includedBuildDir = [] then "build/".toList ++ profileName
            else config.buildDir }

def featureMembers (definitions : FeatureDefinitions) (feature : Text) : List Text :=
  if dependencyFeature feature then [] else (find definitions feature).getD []

def featureOption (feature : Text) : Text := "feature.".toList ++ feature

def featureOptions (definitions : FeatureDefinitions) (enabled : List Text)
    (optionValues : Table Text Text) : Table Text Text :=
  let cleared := (definitions.filter fun definition => definition.1 ≠ "default".toList).foldl
    (fun values definition => insert textBefore values (featureOption definition.1) "0".toList)
    optionValues
  enabled.foldl (fun values feature => insert textBefore values (featureOption feature) "1".toList)
    cleared

def enableFeatures (definitions : FeatureDefinitions) (enabled : List Text) (allFeatures : Bool)
    (config : BuildConfig) : BuildConfig :=
  let enabledFeatures := enabled.insertionSort (· ≤ ·)
  { config with
    enabledFeatures := enabledFeatures
    optionValues := insert textBefore (featureOptions definitions enabledFeatures config.optionValues)
      "profile".toList (if config.profileName = [] then "default".toList else config.profileName)
    allFeatures := allFeatures }

def configureProfileAndFeatures (manifestContent : Text) (config : BuildConfig) (profileName : Text)
    (requestedFeatures : List Text) (noDefaultFeatures allFeatures : Bool) :
    Except Failure BuildConfig :=
  (configureProfile manifestContent config profileName).bind fun config =>
    let definitions := parseFeatureDefinitions manifestContent
    let pending := pendingFeatures definitions requestedFeatures noDefaultFeatures allFeatures
    match Worklists.drain (· = []) (featureMembers definitions)
        (expansionSteps definitions pending + 1) pending [] with
    | none => .error .depth
    | some enabled => .ok (enableFeatures definitions enabled allFeatures config)

end Mlang.BuildProfiles
