import Mlang.PackageFeatures
import Mlang.LabelledLines

namespace Mlang.BuildCommands

open BracketedText (Text isSpace trimCopy)
open OrderedTables DependencyLocks
open PackageFeatures (WalkConfig fileName)
open LabelledLines (line)

structure BuildConfig extends WalkConfig where
  optLevel : Text := []
  targetArch : Text := []
  minMlangVersion : Text := []
  compilerProgram : Text := []
  makeProgram : Text := []
  logDir : Text := []
  stdoutLog : Text := []
  stderrLog : Text := []
  warnLog : Text := []
  pathEntries : List Text := []
  compilerFlags : List Text := []
  linkerFlags : List Text := []
  libPaths : List Text := []
  libs : List Text := []
  optionValues : Table Text Text := []
  useNinja : Option Bool := none
  asan : Option Bool := none
  staticDeps : Option Bool := none
  staticCppRuntime : Option Bool := none
  taskPrintToStdoutLog : Option Bool := none
  useGlobalCache : Bool := true
  deriving DecidableEq

inductive TargetKind
  | executable | dynamicLibrary | staticLibrary
  deriving DecidableEq

structure BuildTarget where
  name : Text
  entry : Text
  kind : TargetKind
  dependsOn : List Text
  config : BuildConfig
  deriving DecidableEq

structure Package where
  manifestPath : Text
  packageDir : Text
  includeTarget : Text
  deriving DecidableEq

structure LinkFlags where
  libDirs : List Text
  libs : List Text
  staticArchives : List Text
  deriving DecidableEq

/-- The files that a build sees: those of a package directory under their relative paths, and the
contents behind a path. -/
structure Files where
  sources : Text → List (Text × Text)
  content : Text → Option Text

def isAbsolute (path : Text) : Bool := path.head? = some '/'

def joinPath (directory path : Text) : Text :=
  if isAbsolute path then path
  else if directory = [] ∨ directory.getLast? = some '/' then directory ++ path
  else directory ++ '/' :: path

def dynamicLibraryFilename (name : Text) : Text := "lib".toList ++ name ++ ".so".toList

def staticLibraryFilename (name : Text) : Text := "lib".toList ++ name ++ ".a".toList

def resolvePackagePath (normal : Text → Text) (packageDir configured fallback : Text) : Text :=
  let path := if configured = [] then fallback else configured
  normal (if isAbsolute path then path else joinPath packageDir path)

def packageBuildDir (normal : Text → Text) (packageDir : Text) (config : BuildConfig) : Text :=
  if config.includedBuildDir ≠ [] then normal config.includedBuildDir
  else resolvePackagePath normal packageDir config.buildDir "build".toList

def packageDepsDir (normal : Text → Text) (packageDir : Text) (config : BuildConfig) : Text :=
  if config.includedDepsDir ≠ [] then normal config.includedDepsDir
  else if config.depsDir ≠ [] then resolvePackagePath normal packageDir config.depsDir "build/deps".toList
  else normal (joinPath (packageBuildDir normal packageDir config) "deps".toList)

def overriding (base value : Text) : Text := if value ≠ [] then value else base

def mergeBuildConfig (base overrideCfg : BuildConfig) : BuildConfig :=
  { base with
    profileName := overriding base.profileName overrideCfg.profileName
    enabledFeatures :=
      if overrideCfg.enabledFeatures ≠ [] then overrideCfg.enabledFeatures else base.enabledFeatures
    globalCacheDir := overriding base.globalCacheDir overrideCfg.globalCacheDir
    vendorDir := overriding base.vendorDir overrideCfg.vendorDir
    compilerProgram := overriding base.compilerProgram overrideCfg.compilerProgram
    optLevel := overriding base.optLevel overrideCfg.optLevel
    targetArch := overriding base.targetArch overrideCfg.targetArch
    minMlangVersion := overriding base.minMlangVersion overrideCfg.minMlangVersion
    makeProgram := overriding base.makeProgram overrideCfg.makeProgram
    buildDir := overriding base.buildDir overrideCfg.buildDir
    depsDir := overriding base.depsDir overrideCfg.depsDir
    pathEntries := base.pathEntries ++ overrideCfg.pathEntries
    compilerFlags := base.compilerFlags ++ overrideCfg.compilerFlags
    linkerFlags := base.linkerFlags ++ overrideCfg.linkerFlags
    libPaths := base.libPaths ++ overrideCfg.libPaths
    libs := base.libs ++ overrideCfg.libs
    optionValues := overrideCfg.optionValues.foldl (fun values e => insert textBefore values e.1 e.2)
      base.optionValues
    useNinja := overrideCfg.useNinja <|> base.useNinja
    asan := overrideCfg.asan <|> base.asan
    staticDeps := overrideCfg.staticDeps <|> base.staticDeps
    staticCppRuntime := overrideCfg.staticCppRuntime <|> base.staticCppRuntime }

def isOptFlag (flag : Text) : Bool :=
  ["-O0", "-Og", "-O1", "-O2", "-O3", "-Os", "-Oz"].any fun level => flag = level.toList

def appendUniqueFlag (flags : List Text) (flag : Text) : List Text :=
  if flags.contains flag then flags else flags ++ [flag]

def applyAsanOverrides (config : BuildConfig) : BuildConfig :=
  if config.asan.getD false = false then config
  else
    let compilerFlags := config.compilerFlags.filter fun flag => !isOptFlag (trimCopy flag)
    let compilerFlags := appendUniqueFlag compilerFlags "-fsanitize=address".toList
    let compilerFlags := appendUniqueFlag compilerFlags "-fno-omit-frame-pointer".toList
    let linkerFlags := appendUniqueFlag config.linkerFlags "-fsanitize=address".toList
    { config with
      optLevel := "-O0".toList
      compilerFlags := appendUniqueFlag compilerFlags "-g".toList
      linkerFlags := appendUniqueFlag linkerFlags "-fno-omit-frame-pointer".toList }

def replaceLoop (needle value : Text) : Nat → Text → Text
  | 0, text => text
  | fuel + 1, text =>
    if needle.isPrefixOf text then value ++ replaceLoop needle value fuel (text.drop needle.length)
    else
      match text with
      | [] => []
      | c :: rest => c :: replaceLoop needle value fuel rest

def replaceAll (text needle value : Text) : Text :=
  if needle = [] then text else replaceLoop needle value text.length text

def cmakeBuildType (config : BuildConfig) : Text :=
  if config.asan.getD false then "Debug".toList
  else
    let optLevel := trimCopy config.optLevel
    if optLevel = "-O0".toList ∨ optLevel = "-Og".toList then "Debug".toList else "Release".toList

def asanCompileFlags (config : BuildConfig) : Text :=
  if config.asan.getD false then "-fsanitize=address -fno-omit-frame-pointer -g -O0".toList else []

def asanLinkFlags (config : BuildConfig) : Text :=
  if config.asan.getD false then "-fsanitize=address -fno-omit-frame-pointer".toList else []

def placeholder (name : Text) : Text := '\x7b' :: '\x7b' :: name ++ ['\x7d', '\x7d']

def taskTextValues (normal : Text → Text) (pkg : Package) (config : BuildConfig) : List (Text × Text) :=
  [(placeholder "root".toList, pkg.packageDir), (placeholder "manifest".toList, pkg.manifestPath),
    (placeholder "build_dir".toList, packageBuildDir normal pkg.packageDir config),
    (placeholder "deps_dir".toList, packageDepsDir normal pkg.packageDir config),
    (placeholder "make".toList, if config.makeProgram = [] then "make".toList else config.makeProgram),
    (placeholder "cmake_build_type".toList, cmakeBuildType config),
    (placeholder "asan_enabled".toList, if config.asan.getD false then "1".toList else "0".toList),
    (placeholder "cmake_c_flags".toList, asanCompileFlags config),
    (placeholder "cmake_cxx_flags".toList, asanCompileFlags config),
    (placeholder "cmake_exe_linker_flags".toList, asanLinkFlags config),
    (placeholder "cmake_shared_linker_flags".toList, asanLinkFlags config),
    (placeholder "cmake_module_linker_flags".toList, asanLinkFlags config)] ++
  config.optionValues.map fun e => (placeholder ("option.".toList ++ e.1), e.2)

def expandTaskText (normal : Text → Text) (text : Text) (pkg : Package) (config : BuildConfig) : Text :=
  (taskTextValues normal pkg config).foldl (fun out e => replaceAll out e.1 e.2) text

def expandBuildConfigFragment (normal : Text → Text) (pkg : Package) (config : BuildConfig)
    (text : Text) : Text :=
  expandTaskText normal text pkg config

def resolveBuildConfigPathEntry (normal : Text → Text) (pkg : Package) (config : BuildConfig)
    (text : Text) : Text :=
  let expanded := expandBuildConfigFragment normal pkg config text
  if expanded = [] then expanded
  else if isAbsolute expanded then expanded
  else normal (joinPath pkg.packageDir expanded)

/-- The programs are filled first. -/
def materializePrograms (normal : Text → Text) (pkg : Package) (config : BuildConfig) : BuildConfig :=
  let config := { config with
    compilerProgram := expandBuildConfigFragment normal pkg config config.compilerProgram }
  { config with makeProgram := expandBuildConfigFragment normal pkg config config.makeProgram }

def materializeBuildConfigForPackage (normal : Text → Text) (pkg : Package) (config : BuildConfig) :
    BuildConfig :=
  let config := materializePrograms normal pkg config
  { config with
    pathEntries := config.pathEntries.map (resolveBuildConfigPathEntry normal pkg config)
    libPaths := config.libPaths.map (resolveBuildConfigPathEntry normal pkg config)
    compilerFlags := config.compilerFlags.map (expandBuildConfigFragment normal pkg config)
    linkerFlags := config.linkerFlags.map (expandBuildConfigFragment normal pkg config) }

def tokensFrom : Option Char → Text → Text → List Text
  | _, cur, [] => if cur = [] then [] else [cur]
  | some quote, cur, c :: rest =>
    if c = quote then tokensFrom none cur rest else tokensFrom (some quote) (cur ++ [c]) rest
  | none, cur, c :: rest =>
    if c = '"' ∨ c = '\'' then tokensFrom (some c) cur rest
    else if isSpace c then
      if cur = [] then tokensFrom none [] rest else cur :: tokensFrom none [] rest
    else tokensFrom none (cur ++ [c]) rest

def splitShellTokens (input : Text) : List Text := tokensFrom none [] input

def shellQuote (s : Text) : Text :=
  '\'' :: s.flatMap (fun c => if c = '\'' then "'\\''".toList else [c]) ++ ['\'']

def shellFragment (fragment : Text) : Text :=
  match splitShellTokens fragment with
  | [] => ' ' :: shellQuote fragment
  | tokens => tokens.flatMap fun token => ' ' :: shellQuote token

/-- The targets that a target depends on, each once, and the names that were seen. A name is looked
into at most once, so the number of targets bounds the depth. -/
def collectTargetLinkDependencies (targetsByName : Table Text BuildTarget) :
    Nat → BuildTarget → List BuildTarget × List Text → List BuildTarget × List Text
  | 0, _, found => found
  | depth + 1, target, found =>
    target.dependsOn.foldl (fun found name =>
      if name ∈ found.2 then found
      else
        match find targetsByName name with
        | none => (found.1, name :: found.2)
        | some dependency =>
          collectTargetLinkDependencies targetsByName depth dependency
            (found.1 ++ [dependency], name :: found.2)) found

def linkDependency (buildDir : Text) (state : Text × Bool) (dependency : BuildTarget) : Text × Bool :=
  match dependency.kind with
  | .staticLibrary =>
    (state.1 ++ ' ' :: shellQuote (joinPath buildDir (staticLibraryFilename dependency.name)), state.2)
  | _ =>
    let directory := if state.2 then [] else " -L".toList ++ shellQuote buildDir
    (state.1 ++ directory ++ " -l".toList ++ shellQuote dependency.name, true)

def packageTargetRpathFlag : Text := "-Wl,-rpath,$ORIGIN".toList

def targetDependencyFlags (targetsByName : Table Text BuildTarget) (target : BuildTarget)
    (buildDir : Text) : Text :=
  if target.dependsOn ≠ [] ∧ target.kind ≠ .staticLibrary then
    let dependencies :=
      (collectTargetLinkDependencies targetsByName (targetsByName.length + 1) target ([], [])).1
    let state := dependencies.foldl (linkDependency buildDir) ([], false)
    if state.2 then state.1 ++ ' ' :: shellQuote packageTargetRpathFlag else state.1
  else []

structure Job where
  mlangVersion : Text
  files : Files
  pkg : Package
  packageConfig : BuildConfig
  target : BuildTarget
  targetsByName : Table Text BuildTarget
  linkFlags : LinkFlags
  pkgFlags : List Text
  optFlagOverride : Text
  backend : Text
  buildDir : Text

variable (normal sha256 : Text → Text)

def Job.config (job : Job) : BuildConfig :=
  materializeBuildConfigForPackage normal job.pkg
    (applyAsanOverrides (mergeBuildConfig job.packageConfig job.target.config))

def optFlagOf (job : Job) (config : BuildConfig) : Text :=
  if job.optFlagOverride = [] then config.optLevel else job.optFlagOverride

def Job.outputPath (job : Job) : Text :=
  joinPath job.buildDir
    (match job.target.kind with
    | .dynamicLibrary => dynamicLibraryFilename job.target.name
    | .staticLibrary => staticLibraryFilename job.target.name
    | .executable => job.target.name)

def Job.entryPath (job : Job) : Text :=
  if job.pkg.includeTarget = [] then job.target.entry
  else normal (joinPath job.pkg.packageDir job.target.entry)

def kindSwitch : TargetKind → Text
  | .dynamicLibrary => " --shared".toList
  | .staticLibrary => " --static-library".toList
  | .executable => []

def libraryFlags (linkFlags : LinkFlags) (staticDeps : Bool) : Text :=
  if staticDeps then linkFlags.staticArchives.flatMap fun archive => ' ' :: shellQuote archive
  else
    linkFlags.libDirs.flatMap (fun dir => " -L".toList ++ shellQuote dir) ++
      linkFlags.libs.flatMap (fun lib => " -l".toList ++ shellQuote lib) ++
      linkFlags.libDirs.flatMap fun dir => " -Wl,-rpath,".toList ++ shellQuote dir

def invocation (job : Job) (config : BuildConfig) (output : Text) : Text :=
  let optFlag := optFlagOf job config
  shellQuote job.backend ++ ' ' :: shellQuote (job.entryPath normal) ++ " -o ".toList ++
    shellQuote output ++ kindSwitch job.target.kind ++
    (if config.targetArch ≠ [] then " --target-arch ".toList ++ shellQuote config.targetArch else []) ++
    if optFlag ≠ [] then ' ' :: optFlag else []

def linking (job : Job) (config : BuildConfig) (buildDir : Text) : Text :=
  config.libPaths.flatMap (fun dir => " -L".toList ++ shellQuote dir) ++
    config.libs.flatMap (fun lib => " -l".toList ++ shellQuote lib) ++
    targetDependencyFlags job.targetsByName job.target buildDir ++
    libraryFlags job.linkFlags (config.staticDeps.getD false)

def runtimeFlags (config : BuildConfig) : Text :=
  if config.staticCppRuntime.getD false then " -static-libstdc++ -static-libgcc".toList else []

def commandOf (job : Job) (config : BuildConfig) (output buildDir : Text) : Text :=
  invocation normal job config output ++ config.compilerFlags.flatMap shellFragment ++
    linking job config buildDir ++ runtimeFlags config ++ config.linkerFlags.flatMap shellFragment ++
    job.pkgFlags.flatMap fun flag => ' ' :: shellQuote flag

def Job.command (job : Job) (output buildDir : Text) : Text :=
  commandOf normal job (job.config normal) output buildDir

def sha256File (files : Files) (path : Text) : Option Text := (files.content path).map sha256

def packageSourceFingerprint (files : Files) (pkg : Package) : Text :=
  sha256 ((files.sources pkg.packageDir).flatMap fun file =>
    file.1 ++ ':' :: sha256 file.2 ++ ['\n'])

def quoted (path : Text) : Text :=
  '"' :: path.flatMap (fun c => if c = '"' ∨ c = '\\' then ['\\', c] else [c]) ++ ['"']

inductive Label
  | mlang | source | package | target | kind | profile | opt | arch | feature | cflag | lflag
  | configLibdir | configLib | pkgFlag | archive | libdir | lib | linkedArtifact
  deriving DecidableEq

def Label.name : Label → Text
  | .mlang => "mlang".toList
  | .source => "source".toList
  | .package => "package".toList
  | .target => "target".toList
  | .kind => "kind".toList
  | .profile => "profile".toList
  | .opt => "opt".toList
  | .arch => "arch".toList
  | .feature => "feature".toList
  | .cflag => "cflag".toList
  | .lflag => "lflag".toList
  | .configLibdir => "config-libdir".toList
  | .configLib => "config-lib".toList
  | .pkgFlag => "pkg-flag".toList
  | .archive => "archive".toList
  | .libdir => "libdir".toList
  | .lib => "lib".toList
  | .linkedArtifact => "linked-artifact".toList

abbrev keyLine : Label → Text → Text := line Label.name

def kindCode : TargetKind → Text
  | .executable => "0".toList
  | .dynamicLibrary => "1".toList
  | .staticLibrary => "2".toList

def linkedArtifactLines (files : Files) (libDirs : List Text) (lib : Text) : Text :=
  libDirs.flatMap fun dir =>
    [dynamicLibraryFilename lib, staticLibraryFilename lib].flatMap fun candidate =>
      match sha256File sha256 files (joinPath dir candidate) with
      | none => []
      | some digest => keyLine .linkedArtifact (quoted (joinPath dir candidate) ++ ':' :: digest)

def keyOf (job : Job) (config : BuildConfig) : Text :=
  keyLine .mlang job.mlangVersion ++
    keyLine .source (packageSourceFingerprint sha256 job.files job.pkg) ++
    keyLine .package job.pkg.packageDir ++
    keyLine .target job.target.name ++
    keyLine .kind (kindCode job.target.kind) ++
    keyLine .profile config.profileName ++
    keyLine .opt (optFlagOf job config) ++
    keyLine .arch config.targetArch ++
    config.enabledFeatures.flatMap (keyLine .feature) ++
    config.compilerFlags.flatMap (keyLine .cflag) ++
    config.linkerFlags.flatMap (keyLine .lflag) ++
    config.libPaths.flatMap (keyLine .configLibdir) ++
    config.libs.flatMap (keyLine .configLib) ++
    job.pkgFlags.flatMap (keyLine .pkgFlag) ++
    job.linkFlags.staticArchives.flatMap (fun archive =>
      keyLine .archive
        (archive ++ ':' :: (sha256File sha256 job.files archive).getD "missing".toList)) ++
    job.linkFlags.libDirs.flatMap (keyLine .libdir) ++
    job.linkFlags.libs.flatMap fun lib =>
      keyLine .lib lib ++ linkedArtifactLines sha256 job.files job.linkFlags.libDirs lib

def artifactCachePath (job : Job) (config : BuildConfig) : Option Text :=
  if config.useGlobalCache = false ∨ config.globalCacheDir = [] then none
  else
    some (joinPath (joinPath (joinPath config.globalCacheDir "artifacts".toList)
      (sha256 (keyOf sha256 job config))) (fileName job.outputPath))

def Job.cachePath (job : Job) : Option Text := artifactCachePath sha256 job (job.config normal)

end Mlang.BuildCommands
