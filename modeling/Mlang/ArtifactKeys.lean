import Mlang.BuildCommands

namespace Mlang.ArtifactKeys

open BracketedText (Text isSpace)
open PackageFeatures (fileName)
open LabelledLines BuildCommands List

variable {normal sha256 : Text → Text}

section Runtimes

def withRuntime (job : Job) (static : Bool) : Job :=
  { job with target.config.staticCppRuntime := some static }

variable (pkg : Package) (config : BuildConfig) (runtime : Option Bool)

theorem expandBuildConfigFragment_runtime :
    expandBuildConfigFragment normal pkg { config with staticCppRuntime := runtime } =
      expandBuildConfigFragment normal pkg config := by
  funext text
  have hvalues : taskTextValues normal pkg { config with staticCppRuntime := runtime } =
      taskTextValues normal pkg config := rfl
  rw [expandBuildConfigFragment, expandTaskText, hvalues]
  rfl

theorem resolveBuildConfigPathEntry_runtime :
    resolveBuildConfigPathEntry normal pkg { config with staticCppRuntime := runtime } =
      resolveBuildConfigPathEntry normal pkg config := by
  funext text
  rw [resolveBuildConfigPathEntry, expandBuildConfigFragment_runtime]
  rfl

theorem materializePrograms_runtime :
    materializePrograms normal pkg { config with staticCppRuntime := runtime } =
      { materializePrograms normal pkg config with staticCppRuntime := runtime } := by
  unfold materializePrograms
  dsimp only
  rw [expandBuildConfigFragment_runtime pkg config runtime]
  generalize expandBuildConfigFragment normal pkg config config.compilerProgram = compilerProgram
  have hmake := @expandBuildConfigFragment_runtime normal pkg
    { config with compilerProgram := compilerProgram } runtime
  rw [hmake]

theorem materializeBuildConfig_runtime :
    materializeBuildConfigForPackage normal pkg { config with staticCppRuntime := runtime } =
      { materializeBuildConfigForPackage normal pkg config with staticCppRuntime := runtime } := by
  unfold materializeBuildConfigForPackage
  rw [materializePrograms_runtime]
  dsimp only
  rw [expandBuildConfigFragment_runtime, resolveBuildConfigPathEntry_runtime]

theorem config_withRuntime (job : Job) (static : Bool) :
    (withRuntime job static).config normal =
      { job.config normal with staticCppRuntime := some static } := by
  have hasan : applyAsanOverrides (mergeBuildConfig job.packageConfig
        { job.target.config with staticCppRuntime := some static }) =
      { applyAsanOverrides (mergeBuildConfig job.packageConfig job.target.config) with
        staticCppRuntime := some static } := by
    unfold applyAsanOverrides mergeBuildConfig
    dsimp only
    split_ifs <;> rfl
  unfold Job.config withRuntime
  dsimp only
  rw [hasan, materializeBuildConfig_runtime]

theorem keyOf_runtime (job : Job) (static : Bool) :
    keyOf sha256 (withRuntime job static) { config with staticCppRuntime := runtime } =
      keyOf sha256 job config := by
  unfold keyOf
  rfl

theorem cachePath_withRuntime (job : Job) (static : Bool) :
    (withRuntime job static).cachePath normal sha256 = job.cachePath normal sha256 := by
  have houtput : (withRuntime job static).outputPath = job.outputPath := rfl
  rw [Job.cachePath, config_withRuntime, artifactCachePath, keyOf_runtime, houtput]
  rfl

theorem command_withRuntime (job : Job) (static : Bool) (output buildDir : Text) :
    (withRuntime job static).command normal output buildDir =
      invocation normal job (job.config normal) output ++
        (job.config normal).compilerFlags.flatMap shellFragment ++
        linking job (job.config normal) buildDir ++
        (if static then " -static-libstdc++ -static-libgcc".toList else []) ++
        (job.config normal).linkerFlags.flatMap shellFragment ++
        job.pkgFlags.flatMap fun flag => ' ' :: shellQuote flag := by
  rw [Job.command, config_withRuntime]
  rfl

theorem runtime_ne {front following back : Text} (static : Bool) :
    front ++ (if static then " -static-libstdc++ -static-libgcc".toList else []) ++ following ++ back ≠
      front ++ (if !static then " -static-libstdc++ -static-libgcc".toList else []) ++ following ++ back := by
  have hswitches : " -static-libstdc++ -static-libgcc".toList.length = 33 := by decide
  intro heq
  have hlength := congrArg List.length heq
  simp only [length_append] at hlength
  cases static <;> simp only [Bool.not_true, Bool.not_false, if_pos, Bool.false_eq_true, if_false,
    length_nil, hswitches] at hlength <;> omega

theorem exists_collision (job : Job) :
    ∃ other : Job, other.files = job.files ∧ other.pkg = job.pkg ∧
      other.cachePath normal sha256 = job.cachePath normal sha256 ∧
        ∀ output buildDir, other.command normal output buildDir ≠ job.command normal output buildDir := by
  refine ⟨withRuntime job (!(job.config normal).staticCppRuntime.getD false), rfl, rfl,
    cachePath_withRuntime job _, ?_⟩
  intro output buildDir heq
  rw [command_withRuntime] at heq
  exact runtime_ne _ heq.symm

end Runtimes

variable {c : Char}

section Breaks

/-- A character that is not lost when a fragment is split and not added when a token is quoted. -/
structure Kept (c : Char) : Prop where
  double : c ≠ '"'
  single : c ≠ '\''
  slash : c ≠ '\\'
  blank : isSpace c = false

theorem count_shellQuote (hc : Kept c) (s : Text) : (shellQuote s).count c = s.count c := by
  have hquote := hc.single
  have hslash := hc.slash
  have hbody : (s.flatMap fun d => if d = '\'' then "'\\''".toList else [d]).count c = s.count c := by
    induction s with
    | nil => rfl
    | cons d s ih =>
      rw [flatMap_cons, count_append, ih]
      by_cases hd : d = '\''
      · rw [if_pos hd, hd, count_cons_of_ne hquote.symm]
        have hescape : ("'\\''".toList).count c = 0 := by
          rw [count_eq_zero]
          simp [hquote, hslash]
        rw [hescape, Nat.zero_add]
      · rw [if_neg hd, count_cons, count_cons, count_nil]
        omega
  rw [shellQuote, cons_append, count_cons_of_ne hquote.symm, count_append, hbody,
    count_cons_of_ne hquote.symm, count_nil, Nat.add_zero]

theorem count_tokensFrom (hc : Kept c) (quote : Option Char) (hopen : ∀ q, quote = some q → q ≠ c)
    (cur input : Text) :
    ((tokensFrom quote cur input).map fun token => token.count c).sum = cur.count c + input.count c := by
  obtain ⟨hdouble, hsingle, -, hspace⟩ := hc
  induction input generalizing quote cur with
  | nil =>
    cases quote <;> rw [tokensFrom] <;> split_ifs with hcur <;> simp [hcur]
  | cons d input ih =>
    cases quote with
    | some q =>
      have hq := hopen q rfl
      rw [tokensFrom]
      split_ifs with hd
      · rw [ih none (fun _ h => nomatch h), count_cons_of_ne (hd ▸ hq)]
      · rw [ih (some q) hopen, count_append, count_cons, count_cons, count_nil]
        omega
    | none =>
      rw [tokensFrom]
      split_ifs with hquote hblank hcur
      · have hd : d ≠ c := by
          rintro rfl
          exact hquote.elim hdouble hsingle
        have hnext : ∀ q, some d = some q → q ≠ c := fun q h => Option.some.inj h ▸ hd
        rw [ih (some d) hnext, count_cons_of_ne hd]
      · have hd : d ≠ c := by
          rintro rfl
          exact Bool.false_ne_true (hspace.symm.trans hblank)
        rw [ih none (fun _ h => nomatch h), count_cons_of_ne hd, hcur]
      · have hd : d ≠ c := by
          rintro rfl
          exact Bool.false_ne_true (hspace.symm.trans hblank)
        rw [map_cons, sum_cons, ih none (fun _ h => nomatch h), count_cons_of_ne hd,
          count_nil, Nat.zero_add]
      · rw [ih none (fun _ h => nomatch h), count_append, count_cons, count_cons, count_nil]
        omega

theorem count_shellFragment (hc : Kept c) (fragment : Text) :
    (shellFragment fragment).count c = fragment.count c := by
  have htokens := count_tokensFrom hc none (fun _ h => nomatch h) [] fragment
  have hblank : ' ' ≠ c := by
    rintro rfl
    exact Bool.false_ne_true hc.blank.symm
  rw [count_nil, Nat.zero_add] at htokens
  have hword (s : Text) : (' ' :: shellQuote s).count c = s.count c := by
    rw [count_cons_of_ne hblank, count_shellQuote hc]
  rw [shellFragment, splitShellTokens]
  split
  · exact hword fragment
  · rw [← htokens, count_flatMap]
    exact congrArg List.sum (map_congr_left fun token _ => hword token)

theorem kept_equals : Kept '=' where
  double := by decide
  single := by decide
  slash := by decide
  blank := by decide

variable (job : Job) (config : BuildConfig) (before behind : List Text) (f g : Text)

theorem keyOf_breaks :
    keyOf sha256 job { config with compilerFlags := before ++ (f ++ "\ncflag=".toList ++ g) :: behind } =
      keyOf sha256 job { config with compilerFlags := before ++ f :: g :: behind } := by
  have hlines : keyLine .cflag (f ++ "\ncflag=".toList ++ g) = keyLine .cflag f ++ keyLine .cflag g := by
    have hbreak : "\ncflag=".toList = '\n' :: (Label.cflag.name ++ ['=']) := by decide
    rw [hbreak]
    simp only [line, append_assoc, cons_append, nil_append]
  have hflags : (before ++ (f ++ "\ncflag=".toList ++ g) :: behind).flatMap (keyLine .cflag) =
      (before ++ f :: g :: behind).flatMap (keyLine .cflag) := by
    rw [flatMap_append, flatMap_append, flatMap_cons, flatMap_cons, flatMap_cons, hlines, append_assoc]
  unfold keyOf
  dsimp only
  rw [hflags]
  rfl

theorem artifactCachePath_breaks :
    artifactCachePath sha256 job
        { config with compilerFlags := before ++ (f ++ "\ncflag=".toList ++ g) :: behind } =
      artifactCachePath sha256 job { config with compilerFlags := before ++ f :: g :: behind } := by
  rw [artifactCachePath, artifactCachePath, keyOf_breaks]

theorem commandOf_flags (flags : List Text) (output buildDir : Text) :
    commandOf normal job { config with compilerFlags := flags } output buildDir =
      invocation normal job config output ++ flags.flatMap shellFragment ++ linking job config buildDir ++
        runtimeFlags config ++ config.linkerFlags.flatMap shellFragment ++
        job.pkgFlags.flatMap fun flag => ' ' :: shellQuote flag := by
  unfold commandOf invocation linking runtimeFlags optFlagOf
  rfl

theorem commandOf_breaks (output buildDir : Text) :
    commandOf normal job
        { config with compilerFlags := before ++ (f ++ "\ncflag=".toList ++ g) :: behind } output buildDir ≠
      commandOf normal job { config with compilerFlags := before ++ f :: g :: behind } output buildDir := by
  intro heq
  have hcount := congrArg (List.count '=') heq
  have hlabel : ("\ncflag=".toList).count '=' = 1 := by decide
  rw [commandOf_flags, commandOf_flags] at hcount
  simp only [flatMap_append, flatMap_cons, count_append, count_shellFragment kept_equals,
    hlabel] at hcount
  omega

end Breaks

variable {path directory : Text}

section Entries

variable (sha256 : Text → Text) (files : Files) (job : Job) (config : BuildConfig)

def digestOf (path : Text) : Text := (sha256File sha256 files path).getD "missing".toList

def linkedArtifacts (libDirs : List Text) (lib : Text) : List (Label × Text) :=
  libDirs.flatMap fun dir =>
    [dynamicLibraryFilename lib, staticLibraryFilename lib].flatMap fun candidate =>
      match sha256File sha256 files (joinPath dir candidate) with
      | none => []
      | some digest => [(Label.linkedArtifact, quoted (joinPath dir candidate) ++ ':' :: digest)]

def keyEntries : List (Label × Text) :=
  [(Label.mlang, job.mlangVersion), (Label.source, packageSourceFingerprint sha256 job.files job.pkg),
    (Label.package, job.pkg.packageDir), (Label.target, job.target.name),
    (Label.kind, kindCode job.target.kind), (Label.profile, config.profileName),
    (Label.opt, optFlagOf job config), (Label.arch, config.targetArch)] ++
  config.enabledFeatures.map (fun feature => (Label.feature, feature)) ++
  config.compilerFlags.map (fun flag => (Label.cflag, flag)) ++
  config.linkerFlags.map (fun flag => (Label.lflag, flag)) ++
  config.libPaths.map (fun path => (Label.configLibdir, path)) ++
  config.libs.map (fun lib => (Label.configLib, lib)) ++
  job.pkgFlags.map (fun flag => (Label.pkgFlag, flag)) ++
  job.linkFlags.staticArchives.map (fun archive =>
    (Label.archive, archive ++ ':' :: digestOf sha256 job.files archive)) ++
  job.linkFlags.libDirs.map (fun dir => (Label.libdir, dir)) ++
  job.linkFlags.libs.flatMap fun lib =>
    (Label.lib, lib) :: linkedArtifacts sha256 job.files job.linkFlags.libDirs lib

theorem linkedArtifactLines_eq (libDirs : List Text) (lib : Text) :
    linkedArtifactLines sha256 files libDirs lib =
      lines Label.name (linkedArtifacts sha256 files libDirs lib) := by
  rw [linkedArtifactLines, linkedArtifacts, lines, flatMap_assoc]
  refine flatMap_congr fun dir _ => ?_
  rw [flatMap_assoc]
  refine flatMap_congr fun candidate _ => ?_
  cases sha256File sha256 files (joinPath dir candidate) with
  | none => rfl
  | some digest => rw [flatMap_cons, flatMap_nil, append_nil]

theorem keyOf_eq : keyOf sha256 job config = lines Label.name (keyEntries sha256 job config) := by
  have hlibs : lines Label.name (job.linkFlags.libs.flatMap fun lib =>
        (Label.lib, lib) :: linkedArtifacts sha256 job.files job.linkFlags.libDirs lib) =
      job.linkFlags.libs.flatMap fun lib => keyLine .lib lib ++
        linkedArtifactLines sha256 job.files job.linkFlags.libDirs lib := by
    rw [lines, flatMap_assoc]
    refine flatMap_congr fun lib _ => ?_
    rw [flatMap_cons, linkedArtifactLines_eq]
    rfl
  simp only [keyEntries, lines_append, lines_cons, lines_nil, lines_each, lines_map, hlibs, append_nil,
    append_assoc]
  simp only [keyOf, digestOf, append_assoc]

def keyTexts : List Text :=
  [job.mlangVersion, job.pkg.packageDir, job.target.name, config.profileName, optFlagOf job config,
    config.targetArch] ++ config.enabledFeatures ++ config.compilerFlags ++ config.linkerFlags ++
  config.libPaths ++ config.libs ++ job.pkgFlags ++ job.linkFlags.staticArchives ++
  job.linkFlags.libDirs ++ job.linkFlags.libs

def Unbroken : Prop := ∀ text ∈ keyTexts job config, '\n' ∉ text

/-- What is assumed of SHA-256: different texts have different digests, and a digest is written in
hexadecimal digits. -/
structure Digests : Prop where
  injective : Function.Injective sha256
  digits : ∀ text, ∀ c ∈ sha256 text, c ∈ "0123456789abcdef".toList
  nonempty : ∀ text, sha256 text ≠ []

variable {sha256 files job config}

theorem Digests.notMem (h : Digests sha256) (hc : c ∉ "0123456789abcdef".toList) (text : Text) :
    c ∉ sha256 text := fun hmem => hc (h.digits text c hmem)

theorem Digests.notMem_digestOf (h : Digests sha256) (files : Files) (hc : c ∉ "0123456789abcdef".toList)
    (hmissing : c ∉ "missing".toList) (path : Text) : c ∉ digestOf sha256 files path := by
  rw [digestOf, sha256File]
  cases files.content path with
  | none => exact hmissing
  | some content => exact h.notMem hc content

theorem mem_joinPath (h : c ∈ joinPath directory path) : c ∈ directory ∨ c = '/' ∨ c ∈ path := by
  rw [joinPath] at h
  split_ifs at h
  · exact .inr (.inr h)
  · exact (mem_append.1 h).imp_right .inr
  · exact (mem_append.1 h).imp_right mem_cons.1

theorem break_notMem_quoted (h : '\n' ∉ path) : '\n' ∉ quoted path := by
  have hbody : '\n' ∉ path.flatMap fun c => if c = '"' ∨ c = '\\' then ['\\', c] else [c] := by
    intro hmem
    obtain ⟨c, hc, hin⟩ := mem_flatMap.1 hmem
    have hne : '\n' ≠ c := fun heq => h (heq ▸ hc)
    split_ifs at hin <;> simp [hne] at hin
  simp [quoted, hbody]

theorem break_notMem_linkedArtifacts (hsha : Digests sha256) {libDirs : List Text} {lib : Text}
    (hdirs : ∀ dir ∈ libDirs, '\n' ∉ dir) (hlib : '\n' ∉ lib) :
    ∀ e ∈ linkedArtifacts sha256 files libDirs lib, '\n' ∉ e.2 := by
  intro e he
  obtain ⟨dir, hdir, he⟩ := mem_flatMap.1 he
  obtain ⟨candidate, hcandidate, he⟩ := mem_flatMap.1 he
  have hname : '\n' ∉ candidate := by
    rcases mem_pair.1 hcandidate with rfl | rfl <;>
      simp [dynamicLibraryFilename, staticLibraryFilename, hlib]
  have hpath : '\n' ∉ joinPath dir candidate := by
    intro h
    rcases mem_joinPath h with h | h | h
    · exact hdirs dir hdir h
    · exact absurd h (by decide)
    · exact hname h
  cases hdigest : sha256File sha256 files (joinPath dir candidate) with
  | none => simp [hdigest] at he
  | some digest =>
    rw [hdigest] at he
    obtain rfl := mem_singleton.1 he
    obtain ⟨content, -, rfl⟩ := Option.map_eq_some_iff.1 hdigest
    have hsum := hsha.notMem (c := '\n') (by decide) content
    simp [break_notMem_quoted hpath, hsum]

def labelNamed (name : Text) : Option Label :=
  [Label.mlang, .source, .package, .target, .kind, .profile, .opt, .arch, .feature, .cflag, .lflag,
    .configLibdir, .configLib, .pkgFlag, .archive, .libdir, .lib, .linkedArtifact].find? (·.name = name)

theorem labelNamed_name (label : Label) : labelNamed label.name = some label := by
  cases label <;> decide +kernel

theorem name_injective : Function.Injective Label.name := by
  intro label label' h
  have hnamed := congrArg labelNamed h
  rw [labelNamed_name, labelNamed_name] at hnamed
  exact Option.some.inj hnamed

theorem equals_notMem_name (label : Label) : '=' ∉ label.name := by
  cases label <;> decide +kernel

theorem readable_keyEntries (hsha : Digests sha256) (h : Unbroken job config) :
    ∀ e ∈ keyEntries sha256 job config, Readable Label.name e := by
  intro e he
  refine ⟨equals_notMem_name e.1, ?_⟩
  have hsource : '\n' ∉ packageSourceFingerprint sha256 job.files job.pkg :=
    hsha.notMem (by decide) _
  have hkind : '\n' ∉ kindCode job.target.kind := by cases job.target.kind <;> decide
  unfold Unbroken keyTexts at h
  simp only [forall_mem_append, forall_mem_cons] at h
  obtain ⟨⟨⟨⟨⟨⟨⟨⟨⟨⟨hmlang, hpackage, htarget, hprofile, hopt, harch, -⟩, hfeatures⟩, hcflags⟩, hlflags⟩,
    hconfigDirs⟩, hconfigLibs⟩, hpkgFlags⟩, harchives⟩, hdirs⟩, hlibs⟩ := h
  unfold keyEntries at he
  simp only [mem_append, mem_cons, mem_map, mem_flatMap, not_mem_nil, or_false] at he
  rcases he with ((((((((((rfl | rfl | rfl | rfl | rfl | rfl | rfl | rfl) | ⟨t, ht, rfl⟩) | ⟨t, ht, rfl⟩) |
    ⟨t, ht, rfl⟩) | ⟨t, ht, rfl⟩) | ⟨t, ht, rfl⟩) | ⟨t, ht, rfl⟩) | ⟨t, ht, rfl⟩) | ⟨t, ht, rfl⟩) |
    ⟨lib, hlib, rfl | hartifact⟩)
  · exact hmlang
  · exact hsource
  · exact hpackage
  · exact htarget
  · exact hkind
  · exact hprofile
  · exact hopt
  · exact harch
  · exact hfeatures t ht
  · exact hcflags t ht
  · exact hlflags t ht
  · exact hconfigDirs t ht
  · exact hconfigLibs t ht
  · exact hpkgFlags t ht
  · have hdigest := hsha.notMem_digestOf job.files (c := '\n') (by decide) (by decide) t
    simp [harchives t ht, hdigest]
  · exact hdirs t ht
  · exact hlibs lib hlib
  · exact break_notMem_linkedArtifacts hsha hdirs (hlibs lib hlib) e hartifact

end Entries

variable {config' config : BuildConfig} {job' job : Job}

section Recovery

variable {sha256 : Text → Text}

structure Records (job job' : Job) (config config' : BuildConfig) : Prop where
  kind : job.target.kind = job'.target.kind
  opt : optFlagOf job config = optFlagOf job' config'
  arch : config.targetArch = config'.targetArch
  compilerFlags : config.compilerFlags = config'.compilerFlags
  linkerFlags : config.linkerFlags = config'.linkerFlags
  libPaths : config.libPaths = config'.libPaths
  libs : config.libs = config'.libs
  pkgFlags : job.pkgFlags = job'.pkgFlags
  archives : job.linkFlags.staticArchives = job'.linkFlags.staticArchives
  libDirs : job.linkFlags.libDirs = job'.linkFlags.libDirs
  linkLibs : job.linkFlags.libs = job'.linkFlags.libs

theorem values_linkedArtifacts (files : Files) (label : Label) (hlabel : label ≠ .linkedArtifact)
    (libDirs : List Text) (lib : Text) : values label (linkedArtifacts sha256 files libDirs lib) = [] := by
  rw [values, filterMap_eq_nil_iff]
  intro e he
  obtain ⟨dir, -, he⟩ := mem_flatMap.1 he
  obtain ⟨candidate, -, he⟩ := mem_flatMap.1 he
  cases hdigest : sha256File sha256 files (joinPath dir candidate) with
  | none => simp [hdigest] at he
  | some digest =>
    rw [hdigest] at he
    obtain rfl := mem_singleton.1 he
    exact if_neg hlabel.symm

theorem values_libs (files : Files) (label : Label) (hlabel : label ≠ .linkedArtifact)
    (libDirs libs : List Text) :
    values label (libs.flatMap fun lib => (Label.lib, lib) :: linkedArtifacts sha256 files libDirs lib) =
      if Label.lib = label then libs else [] := by
  induction libs with
  | nil => simp [values]
  | cons lib libs ih =>
    rw [flatMap_cons, values_append, values_cons, values_linkedArtifacts files label hlabel, ih]
    split_ifs <;> rfl

theorem kindCode_injective : Function.Injective kindCode := by
  intro kind kind' h
  cases kind <;> cases kind' <;> first | rfl | exact absurd h (by decide)

theorem map_eq_map_inj {α β : Type} {f g : α → β} (hfg : ∀ x y, f x = g y → x = y) {xs ys : List α}
    (h : xs.map f = ys.map g) : xs = ys := by
  induction xs generalizing ys with
  | nil => exact (map_eq_nil_iff.1 h.symm).symm
  | cons x xs ih =>
    cases ys with
    | nil => exact absurd h (cons_ne_nil _ _)
    | cons y ys =>
      obtain ⟨hhead, htail⟩ := List.cons.inj h
      rw [hfg x y hhead, ih htail]

theorem archive_inj (hsha : Digests sha256) (files files' : Files) (archive archive' : Text)
    (h : archive ++ ':' :: digestOf sha256 files archive =
      archive' ++ ':' :: digestOf sha256 files' archive') : archive = archive' :=
  (last_separator_inj (hsha.notMem_digestOf files (by decide) (by decide) archive)
    (hsha.notMem_digestOf files' (by decide) (by decide) archive') h).1

theorem values_keyEntries (label : Label) (hlabel : label ≠ .linkedArtifact) :
    values label (keyEntries sha256 job config) =
      (if Label.mlang = label then [job.mlangVersion] else []) ++
      (if Label.source = label then [packageSourceFingerprint sha256 job.files job.pkg] else []) ++
      (if Label.package = label then [job.pkg.packageDir] else []) ++
      (if Label.target = label then [job.target.name] else []) ++
      (if Label.kind = label then [kindCode job.target.kind] else []) ++
      (if Label.profile = label then [config.profileName] else []) ++
      (if Label.opt = label then [optFlagOf job config] else []) ++
      (if Label.arch = label then [config.targetArch] else []) ++
      (if Label.feature = label then config.enabledFeatures else []) ++
      (if Label.cflag = label then config.compilerFlags else []) ++
      (if Label.lflag = label then config.linkerFlags else []) ++
      (if Label.configLibdir = label then config.libPaths else []) ++
      (if Label.configLib = label then config.libs else []) ++
      (if Label.pkgFlag = label then job.pkgFlags else []) ++
      (if Label.archive = label then job.linkFlags.staticArchives.map fun archive =>
        archive ++ ':' :: digestOf sha256 job.files archive else []) ++
      (if Label.libdir = label then job.linkFlags.libDirs else []) ++
      (if Label.lib = label then job.linkFlags.libs else []) := by
  have hhead (label' : Label) (text : Text) (rest : List (Label × Text)) :
      values label ((label', text) :: rest) = (if label' = label then [text] else []) ++ values label rest := by
    rw [values_cons]
    split_ifs <;> rfl
  have hnil : values label [] = [] := rfl
  simp only [keyEntries, values_append, hhead, hnil, values_each, values_map, values_libs job.files label hlabel,
    append_nil, append_assoc]

theorem records_of_entries (hsha : Digests sha256)
    (h : keyEntries sha256 job config = keyEntries sha256 job' config') :
    Records job job' config config' := by
  have hvalues (label : Label) (hlabel : label ≠ .linkedArtifact) :=
    (values_keyEntries label hlabel).symm.trans
      ((congrArg (values label) h).trans (values_keyEntries label hlabel))
  refine ⟨kindCode_injective ?_, ?_, ?_, ?_, ?_, ?_, ?_, ?_, ?_, ?_, ?_⟩
  · simpa using hvalues .kind (by decide)
  · simpa using hvalues .opt (by decide)
  · simpa using hvalues .arch (by decide)
  · simpa using hvalues .cflag (by decide)
  · simpa using hvalues .lflag (by decide)
  · simpa using hvalues .configLibdir (by decide)
  · simpa using hvalues .configLib (by decide)
  · simpa using hvalues .pkgFlag (by decide)
  · apply map_eq_map_inj (archive_inj hsha job.files job'.files)
    simpa using hvalues .archive (by decide)
  · simpa using hvalues .libdir (by decide)
  · simpa using hvalues .lib (by decide)

end Recovery

def linkedTargets (job : Job) : List (TargetKind × Text) :=
  (collectTargetLinkDependencies job.targetsByName (job.targetsByName.length + 1) job.target ([], [])).1.map
    fun target => (target.kind, target.name)

structure Agrees (normal : Text → Text) (job job' : Job) (config config' : BuildConfig) : Prop where
  backend : job.backend = job'.backend
  entry : job.entryPath normal = job'.entryPath normal
  linked : linkedTargets job = linkedTargets job'
  staticDeps : config.staticDeps.getD false = config'.staticDeps.getD false
  runtime : config.staticCppRuntime.getD false = config'.staticCppRuntime.getD false

theorem foldl_linkDependency_eq (buildDir : Text) {dependencies dependencies' : List BuildTarget}
    (h : (dependencies.map fun target => (target.kind, target.name)) =
      dependencies'.map fun target => (target.kind, target.name)) (state : Text × Bool) :
    dependencies.foldl (linkDependency buildDir) state =
      dependencies'.foldl (linkDependency buildDir) state := by
  induction dependencies generalizing dependencies' state with
  | nil => rw [map_eq_nil_iff.1 h.symm]
  | cons dependency dependencies ih =>
    cases dependencies' with
    | nil => exact absurd h (cons_ne_nil _ _)
    | cons dependency' dependencies' =>
      obtain ⟨hhead, htail⟩ := List.cons.inj h
      obtain ⟨hkind, hname⟩ := Prod.mk.inj hhead
      have hstep : linkDependency buildDir state dependency =
          linkDependency buildDir state dependency' := by
        rw [linkDependency, linkDependency, hkind, hname]
      rw [foldl_cons, foldl_cons, hstep]
      exact ih htail _

theorem targetDependencyFlags_eq (job : Job) (buildDir : Text) :
    targetDependencyFlags job.targetsByName job.target buildDir =
      if job.target.kind ≠ .staticLibrary then
        let state := (collectTargetLinkDependencies job.targetsByName (job.targetsByName.length + 1)
          job.target ([], [])).1.foldl (linkDependency buildDir) ([], false)
        if state.2 then state.1 ++ ' ' :: shellQuote packageTargetRpathFlag else state.1
      else [] := by
  rw [targetDependencyFlags]
  by_cases hdepends : job.target.dependsOn = []
  · rw [if_neg (fun h => h.1 hdepends), collectTargetLinkDependencies, hdepends]
    split_ifs <;> rfl
  · exact if_congr (and_iff_right hdepends) rfl rfl

theorem commandOf_eq (hrecords : Records job job' config config') (hagrees : Agrees normal job job' config config')
    (output buildDir : Text) :
    commandOf normal job config output buildDir = commandOf normal job' config' output buildDir := by
  have hlinked := foldl_linkDependency_eq buildDir hagrees.linked ([], false)
  have hdependencies : targetDependencyFlags job.targetsByName job.target buildDir =
      targetDependencyFlags job'.targetsByName job'.target buildDir := by
    rw [targetDependencyFlags_eq, targetDependencyFlags_eq, hlinked, hrecords.kind]
  have hlibraries : libraryFlags job.linkFlags (config.staticDeps.getD false) =
      libraryFlags job'.linkFlags (config'.staticDeps.getD false) := by
    rw [libraryFlags, libraryFlags, hrecords.archives, hrecords.libDirs, hrecords.linkLibs, hagrees.staticDeps]
  have hinvocation : invocation normal job config output = invocation normal job' config' output := by
    rw [invocation, invocation, hagrees.backend, hagrees.entry, hrecords.kind, hrecords.opt, hrecords.arch]
  have hlinking : linking job config buildDir = linking job' config' buildDir := by
    rw [linking, linking, hrecords.libPaths, hrecords.libs, hdependencies, hlibraries]
  have hruntime : runtimeFlags config = runtimeFlags config' := by
    rw [runtimeFlags, runtimeFlags, hagrees.runtime]
  rw [commandOf, commandOf, hinvocation, hlinking, hruntime, hrecords.compilerFlags, hrecords.linkerFlags,
    hrecords.pkgFlags]

section Paths

variable {sha256 : Text → Text}

theorem joinPath_component {component : Text} (hne : directory ≠ []) (hlast : directory.getLast? ≠ some '/')
    (hcomponent : '/' ∉ component) : joinPath directory component = directory ++ '/' :: component := by
  have habsolute : isAbsolute component = false := by
    cases component with
    | nil => rfl
    | cons c component =>
      have hc : c ≠ '/' := fun h => hcomponent (h ▸ mem_cons_self)
      simp [isAbsolute, hc]
  rw [joinPath, if_neg (by simp [habsolute]), if_neg (not_or.2 ⟨hne, hlast⟩)]

theorem slash_notMem_fileName (path : Text) : '/' ∉ fileName path := by
  intro h
  have hmem := mem_rtakeWhile_imp h
  exact absurd hmem (by decide)

theorem joinPath_artifacts (directory : Text) :
    joinPath directory "artifacts".toList ≠ [] ∧
      (joinPath directory "artifacts".toList).getLast? = some 's' := by
  rw [joinPath, if_neg (by decide)]
  split_ifs <;> simp

theorem artifactCachePath_eq (hsha : Digests sha256) (h : artifactCachePath sha256 job config = some path) :
    path = joinPath config.globalCacheDir "artifacts".toList ++ '/' :: sha256 (keyOf sha256 job config) ++
    '/' :: fileName job.outputPath := by
  rw [artifactCachePath] at h
  split_ifs at h
  cases h
  obtain ⟨hne, hlast⟩ := joinPath_artifacts config.globalCacheDir
  have hdigest := hsha.notMem (c := '/') (by decide) (keyOf sha256 job config)
  have hlast' : (joinPath config.globalCacheDir "artifacts".toList).getLast? ≠ some '/' := by
    rw [hlast]
    decide
  have hend : (joinPath config.globalCacheDir "artifacts".toList ++
      '/' :: sha256 (keyOf sha256 job config)).getLast? ≠ some '/' := by
    obtain ⟨c, hc⟩ := Option.isSome_iff_exists.1 (getLast?_isSome.2 (hsha.nonempty (keyOf sha256 job config)))
    rw [getLast?_append, getLast?_cons, hc]
    intro heq
    cases heq
    exact hdigest (mem_of_getLast? hc)
  rw [joinPath_component hne hlast' hdigest, joinPath_component (append_ne_nil_of_left_ne_nil hne _) hend
    (slash_notMem_fileName _)]

theorem keyOf_eq_of_path (hsha : Digests sha256) (h : artifactCachePath sha256 job config = some path)
    (h' : artifactCachePath sha256 job' config' = some path) :
    keyOf sha256 job config = keyOf sha256 job' config' := by
  have heq := (artifactCachePath_eq hsha h).symm.trans (artifactCachePath_eq hsha h')
  obtain ⟨hdirectory, -⟩ := last_separator_inj (slash_notMem_fileName _) (slash_notMem_fileName _) heq
  obtain ⟨-, hdigest⟩ := last_separator_inj (hsha.notMem (by decide) _) (hsha.notMem (by decide) _) hdirectory
  exact hsha.injective hdigest

end Paths

variable (normal sha256 : Text → Text)

theorem command_eq_of_path {normal sha256 : Text → Text} (hsha : Digests sha256)
    (h : job.cachePath normal sha256 = some path) (h' : job'.cachePath normal sha256 = some path)
    (hbreaks : Unbroken job (job.config normal)) (hbreaks' : Unbroken job' (job'.config normal))
    (hagrees : Agrees normal job job' (job.config normal) (job'.config normal)) (output buildDir : Text) :
    job.command normal output buildDir = job'.command normal output buildDir := by
  have hkeys := keyOf_eq_of_path hsha h h'
  rw [keyOf_eq, keyOf_eq] at hkeys
  have hentries := lines_injective name_injective (readable_keyEntries hsha hbreaks)
    (readable_keyEntries hsha hbreaks') hkeys
  exact commandOf_eq (records_of_entries hsha hentries) hagrees output buildDir

/-- No job has a key of its own: the static runtime is not recorded. -/
theorem artifactKeys_separate (normal sha256 : Text → Text) (hsha : Digests sha256) :
    (∀ job : Job, ∃ other : Job, other.files = job.files ∧ other.pkg = job.pkg ∧
      other.cachePath normal sha256 = job.cachePath normal sha256 ∧
        ∀ output buildDir, other.command normal output buildDir ≠ job.command normal output buildDir) ∧
    (∀ (job : Job) (config : BuildConfig) (before behind : List Text) (f g : Text),
      artifactCachePath sha256 job
          { config with compilerFlags := before ++ (f ++ "\ncflag=".toList ++ g) :: behind } =
        artifactCachePath sha256 job { config with compilerFlags := before ++ f :: g :: behind } ∧
      ∀ output buildDir,
        commandOf normal job
            { config with compilerFlags := before ++ (f ++ "\ncflag=".toList ++ g) :: behind } output buildDir ≠
          commandOf normal job { config with compilerFlags := before ++ f :: g :: behind } output buildDir) ∧
    ∀ (job job' : Job) (path : Text), job.cachePath normal sha256 = some path →
      job'.cachePath normal sha256 = some path →
        Unbroken job (job.config normal) → Unbroken job' (job'.config normal) →
          Agrees normal job job' (job.config normal) (job'.config normal) →
            ∀ output buildDir, job.command normal output buildDir = job'.command normal output buildDir :=
  ⟨exists_collision,
    fun job config before behind f g =>
      ⟨artifactCachePath_breaks job config before behind f g,
        commandOf_breaks job config before behind f g⟩,
    fun _ _ _ h h' hbreaks hbreaks' hagrees => command_eq_of_path hsha h h' hbreaks hbreaks' hagrees⟩

def unaryDigest (text : Text) : Text := text.flatMap (fun c => List.replicate c.toNat '0' ++ ['1']) ++ ['f']

theorem unaryDigest_digests : Digests unaryDigest where
  injective := by
    intro text text' h
    have hbody := append_cancel_right h
    clear h
    induction text generalizing text' with
    | nil =>
      cases text' with
      | nil => rfl
      | cons c text' => simp at hbody
    | cons c text ih =>
      cases text' with
      | nil => simp at hbody
      | cons c' text' =>
        have hzeros (n : Nat) : '1' ∉ List.replicate n '0' := by
          intro h
          exact absurd (eq_of_mem_replicate h) (by decide)
        simp only [flatMap_cons, append_assoc, singleton_append] at hbody
        obtain ⟨hhead, htail⟩ := append_separator_inj (hzeros _) (hzeros _) hbody
        have hc : c.toNat = c'.toNat := by simpa using congrArg List.length hhead
        rw [Char.toNat_inj.1 hc, ih htail]
  digits := by
    intro text c hc
    rcases mem_append.1 hc with hc | hc
    · obtain ⟨d, -, hc⟩ := mem_flatMap.1 hc
      rcases mem_append.1 hc with hc | hc
      · rw [eq_of_mem_replicate hc]
        decide
      · rw [mem_singleton.1 hc]
        decide
    · rw [mem_singleton.1 hc]
      decide
  nonempty := fun _ => append_ne_nil_of_right_ne_nil _ (cons_ne_nil _ _)

def optionJob (x y : String) : Job where
  mlangVersion := "1.0.0".toList
  files := { sources := fun _ => [], content := fun _ => none }
  pkg := { manifestPath := "/p/mlang.toml".toList, packageDir := "/p".toList, includeTarget := [] }
  packageConfig :=
    { profileName := "dev".toList, globalCacheDir := "/c".toList,
      compilerFlags := [placeholder "option.x".toList, placeholder "option.y".toList],
      optionValues := [("x".toList, x.toList), ("y".toList, y.toList)] }
  target :=
    { name := "app".toList, entry := "src/main.mla".toList, kind := .executable, dependsOn := [],
      config := {} }
  targetsByName := []
  linkFlags := { libDirs := [], libs := [], staticArchives := [] }
  pkgFlags := []
  optFlagOverride := []
  backend := "mlang".toList
  buildDir := "/p/build".toList

/-- The package with other options would be built by another command. -/
theorem optionJob_collides :
    ∃ other : Job, other.files = (optionJob "-DA" "-DB").files ∧ other.pkg = (optionJob "-DA" "-DB").pkg ∧
      other.cachePath id unaryDigest = (optionJob "-DA" "-DB").cachePath id unaryDigest ∧
        ∀ output buildDir,
          other.command id output buildDir ≠ (optionJob "-DA" "-DB").command id output buildDir :=
  (artifactKeys_separate id unaryDigest unaryDigest_digests).1 (optionJob "-DA" "-DB")

/-- A break in an option moves a flag from one fragment to the next without changing the key. -/
theorem brokenOption_shared :
    ¬ ∀ (normal sha256 : Text → Text), Digests sha256 → ∀ job job' : Job,
      (job.cachePath normal sha256).isSome → job.cachePath normal sha256 = job'.cachePath normal sha256 →
        ∀ output buildDir, job.command normal output buildDir = job'.command normal output buildDir := by
  intro h
  have hconfig : ((optionJob "-DA\ncflag=-DB" "-DC").config id).useGlobalCache = true ∧
      ((optionJob "-DA\ncflag=-DB" "-DC").config id).globalCacheDir = "/c".toList := by decide +kernel
  have hconfig' : ((optionJob "-DA" "-DB\ncflag=-DC").config id).useGlobalCache = true ∧
      ((optionJob "-DA" "-DB\ncflag=-DC").config id).globalCacheDir = "/c".toList := by decide +kernel
  have hkey : keyOf unaryDigest (optionJob "-DA\ncflag=-DB" "-DC")
        ((optionJob "-DA\ncflag=-DB" "-DC").config id) =
      keyOf unaryDigest (optionJob "-DA" "-DB\ncflag=-DC")
        ((optionJob "-DA" "-DB\ncflag=-DC").config id) := by decide +kernel
  have houtput : (optionJob "-DA\ncflag=-DB" "-DC").outputPath =
      (optionJob "-DA" "-DB\ncflag=-DC").outputPath := rfl
  have hsome : ((optionJob "-DA\ncflag=-DB" "-DC").cachePath id unaryDigest).isSome := by
    rw [Job.cachePath, artifactCachePath, hconfig.1, hconfig.2, if_neg (by decide)]
    rfl
  have hpath : (optionJob "-DA\ncflag=-DB" "-DC").cachePath id unaryDigest =
      (optionJob "-DA" "-DB\ncflag=-DC").cachePath id unaryDigest := by
    rw [Job.cachePath, Job.cachePath, artifactCachePath, artifactCachePath, hkey, houtput, hconfig.1,
      hconfig.2, hconfig'.1, hconfig'.2]
  have hcommands : (optionJob "-DA\ncflag=-DB" "-DC").command id [] [] ≠
      (optionJob "-DA" "-DB\ncflag=-DC").command id [] [] := by decide +kernel
  exact hcommands (h id unaryDigest unaryDigest_digests _ _ hsome hpath [] [])

end Mlang.ArtifactKeys
