import Mlang.FeatureClosure

namespace Mlang.ProfileKeys

open BracketedText (Text)
open TomlText List Option
open BuildCommands (BuildConfig mergeBuildConfig overriding appendUniqueFlag)
open BuildProfiles ProfileChains FeatureClosure

def sectionValues (content : Text) (key : BuildKey) (profileName : Text) : List Text :=
  (profileAssignments content profileName).filterMap fun assignment =>
    if buildKey assignment.key = some key then some assignment.value else none

/-- A configuration in which the assignments of the profiles stand behind those of `[tool.mlang]`. -/
def setDirectly (content : Text) (chain : List Text) (config : BuildConfig) : BuildConfig :=
  (chain.flatMap (profileAssignments content)).foldl (fun config assignment =>
    parseBuildConfigKeyValue config assignment.key assignment.value) config

def SameUnder (a b : BuildConfig) : BuildKey → Prop
  | .optLevel => a.optLevel = b.optLevel
  | .targetArch => a.targetArch = b.targetArch
  | .minMlangVersion => a.minMlangVersion = b.minMlangVersion
  | .makeProgram => a.makeProgram = b.makeProgram
  | .buildDir => a.buildDir = b.buildDir
  | .depsDir => a.depsDir = b.depsDir
  | .globalCacheDir => a.globalCacheDir = b.globalCacheDir
  | .vendorDir => a.vendorDir = b.vendorDir
  | .useGlobalCache => a.useGlobalCache = b.useGlobalCache
  | .logDir => a.logDir = b.logDir
  | .stdoutLog => a.stdoutLog = b.stdoutLog
  | .stderrLog => a.stderrLog = b.stderrLog
  | .warnLog => a.warnLog = b.warnLog
  | .compilerFlags => a.compilerFlags = b.compilerFlags
  | .pathEntries => a.pathEntries = b.pathEntries
  | .linkerFlags => a.linkerFlags = b.linkerFlags
  | .libPaths => a.libPaths = b.libPaths
  | .libs => a.libs = b.libs
  | .useNinja => a.useNinja = b.useNinja
  | .staticDeps => a.staticDeps = b.staticDeps
  | .staticCppRuntime => a.staticCppRuntime = b.staticCppRuntime
  | .taskPrintToStdoutLog => a.taskPrintToStdoutLog = b.taskPrintToStdoutLog

/-- A text that is set nowhere is not that of the preset, and an empty one that is nearest has no other
behind it. `sections` are the texts that the sections give. -/
def TextCarried (base preset : Text) (sections : List (List Text)) : Prop :=
  match sections.flatten.getLast? with
  | none => preset = [] ∨ preset = base
  | some nearest => nearest ≠ [] ∨
      (base = [] ∧ preset = [] ∧ ∀ texts ∈ sections, texts.getLast?.getD [] = [])

def ValueKept {α : Type} (base : α) (values : List α) : Prop := ∀ nearest ∈ values.getLast?, nearest = base

/-- When a key of a profile acts as in `[tool.mlang]`. -/
def Carried (content profileName : Text) (config : BuildConfig) (chain : List Text) : BuildKey → Prop
  | .optLevel => TextCarried config.optLevel (presetProfile profileName).optLevel
      (texts .optLevel fun value => normalizeOptLevel (unquote value))
  | .targetArch => TextCarried config.targetArch []
      (texts .targetArch fun value => normalizeTargetArchName (unquote value))
  | .minMlangVersion => TextCarried config.minMlangVersion [] (texts .minMlangVersion unquote)
  | .makeProgram => TextCarried config.makeProgram [] (texts .makeProgram unquote)
  | .buildDir => TextCarried config.buildDir [] (texts .buildDir unquote) ∧
      ((texts .buildDir unquote).flatten.getLast?.getD config.buildDir = [] →
        config.includedBuildDir ≠ [])
  | .depsDir => TextCarried config.depsDir [] (texts .depsDir unquote)
  | .globalCacheDir => TextCarried config.globalCacheDir [] (texts .globalCacheDir unquote)
  | .vendorDir => TextCarried config.vendorDir [] (texts .vendorDir unquote)
  | .useGlobalCache => ValueKept config.useGlobalCache (values .useGlobalCache parseTomlBoolValue)
  | .logDir => ValueKept config.logDir (values .logDir unquote)
  | .stdoutLog => ValueKept config.stdoutLog (values .stdoutLog unquote)
  | .stderrLog => ValueKept config.stderrLog (values .stderrLog unquote)
  | .warnLog => ValueKept config.warnLog (values .warnLog unquote)
  | .taskPrintToStdoutLog => ValueKept config.taskPrintToStdoutLog
      (values .taskPrintToStdoutLog fun value => some (parseTomlBoolValue value))
  | .compilerFlags => (config.compilerFlags ++ flags).Nodup ∧
      (profileName = "dev".toList →
        "--debug".toList ∈ config.compilerFlags ∨ flags.head? = some "--debug".toList)
  | .pathEntries | .linkerFlags | .libPaths | .libs | .useNinja | .staticDeps | .staticCppRuntime => True
where
  texts (key : BuildKey) (read : Text → Text) : List (List Text) :=
    chain.map fun name => (sectionValues content key name).map read
  values {α : Type} (key : BuildKey) (read : Text → α) : List α :=
    (chain.flatMap (sectionValues content key)).map read
  flags : List Text := (chain.flatMap (sectionValues content .compilerFlags)).flatMap tomlStringList

variable {base preset : Text} {sections : List (List Text)}

theorem overriding_assoc (a b c : Text) : overriding a (overriding b c) = overriding (overriding a b) c := by
  unfold overriding
  split_ifs <;> simp_all

def overridden (base : Text) (sections : List (List Text)) : Text :=
  sections.foldl (fun text texts => overriding text (texts.getLast?.getD [])) base

theorem overriding_overridden :
    overriding base (overridden preset sections) = overridden (overriding base preset) sections := by
  induction sections generalizing preset with
  | nil => rfl
  | cons texts sections ih =>
    have hnext := @ih (overriding preset (texts.getLast?.getD []))
    rw [overriding_assoc] at hnext
    exact hnext

theorem overridden_eq_nil_iff : overridden base sections = [] ↔
    base = [] ∧ ∀ texts ∈ sections, texts.getLast?.getD [] = [] := by
  induction sections generalizing base with
  | nil => simp [overridden]
  | cons texts sections ih =>
    have hfirst : overriding base (texts.getLast?.getD []) = [] ↔
        base = [] ∧ texts.getLast?.getD [] = [] := by
      unfold overriding
      split_ifs with h <;> simp_all
    rw [forall_mem_cons, ← and_assoc, ← hfirst]
    exact ih

theorem overridden_of_nearest {nearest : Text} (h : sections.flatten.getLast? = some nearest)
    (hne : nearest ≠ []) : overridden base sections = nearest := by
  induction sections generalizing base with
  | nil => cases h
  | cons texts sections ih =>
    rw [flatten_cons, getLast?_append] at h
    cases hrest : sections.flatten.getLast? with
    | some last =>
      rw [hrest, some_or] at h
      exact ih (hrest.trans h)
    | none =>
      rw [hrest, none_or] at h
      have hempty : sections.flatten = [] := List.getLast?_eq_none_iff.1 hrest
      have hkept : ∀ text, overridden text sections = text := by
        intro text
        clear ih hrest
        induction sections generalizing text with
        | nil => rfl
        | cons texts' sections ih =>
          obtain ⟨rfl, hrest⟩ := List.append_eq_nil_iff.1 hempty
          exact ih hrest text
      have hstep : overridden base (texts :: sections) =
          overridden (overriding base (texts.getLast?.getD [])) sections := rfl
      rw [hstep, hkept, h, getD_some, overriding, if_pos hne]

theorem overridden_of_none (h : sections.flatten.getLast? = none) : overridden base sections = base := by
  have hempty : sections.flatten = [] := List.getLast?_eq_none_iff.1 h
  clear h
  induction sections generalizing base with
  | nil => rfl
  | cons texts sections ih =>
    obtain ⟨rfl, hrest⟩ := List.append_eq_nil_iff.1 hempty
    exact ih hrest

theorem overriding_eq_self_iff : overriding base preset = base ↔ preset = [] ∨ preset = base := by
  unfold overriding
  split_ifs with h
  · exact ⟨.inr, fun hor => hor.resolve_left h⟩
  · exact iff_of_true rfl (.inl (not_not.1 h))

theorem overridden_eq_iff : overridden (overriding base preset) sections =
    sections.flatten.getLast?.getD base ↔ TextCarried base preset sections := by
  unfold TextCarried
  cases hnearest : sections.flatten.getLast? with
  | none => rw [overridden_of_none hnearest, getD_none, overriding_eq_self_iff]
  | some nearest =>
    rw [getD_some]
    by_cases hne : nearest = []
    · subst hne
      rw [overridden_eq_nil_iff]
      have hboth : overriding base preset = [] ↔ base = [] ∧ preset = [] := by
        unfold overriding
        split_ifs with h <;> simp_all
      rw [hboth, and_assoc]
      simp
    · exact iff_of_true (overridden_of_nearest hnearest hne) (.inl hne)

variable {profileName content : Text} {α : Type}
variable {chain : List Text}

section Fields

variable {config preset : BuildConfig}

def Sets (read : BuildConfig → α) (step : α → Text → α) (key : BuildKey) : Prop :=
  ∀ config value other, read (BuildKey.set config value other) =
    if other = key then step (read config) value else read config

variable {read : BuildConfig → α} {step : α → Text → α} {key : BuildKey}

theorem Sets.foldl (h : Sets read step key) (assignments : List ParsedTomlAssignment)
    (config : BuildConfig) :
    read (assignments.foldl (fun config assignment =>
        parseBuildConfigKeyValue config assignment.key assignment.value) config) =
      (assignments.filterMap fun assignment =>
        if buildKey assignment.key = some key then some assignment.value else none).foldl step
        (read config) := by
  induction assignments generalizing config with
  | nil => rfl
  | cons assignment assignments ih =>
    rw [foldl_cons, ih, parseBuildConfigKeyValue, filterMap_cons]
    cases hkey : buildKey assignment.key with
    | none => rw [if_neg (by rintro ⟨⟩)]
    | some other =>
      dsimp only
      rw [h]
      by_cases hother : other = key
      · rw [if_pos hother, if_pos (congrArg some hother)]
        rfl
      · rw [if_neg hother, if_neg (fun heq => hother (Option.some.inj heq))]

theorem Sets.read_setDirectly (h : Sets read step key) : read (setDirectly content chain config) =
    (chain.flatMap (sectionValues content key)).foldl step (read config) := by
  have hvalues : (chain.flatMap (profileAssignments content)).filterMap (fun assignment =>
      if buildKey assignment.key = some key then some assignment.value else none) =
        chain.flatMap (sectionValues content key) := filterMap_flatMap
  rw [setDirectly, h.foldl, hvalues]

theorem Sets.read_profileSection (h : Sets read step key) (name : Text) :
    read (profileSection content name) = (sectionValues content key name).foldl step (read {}) :=
  h.foldl _ _

theorem foldl_last (f : Text → α) (base : α) (values : List Text) :
    values.foldl (fun _ value => f value) base = (values.map f).getLast?.getD base := by
  induction values using List.reverseRecOn with
  | nil => rfl
  | append_singleton values value _ =>
    rw [foldl_append, map_append, map_singleton, getLast?_concat]
    rfl

theorem ignored_iff {f : Text → α} (hsets : Sets read (fun _ value => f value) key)
    (hmerge : ∀ a b, read (mergeBuildConfig a b) = read a) :
    read (mergeBuildConfig config (mergeSections content chain preset)) =
        read (setDirectly content chain config) ↔
      ValueKept (read config) ((chain.flatMap (sectionValues content key)).map f) := by
  rw [hmerge, hsets.read_setDirectly, foldl_last]
  unfold ValueKept
  cases ((chain.flatMap (sectionValues content key)).map f).getLast? with
  | none => exact iff_of_true rfl fun _ h => (nomatch h)
  | some nearest =>
    rw [getD_some]
    exact ⟨fun h other hother => (Option.mem_some_iff.1 hother) ▸ h.symm, fun h => (h nearest rfl).symm⟩

end Fields

section Families

variable {config preset : BuildConfig} {key : BuildKey}

theorem read_mergeSections_text {read : BuildConfig → Text} {f : Text → Text}
    (hsets : Sets read (fun _ value => f value) key)
    (hmerge : ∀ a b, read (mergeBuildConfig a b) = overriding (read a) (read b)) (hempty : read {} = []) :
    read (mergeSections content chain preset) =
      overridden (read preset) (chain.map fun name => (sectionValues content key name).map f) := by
  induction chain generalizing preset with
  | nil => rfl
  | cons name chain ih =>
    refine (@ih (mergeBuildConfig preset (profileSection content name))).trans ?_
    rw [hmerge, hsets.read_profileSection, foldl_last, hempty]
    rfl

theorem read_setDirectly_text {read : BuildConfig → Text} {f : Text → Text}
    (hsets : Sets read (fun _ value => f value) key) :
    read (setDirectly content chain config) =
      (chain.map fun name => (sectionValues content key name).map f).flatten.getLast?.getD
        (read config) := by
  rw [hsets.read_setDirectly, foldl_last, map_flatMap, flatMap_def]

theorem text_iff {read : BuildConfig → Text} {f : Text → Text}
    (hsets : Sets read (fun _ value => f value) key)
    (hmerge : ∀ a b, read (mergeBuildConfig a b) = overriding (read a) (read b)) (hempty : read {} = []) :
    read (mergeBuildConfig config (mergeSections content chain preset)) =
        read (setDirectly content chain config) ↔
      TextCarried (read config) (read preset)
        (chain.map fun name => (sectionValues content key name).map f) := by
  rw [hmerge, read_mergeSections_text hsets hmerge hempty, overriding_overridden,
    read_setDirectly_text hsets, overridden_eq_iff]

theorem foldl_append_flatMap (read : Text → List Text) (values base : List Text) :
    values.foldl (fun list value => list ++ read value) base = base ++ values.flatMap read := by
  induction values generalizing base with
  | nil => exact (append_nil base).symm
  | cons value values ih => rw [foldl_cons, ih, flatMap_cons, append_assoc]

theorem read_mergeSections_list {read : BuildConfig → List Text}
    (hsets : Sets read (fun list value => list ++ tomlStringList value) key)
    (hmerge : ∀ a b, read (mergeBuildConfig a b) = read a ++ read b) (hempty : read {} = []) :
    read (mergeSections content chain preset) =
      read preset ++ (chain.flatMap (sectionValues content key)).flatMap tomlStringList := by
  induction chain generalizing preset with
  | nil => exact (append_nil _).symm
  | cons name chain ih =>
    refine (@ih (mergeBuildConfig preset (profileSection content name))).trans ?_
    rw [hmerge, hsets.read_profileSection, foldl_append_flatMap, hempty, nil_append,
      flatMap_cons, flatMap_append, append_assoc]

theorem list_same {read : BuildConfig → List Text}
    (hsets : Sets read (fun list value => list ++ tomlStringList value) key)
    (hmerge : ∀ a b, read (mergeBuildConfig a b) = read a ++ read b) (hempty : read {} = [])
    (hpreset : read preset = []) :
    read (mergeBuildConfig config (mergeSections content chain preset)) =
      read (setDirectly content chain config) := by
  rw [hmerge, read_mergeSections_list hsets hmerge hempty, hpreset, nil_append,
    hsets.read_setDirectly, foldl_append_flatMap]

theorem foldl_flag (values : List Text) (base : Option Bool) :
    (values.foldl (fun _ value => some (parseTomlBoolValue value)) none <|> base) =
      values.foldl (fun _ value => some (parseTomlBoolValue value)) base := by
  induction values using List.reverseRecOn with
  | nil => rfl
  | append_singleton values value _ =>
    rw [foldl_append, foldl_append]
    rfl

theorem read_mergeSections_flag {read : BuildConfig → Option Bool}
    (hsets : Sets read (fun _ value => some (parseTomlBoolValue value)) key)
    (hmerge : ∀ a b, read (mergeBuildConfig a b) = (read b <|> read a)) (hempty : read {} = none) :
    read (mergeSections content chain preset) =
      (chain.flatMap (sectionValues content key)).foldl
        (fun _ value => some (parseTomlBoolValue value)) (read preset) := by
  induction chain generalizing preset with
  | nil => rfl
  | cons name chain ih =>
    refine (@ih (mergeBuildConfig preset (profileSection content name))).trans ?_
    rw [hmerge, hsets.read_profileSection, hempty, foldl_flag, flatMap_cons, foldl_append]

theorem flag_same {read : BuildConfig → Option Bool}
    (hsets : Sets read (fun _ value => some (parseTomlBoolValue value)) key)
    (hmerge : ∀ a b, read (mergeBuildConfig a b) = (read b <|> read a)) (hempty : read {} = none)
    (hpreset : read preset = none) :
    read (mergeBuildConfig config (mergeSections content chain preset)) =
      read (setDirectly content chain config) := by
  rw [hmerge, read_mergeSections_flag hsets hmerge hempty, hpreset, foldl_flag, hsets.read_setDirectly]

end Families

section Flags

variable {base flags accepted : List Text} {flag : Text}

theorem nodup_foldl_appendUniqueFlag (h : accepted.Nodup) :
    (flags.foldl appendUniqueFlag accepted).Nodup := by
  induction flags generalizing accepted with
  | nil => exact h
  | cons flag flags ih =>
    refine ih ?_
    rw [appendUniqueFlag]
    split_ifs with hmem
    · exact h
    · have hnew : flag ∉ accepted := by simpa using hmem
      exact concat_eq_append ▸ List.Nodup.concat hnew h

theorem prefix_foldl_appendUniqueFlag : accepted <+: flags.foldl appendUniqueFlag accepted := by
  induction flags generalizing accepted with
  | nil => exact prefix_rfl
  | cons flag flags ih =>
    refine List.IsPrefix.trans ?_ ih
    rw [appendUniqueFlag]
    split_ifs
    · exact prefix_rfl
    · exact prefix_append _ _

theorem foldl_appendUniqueFlag_of_nodup (h : (accepted ++ flags).Nodup) :
    flags.foldl appendUniqueFlag accepted = accepted ++ flags := by
  induction flags generalizing accepted with
  | nil => exact (append_nil _).symm
  | cons flag flags ih =>
    have hnew : flag ∉ accepted := fun hmem =>
      (List.nodup_append.1 h).2.2 flag hmem flag mem_cons_self rfl
    have hcontains : ¬ accepted.contains flag = true := by simpa using hnew
    rw [append_cons] at h ⊢
    rw [foldl_cons, appendUniqueFlag, if_neg hcontains, ih h]

theorem unique_iff : (base ++ flags).foldl appendUniqueFlag [] = base ++ flags ↔ (base ++ flags).Nodup :=
  ⟨fun h => h ▸ nodup_foldl_appendUniqueFlag nodup_nil,
    @foldl_appendUniqueFlag_of_nodup (base ++ flags) []⟩

theorem unique_between_iff : (base ++ flag :: flags).foldl appendUniqueFlag [] = base ++ flags ↔
    (base ++ flags).Nodup ∧ (flag ∈ base ∨ flags.head? = some flag) := by
  have hfirst : base.Nodup → (base ++ flag :: flags).foldl appendUniqueFlag [] =
      flags.foldl appendUniqueFlag (appendUniqueFlag base flag) := by
    intro h
    rw [foldl_append, @foldl_appendUniqueFlag_of_nodup base [] h]
    rfl
  constructor
  · intro h
    have hnodup : (base ++ flags).Nodup := h ▸ nodup_foldl_appendUniqueFlag nodup_nil
    refine ⟨hnodup, or_iff_not_imp_left.2 fun hnew => ?_⟩
    have hcontains : ¬ base.contains flag = true := by simpa using hnew
    rw [hfirst (List.Nodup.of_append_left hnodup), appendUniqueFlag, if_neg hcontains] at h
    have hbefore : base ++ [flag] <+: base ++ flags := h ▸ prefix_foldl_appendUniqueFlag
    obtain ⟨rest, hrest⟩ := (prefix_append_right_inj base).1 hbefore
    rw [← hrest]
    rfl
  · rintro ⟨hnodup, hmem⟩
    rw [hfirst (List.Nodup.of_append_left hnodup), appendUniqueFlag]
    by_cases hbase : flag ∈ base
    · rw [if_pos (by simpa using hbase)]
      exact foldl_appendUniqueFlag_of_nodup hnodup
    · obtain ⟨rest, rfl⟩ := List.head?_eq_some_iff.1 (hmem.resolve_left hbase)
      have hagain : appendUniqueFlag (base ++ [flag]) flag = base ++ [flag] :=
        if_pos (by simp)
      rw [if_neg (by simpa using hbase), foldl_cons, hagain]
      rw [append_cons] at hnodup
      exact (foldl_appendUniqueFlag_of_nodup hnodup).trans (append_cons base flag rest).symm

end Flags

variable {config profiled : BuildConfig}

theorem configureProfile_eq (hname : profileName ≠ []) (hchain : ProfileChain content profileName chain) :
    configureProfile content config profileName =
      let merged := mergeBuildConfig config (mergeSections content chain (presetProfile profileName))
      .ok { merged with
        compilerFlags := merged.compilerFlags.foldl appendUniqueFlag []
        profileName := profileName
        buildDir :=
          if merged.buildDir = [] ∧ merged.includedBuildDir = [] then "build/".toList ++ profileName
          else merged.buildDir } := by
  have hlength := length_le_textLines hchain.nodup fun name hmem => hchain.hasSection hmem
  rw [configureProfile, if_neg hname,
    parseProfileRecursive_chain hchain (fun _ _ => not_mem_nil) (Nat.lt_succ_of_le hlength)]
  rfl

theorem presetProfile_compilerFlags : (presetProfile profileName).compilerFlags =
    if profileName = "dev".toList then ["--debug".toList] else [] := by
  unfold presetProfile
  split_ifs <;> rfl

theorem read_presetProfile {read : BuildConfig → α}
    (h : ∀ level flags, read { optLevel := level, compilerFlags := flags } = read {}) :
    read (presetProfile profileName) = read {} := by
  unfold presetProfile
  split_ifs
  · exact h _ _
  · exact h _ []
  · rfl

theorem compilerFlags_iff :
    (mergeBuildConfig config
        (mergeSections content chain (presetProfile profileName))).compilerFlags.foldl
          appendUniqueFlag [] = (setDirectly content chain config).compilerFlags ↔
      Carried content profileName config chain .compilerFlags := by
  have hsets : Sets BuildConfig.compilerFlags (fun list value => list ++ tomlStringList value)
      .compilerFlags := fun _ _ other => by cases other <;> rfl
  have hmerged : (mergeBuildConfig config
      (mergeSections content chain (presetProfile profileName))).compilerFlags =
        config.compilerFlags ++ ((presetProfile profileName).compilerFlags ++
          Carried.flags content chain) :=
    congrArg (config.compilerFlags ++ ·) (read_mergeSections_list hsets (fun _ _ => rfl) rfl)
  have hdirect : (setDirectly content chain config).compilerFlags =
      config.compilerFlags ++ Carried.flags content chain :=
    hsets.read_setDirectly.trans (foldl_append_flatMap _ _ _)
  rw [hmerged, hdirect, presetProfile_compilerFlags, Carried]
  by_cases hdev : profileName = "dev".toList
  · rw [if_pos hdev, singleton_append, unique_between_iff]
    exact and_congr Iff.rfl ⟨fun h _ => h, fun h => h hdev⟩
  · rw [if_neg hdev, nil_append, unique_iff]
    exact ⟨fun h => ⟨h, fun heq => absurd heq hdev⟩, And.left⟩

theorem buildDir_iff :
    (let merged := mergeBuildConfig config (mergeSections content chain (presetProfile profileName))
      if merged.buildDir = [] ∧ merged.includedBuildDir = [] then "build/".toList ++ profileName
      else merged.buildDir) = (setDirectly content chain config).buildDir ↔
      Carried content profileName config chain .buildDir := by
  have hsets : Sets (·.buildDir) (fun _ value => unquote value) .buildDir :=
    fun _ _ other => by cases other <;> rfl
  have hpreset : (presetProfile profileName).buildDir = [] :=
    @read_presetProfile profileName _ (·.buildDir) fun _ _ => rfl
  have hsame := @text_iff content chain config (presetProfile profileName) .buildDir
    (·.buildDir) unquote hsets (fun _ _ => rfl) rfl
  have hdirect := @read_setDirectly_text content chain config .buildDir (·.buildDir) unquote hsets
  have hnearest : (setDirectly content chain config).buildDir ≠ [] →
      (mergeBuildConfig config (mergeSections content chain (presetProfile profileName))).buildDir =
        (setDirectly content chain config).buildDir := by
    intro hne
    rw [hsame, hpreset]
    rw [hdirect] at hne
    unfold TextCarried
    cases hlast : (chain.map fun name =>
        (sectionValues content .buildDir name).map unquote).flatten.getLast? with
    | none => exact .inl rfl
    | some nearest =>
      rw [hlast] at hne
      exact .inl hne
  rw [hpreset] at hsame
  dsimp only
  rw [Carried, Carried.texts, ← hsame, ← hdirect]
  have hincluded : (mergeBuildConfig config
      (mergeSections content chain (presetProfile profileName))).includedBuildDir =
        config.includedBuildDir := rfl
  rw [hincluded]
  generalize (mergeBuildConfig config
    (mergeSections content chain (presetProfile profileName))).buildDir = merged at hnearest ⊢
  generalize (setDirectly content chain config).buildDir = direct at hnearest ⊢
  constructor
  · intro h
    by_cases hdirect : direct = []
    · subst hdirect
      split_ifs at h with hdefault
      · exact absurd h (by simp)
      · exact ⟨h, fun _ hincluded => hdefault ⟨h, hincluded⟩⟩
    · exact ⟨hnearest hdirect, fun hnil => absurd hnil hdirect⟩
  · rintro ⟨rfl, hincluded⟩
    exact if_neg fun h => hincluded h.1 h.2

theorem plain_text_iff {key : BuildKey} {read : BuildConfig → Text} {f : Text → Text}
    (hsets : Sets read (fun _ value => f value) key)
    (hmerge : ∀ a b, read (mergeBuildConfig a b) = overriding (read a) (read b)) (hempty : read {} = [])
    (hpreset : ∀ level flags, read { optLevel := level, compilerFlags := flags } = read {}) :
    read (mergeBuildConfig config (mergeSections content chain (presetProfile profileName))) =
        read (setDirectly content chain config) ↔
      TextCarried (read config) [] (chain.map fun name => (sectionValues content key name).map f) := by
  rw [text_iff hsets hmerge hempty, (read_presetProfile hpreset).trans hempty]

theorem merged_iff {key : BuildKey} (hflags : key ≠ .compilerFlags) (hdir : key ≠ .buildDir) :
    SameUnder (mergeBuildConfig config (mergeSections content chain (presetProfile profileName)))
        (setDirectly content chain config) key ↔ Carried content profileName config chain key := by
  cases key with
  | compilerFlags => exact absurd rfl hflags
  | buildDir => exact absurd rfl hdir
  | optLevel =>
    exact @text_iff _ _ _ _ .optLevel BuildConfig.optLevel _ (fun _ _ other => by cases other <;> rfl)
      (fun _ _ => rfl) rfl
  | targetArch =>
    exact @plain_text_iff _ _ _ _ .targetArch BuildConfig.targetArch _
      (fun _ _ other => by cases other <;> rfl) (fun _ _ => rfl) rfl fun _ _ => rfl
  | minMlangVersion =>
    exact @plain_text_iff _ _ _ _ .minMlangVersion BuildConfig.minMlangVersion _
      (fun _ _ other => by cases other <;> rfl) (fun _ _ => rfl) rfl fun _ _ => rfl
  | makeProgram =>
    exact @plain_text_iff _ _ _ _ .makeProgram BuildConfig.makeProgram _
      (fun _ _ other => by cases other <;> rfl) (fun _ _ => rfl) rfl fun _ _ => rfl
  | depsDir =>
    exact @plain_text_iff _ _ _ _ .depsDir (·.depsDir) _
      (fun _ _ other => by cases other <;> rfl) (fun _ _ => rfl) rfl fun _ _ => rfl
  | globalCacheDir =>
    exact @plain_text_iff _ _ _ _ .globalCacheDir (·.globalCacheDir) _
      (fun _ _ other => by cases other <;> rfl) (fun _ _ => rfl) rfl fun _ _ => rfl
  | vendorDir =>
    exact @plain_text_iff _ _ _ _ .vendorDir (·.vendorDir) _
      (fun _ _ other => by cases other <;> rfl) (fun _ _ => rfl) rfl fun _ _ => rfl
  | useGlobalCache =>
    exact @ignored_iff _ _ _ _ _ BuildConfig.useGlobalCache .useGlobalCache _
      (fun _ _ other => by cases other <;> rfl) fun _ _ => rfl
  | logDir =>
    exact @ignored_iff _ _ _ _ _ BuildConfig.logDir .logDir _
      (fun _ _ other => by cases other <;> rfl) fun _ _ => rfl
  | stdoutLog =>
    exact @ignored_iff _ _ _ _ _ BuildConfig.stdoutLog .stdoutLog _
      (fun _ _ other => by cases other <;> rfl) fun _ _ => rfl
  | stderrLog =>
    exact @ignored_iff _ _ _ _ _ BuildConfig.stderrLog .stderrLog _
      (fun _ _ other => by cases other <;> rfl) fun _ _ => rfl
  | warnLog =>
    exact @ignored_iff _ _ _ _ _ BuildConfig.warnLog .warnLog _
      (fun _ _ other => by cases other <;> rfl) fun _ _ => rfl
  | taskPrintToStdoutLog =>
    exact @ignored_iff _ _ _ _ _ BuildConfig.taskPrintToStdoutLog .taskPrintToStdoutLog _
      (fun _ _ other => by cases other <;> rfl) fun _ _ => rfl
  | pathEntries =>
    exact iff_of_true (@list_same _ _ _ _ .pathEntries BuildConfig.pathEntries
      (fun _ _ other => by cases other <;> rfl) (fun _ _ => rfl) rfl
      (read_presetProfile fun _ _ => rfl)) trivial
  | linkerFlags =>
    exact iff_of_true (@list_same _ _ _ _ .linkerFlags BuildConfig.linkerFlags
      (fun _ _ other => by cases other <;> rfl) (fun _ _ => rfl) rfl
      (read_presetProfile fun _ _ => rfl)) trivial
  | libPaths =>
    exact iff_of_true (@list_same _ _ _ _ .libPaths BuildConfig.libPaths
      (fun _ _ other => by cases other <;> rfl) (fun _ _ => rfl) rfl
      (read_presetProfile fun _ _ => rfl)) trivial
  | libs =>
    exact iff_of_true (@list_same _ _ _ _ .libs BuildConfig.libs
      (fun _ _ other => by cases other <;> rfl) (fun _ _ => rfl) rfl
      (read_presetProfile fun _ _ => rfl)) trivial
  | useNinja =>
    exact iff_of_true (@flag_same _ _ _ _ .useNinja BuildConfig.useNinja
      (fun _ _ other => by cases other <;> rfl) (fun _ _ => rfl) rfl
      (read_presetProfile fun _ _ => rfl)) trivial
  | staticDeps =>
    exact iff_of_true (@flag_same _ _ _ _ .staticDeps BuildConfig.staticDeps
      (fun _ _ other => by cases other <;> rfl) (fun _ _ => rfl) rfl
      (read_presetProfile fun _ _ => rfl)) trivial
  | staticCppRuntime =>
    exact iff_of_true (@flag_same _ _ _ _ .staticCppRuntime BuildConfig.staticCppRuntime
      (fun _ _ other => by cases other <;> rfl) (fun _ _ => rfl) rfl
      (read_presetProfile fun _ _ => rfl)) trivial

/-- A key of a chain of profiles acts as in `[tool.mlang]` if and only if it is carried. -/
theorem configureProfileAndFeatures_key_iff (content profileName : Text) (config : BuildConfig)
    (requestedFeatures : List Text) (noDefaultFeatures allFeatures : Bool) (chain : List Text)
    (hname : profileName ≠ []) (hchain : ProfileChain content profileName chain) :
    ∃ configured, configureProfileAndFeatures content config profileName requestedFeatures
        noDefaultFeatures allFeatures = .ok configured ∧
      ∀ key, SameUnder configured (setDirectly content chain config) key ↔
        Carried content profileName config chain key := by
  obtain ⟨enabled, -, -, hconfigured⟩ := @configureProfileAndFeatures_of_profile content profileName
    config requestedFeatures noDefaultFeatures allFeatures _ (configureProfile_eq hname hchain)
  refine ⟨_, hconfigured, fun key => ?_⟩
  by_cases hflags : key = .compilerFlags
  · subst hflags
    exact compilerFlags_iff
  · by_cases hdir : key = .buildDir
    · subst hdir
      exact buildDir_iff
    · rw [← merged_iff hflags hdir]
      cases key with
      | compilerFlags => exact absurd rfl hflags
      | buildDir => exact absurd rfl hdir
      | _ => exact Iff.rfl

def loggingManifest : Text := "[profile.p]\nlog_dir = \"logs\"\nlibs = [\"m\"]".toList

theorem logging_key_iff : ∃ configured, configureProfileAndFeatures loggingManifest {} "p".toList [] false
    false = .ok configured ∧ ∀ key, SameUnder configured (setDirectly loggingManifest ["p".toList] {}) key ↔
      Carried loggingManifest "p".toList {} ["p".toList] key :=
  configureProfileAndFeatures_key_iff loggingManifest "p".toList {} [] false false ["p".toList] (by decide)
    (.root _ (by decide) (by decide))

/-- The directory of the logs is not taken from the profile. -/
theorem not_profile_accepts_keys :
    ¬ ∀ (content profileName : Text) (config : BuildConfig) (requestedFeatures : List Text)
      (noDefaultFeatures allFeatures : Bool) (chain : List Text) (configured : BuildConfig),
      profileName ≠ [] → ProfileChain content profileName chain →
        configureProfileAndFeatures content config profileName requestedFeatures noDefaultFeatures
          allFeatures = .ok configured →
          ∀ key, SameUnder configured (setDirectly content chain config) key := by
  intro hclaim
  have hmanifest : ∃ configured, configureProfileAndFeatures loggingManifest {} "p".toList [] false false =
      .ok configured ∧ configured.logDir ≠ (setDirectly loggingManifest ["p".toList] {}).logDir :=
    ⟨_, rfl, by decide⟩
  obtain ⟨configured, hconfigured, hlogs⟩ := hmanifest
  exact hlogs (hclaim _ _ _ _ _ _ _ configured (by decide) (.root _ (by decide) (by decide)) hconfigured
    .logDir)

end Mlang.ProfileKeys
