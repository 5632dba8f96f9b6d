import Mlang.ProfileChains

namespace Mlang.FeatureClosure

open BracketedText (Text)
open OrderedTables DependencyLocks TomlText ManifestDependencies List
open PackageFeatures (FeatureDefinitions dependencyFeature parseFeatureDefinitions pendingFeatures
  expansionSteps expandFeatures)
open BuildCommands (BuildConfig mergeBuildConfig overriding)
open BuildProfiles ProfileChains

/-- A set of features that holds those that are asked for, and with each feature what it turns on. -/
structure FeatureClosed (definitions : FeatureDefinitions) (requestedFeatures : List Text)
    (noDefaultFeatures allFeatures : Bool) (S : Set Text) : Prop where
  requested : ∀ feature ∈ requestedFeatures, feature ≠ [] → feature ∈ S
  defaults : noDefaultFeatures = false → ∀ members, find definitions "default".toList = some members →
    ∀ feature ∈ members, feature ∈ S
  declared : allFeatures = true → ∀ feature, (find definitions feature).isSome = true →
    feature ≠ "default".toList → feature ∈ S
  members : ∀ feature ∈ S, dependencyFeature feature = false → ∀ members,
    find definitions feature = some members → ∀ member ∈ members, member ∈ S

/-- What the options say of each feature. -/
structure FeatureOptions (definitions : FeatureDefinitions) (enabled : List Text)
    (before after : Table Text Text) : Prop where
  on : ∀ feature ∈ enabled, find after (featureOption feature) = some "1".toList
  off : ∀ feature, feature ∉ enabled → (find definitions feature).isSome = true →
    feature ≠ "default".toList → find after (featureOption feature) = some "0".toList
  kept : ∀ option, option ≠ "profile".toList →
    (∀ feature, option = featureOption feature → feature ∉ enabled ∧
      ((find definitions feature).isSome = true → feature = "default".toList)) →
    find after option = find before option

variable {definitions : FeatureDefinitions} {lines : List Text} {feature value : Text}

theorem key_ne_nil_of_parse {line : Text} {assignment : ParsedTomlAssignment}
    (h : (parseTomlAssignment line lines).1 = some assignment) : assignment.key ≠ [] := by
  unfold parseTomlAssignment at h
  cases hsplit : splitAssignment .outside line with
  | none =>
    rw [hsplit] at h
    cases h
  | some parts =>
    rw [hsplit] at h
    dsimp only at h
    obtain ⟨hkey, heq⟩ := Option.ite_none_left_eq_some.1 h
    cases heq
    exact hkey

theorem key_ne_nil_of_mem {wanted : Text → Bool} {collected : Nat} {current : Text}
    {entry : SectionAssignment} (h : entry ∈ assignmentsIn wanted collected current lines) :
    entry.assignment.key ≠ [] := by
  induction lines generalizing collected current with
  | nil =>
    rw [assignmentsIn] at h
    cases h
  | cons line lines ih =>
    cases collected with
    | succ collected =>
      rw [assignmentsIn] at h
      exact ih h
    | zero =>
      rw [assignmentsIn] at h
      dsimp only at h
      by_cases hempty : stripTomlComment line = []
      · rw [if_pos hempty] at h
        exact ih h
      · rw [if_neg hempty] at h
        cases hheader : sectionHeader (stripTomlComment line) with
        | some header =>
          rw [hheader] at h
          exact ih h
        | none =>
          rw [hheader] at h
          dsimp only at h
          by_cases hwanted : wanted current = true
          · rw [if_pos hwanted] at h
            rcases mem_append.1 h with h | h
            · obtain ⟨assignment, hparsed, rfl⟩ := Option.map_eq_some_iff.1 (Option.mem_toList.1 h)
              exact key_ne_nil_of_parse hparsed
            · exact ih h
          · rw [if_neg hwanted] at h
            exact ih h

theorem ne_nil_of_mem_tomlStringList {part : Text} (h : part ∈ tomlStringList value) : part ≠ [] := by
  simpa using (mem_filter.1 h).2

structure Declared (definitions : FeatureDefinitions) : Prop where
  distinct : (definitions.map Prod.fst).Nodup
  named : ∀ definition ∈ definitions, definition.1 ≠ []
  members : ∀ definition ∈ definitions, ∀ member ∈ definition.2, member ≠ []

theorem declared_insert (h : Declared definitions) {key : Text} (hkey : key ≠ []) :
    Declared (insert textBefore definitions key ((find definitions key).getD [] ++ tomlStringList value))
    where
  distinct := nodup_insert textBefore h.distinct key _
  named := by
    intro definition hmem
    rcases (mem_insert textBefore definitions key _ definition).1 hmem with rfl | ⟨hmem, -⟩
    · exact hkey
    · exact h.named definition hmem
  members := by
    intro definition hmem
    rcases (mem_insert textBefore definitions key _ definition).1 hmem with rfl | ⟨hmem, -⟩
    · intro member hmember
      rcases mem_append.1 hmember with hmember | hmember
      · cases hfind : find definitions key with
        | none =>
          rw [hfind] at hmember
          cases hmember
        | some members =>
          rw [hfind] at hmember
          exact h.members _ (mem_of_find hfind) member hmember
      · exact ne_nil_of_mem_tomlStringList hmember
    · exact h.members definition hmem

theorem declared_parseFeatureDefinitions (content : Text) :
    Declared (parseFeatureDefinitions content) := by
  have hfold : ∀ entries : List SectionAssignment, (∀ entry ∈ entries, entry.assignment.key ≠ []) →
      ∀ definitions, Declared definitions → Declared (entries.foldl (fun definitions entry =>
        insert textBefore definitions entry.assignment.key
          ((find definitions entry.assignment.key).getD [] ++ tomlStringList entry.assignment.value))
        definitions) := by
    intro entries
    induction entries with
    | nil => exact fun _ _ h => h
    | cons entry entries ih =>
      intro hkeys definitions h
      obtain ⟨hkey, hkeys⟩ := forall_mem_cons.1 hkeys
      exact ih hkeys _ (declared_insert h hkey)
  exact hfold _ (fun _ h => key_ne_nil_of_mem h) []
    ⟨nodup_nil, forall_mem_nil _, forall_mem_nil _⟩

theorem Declared.find_of_mem (h : Declared definitions) {definition : Text × List Text}
    (hmem : definition ∈ definitions) : find definitions definition.1 = some definition.2 := by
  cases hfind : find definitions definition.1 with
  | none => exact absurd rfl (find_eq_none.1 hfind definition hmem)
  | some members => rw [eq_of_mem h.distinct hmem (mem_of_find hfind) rfl]

theorem isSome_find_iff : (find definitions feature).isSome = true ↔
    feature ∈ definitions.map Prod.fst := by
  constructor
  · intro h
    obtain ⟨members, hfind⟩ := Option.isSome_iff_exists.1 h
    exact mem_map.2 ⟨_, mem_of_find hfind, rfl⟩
  · intro h
    obtain ⟨definition, hmem, rfl⟩ := mem_map.1 h
    cases hfind : find definitions definition.1 with
    | none => exact absurd rfl (find_eq_none.1 hfind definition hmem)
    | some members => rfl

section Closures

variable {requestedFeatures : List Text} {noDefaultFeatures allFeatures : Bool}

theorem mem_pendingFeatures : feature ∈
    pendingFeatures definitions requestedFeatures noDefaultFeatures allFeatures ↔
    feature ∈ requestedFeatures ∨
    (noDefaultFeatures = false ∧ feature ∈ (find definitions "default".toList).getD []) ∨
    (allFeatures = true ∧ (find definitions feature).isSome = true ∧ feature ≠ "default".toList) := by
  rw [pendingFeatures, mem_append, mem_append, isSome_find_iff, or_assoc]
  generalize "default".toList = default
  cases noDefaultFeatures <;> cases allFeatures <;> simp

theorem closed_iff (h : Declared definitions) (S : Set Text) :
    Worklists.Closed (· = []) (featureMembers definitions)
        (pendingFeatures definitions requestedFeatures noDefaultFeatures allFeatures) S ↔
      FeatureClosed definitions requestedFeatures noDefaultFeatures allFeatures S := by
  have hmembers : ∀ {feature members}, find definitions feature = some members →
      ∀ member ∈ members, member ≠ [] := fun hfind => h.members _ (mem_of_find hfind)
  constructor
  · intro hclosed
    refine ⟨fun feature hmem hne => ?_, fun hdefaults members hfind feature hmem => ?_,
      fun hall feature hsome hne => ?_, fun feature hmem hdep members hfind member hmember => ?_⟩
    · exact hclosed.starts feature (mem_pendingFeatures.2 (.inl hmem)) hne
    · refine hclosed.starts feature (mem_pendingFeatures.2 (.inr (.inl ⟨hdefaults, ?_⟩)))
        (hmembers hfind feature hmem)
      rwa [hfind]
    · obtain ⟨definition, hdefinition, hname⟩ := mem_map.1 (isSome_find_iff.1 hsome)
      exact hclosed.starts feature (mem_pendingFeatures.2 (.inr (.inr ⟨hall, hsome, hne⟩)))
        (hname ▸ h.named definition hdefinition)
    · refine hclosed.follows feature hmem member ?_ (hmembers hfind member hmember)
      rw [featureMembers, hdep, hfind]
      exact hmember
  · intro hclosed
    refine ⟨fun feature hmem hne => ?_, fun feature hmem member hmember _ => ?_⟩
    · rcases mem_pendingFeatures.1 hmem with hmem | ⟨hdefaults, hmem⟩ | ⟨hall, hsome, hname⟩
      · exact hclosed.requested feature hmem hne
      · cases hfind : find definitions "default".toList with
        | none =>
          rw [hfind] at hmem
          cases hmem
        | some members =>
          rw [hfind] at hmem
          exact hclosed.defaults hdefaults members hfind feature hmem
      · exact hclosed.declared hall feature hsome hname
    · rw [featureMembers] at hmember
      split_ifs at hmember with hdep
      · cases hmember
      · cases hfind : find definitions feature with
        | none =>
          rw [hfind] at hmember
          cases hmember
        | some members =>
          rw [hfind] at hmember
          exact hclosed.members feature hmem (Bool.eq_false_iff.2 hdep) members hfind member hmember

theorem length_featureMembers_le (h : Declared definitions) :
    ((definitions.map Prod.fst).map fun feature => (featureMembers definitions feature).length).sum ≤
      (definitions.map fun definition => definition.2.length).sum := by
  rw [map_map]
  refine sum_le_sum fun definition hmem => ?_
  rw [Function.comp_apply, featureMembers]
  split_ifs
  · exact Nat.zero_le _
  · rw [h.find_of_mem hmem]
    exact le_rfl

theorem drain_features (h : Declared definitions) :
    ∃ enabled, Worklists.drain (· = []) (featureMembers definitions)
        (expansionSteps definitions
          (pendingFeatures definitions requestedFeatures noDefaultFeatures allFeatures) + 1)
        (pendingFeatures definitions requestedFeatures noDefaultFeatures allFeatures) [] = some enabled ∧
      enabled.Nodup ∧
      IsLeast {S | FeatureClosed definitions requestedFeatures noDefaultFeatures allFeatures S}
        {feature | feature ∈ enabled} := by
  have hnodes : ∀ feature, featureMembers definitions feature ≠ [] →
      feature ∈ definitions.map Prod.fst := by
    intro feature hne
    rw [featureMembers] at hne
    split_ifs at hne
    · exact absurd rfl hne
    · refine isSome_find_iff.1 ?_
      cases hfind : find definitions feature with
      | none =>
        rw [hfind] at hne
        exact absurd rfl hne
      | some members => rfl
  have hsteps := length_featureMembers_le h
  obtain ⟨enabled, hdrain, hnodup, hleast⟩ := @Worklists.drains Text _ (· = []) _
    (featureMembers definitions)
    (pendingFeatures definitions requestedFeatures noDefaultFeatures allFeatures) _ hnodes
    (expansionSteps definitions
      (pendingFeatures definitions requestedFeatures noDefaultFeatures allFeatures) + 1)
    (Nat.lt_succ_of_le (Nat.add_le_add_left hsteps _))
  refine ⟨enabled, hdrain, hnodup, ?_⟩
  simpa only [closed_iff h] using hleast

end Closures

variable {enabled : List Text}

section Options

variable {optionValues : Table Text Text}

theorem find_foldl_insert {α : Type} (key : α → Text) (value : Text) (entries : List α)
    (table : Table Text Text) (option : Text) :
    find (entries.foldl (fun values entry => insert textBefore values (key entry) value) table) option =
      if option ∈ entries.map key then some value else find table option := by
  induction entries generalizing table with
  | nil => rfl
  | cons entry entries ih =>
    rw [foldl_cons, ih, find_insert, map_cons]
    by_cases hrest : option ∈ entries.map key
    · rw [if_pos hrest, if_pos (mem_cons_of_mem _ hrest)]
    · rw [if_neg hrest]
      exact if_congr (by simp [hrest]) rfl rfl

theorem featureOption_inj {feature' : Text} :
    featureOption feature = featureOption feature' ↔ feature = feature' :=
  append_right_inj "feature.".toList

theorem featureOption_ne_profile (feature : Text) : featureOption feature ≠ "profile".toList := by
  intro h
  have hfeature : "feature.".toList = 'f' :: "eature.".toList := by decide
  have hprofile : "profile".toList = 'p' :: "rofile".toList := by decide
  unfold featureOption at h
  rw [hfeature, hprofile, cons_append] at h
  exact absurd (head_eq_of_cons_eq h) (by decide)

theorem find_featureOptions (option : Text) :
    find (featureOptions definitions enabled optionValues) option =
      if option ∈ enabled.map featureOption then some "1".toList
      else if option ∈ (definitions.filter fun definition => definition.1 ≠ "default".toList).map
        fun definition => featureOption definition.1 then some "0".toList
      else find optionValues option := by
  rw [featureOptions, find_foldl_insert,
    find_foldl_insert fun definition : Text × List Text => featureOption definition.1]

theorem mem_switched {option : Text} :
    (option ∈ (definitions.filter fun definition => definition.1 ≠ "default".toList).map
      fun definition => featureOption definition.1) ↔
      ∃ feature, option = featureOption feature ∧ (find definitions feature).isSome = true ∧
        feature ≠ "default".toList := by
  rw [mem_map]
  constructor
  · rintro ⟨definition, hmem, rfl⟩
    obtain ⟨hmem, hname⟩ := mem_filter.1 hmem
    exact ⟨definition.1, rfl, isSome_find_iff.2 (mem_map.2 ⟨definition, hmem, rfl⟩),
      of_decide_eq_true hname⟩
  · rintro ⟨feature, rfl, hsome, hname⟩
    obtain ⟨definition, hmem, rfl⟩ := mem_map.1 (isSome_find_iff.1 hsome)
    exact ⟨definition, mem_filter.2 ⟨hmem, decide_eq_true hname⟩, rfl⟩

theorem featureOptions_correct (profile : Text) :
    FeatureOptions definitions enabled optionValues
      (insert textBefore (featureOptions definitions enabled optionValues) "profile".toList profile) where
  on := by
    intro feature hmem
    rw [find_insert, if_neg (featureOption_ne_profile feature), find_featureOptions,
      if_pos (mem_map.2 ⟨feature, hmem, rfl⟩)]
  off := by
    intro feature hmem hsome hname
    rw [find_insert, if_neg (featureOption_ne_profile feature), find_featureOptions, if_neg,
      if_pos (mem_switched.2 ⟨feature, rfl, hsome, hname⟩)]
    intro hmap
    obtain ⟨feature', hmem', heq⟩ := mem_map.1 hmap
    exact hmem (featureOption_inj.1 heq ▸ hmem')
  kept := by
    intro option hprofile hother
    rw [find_insert, if_neg hprofile, find_featureOptions, if_neg, if_neg]
    · intro hmap
      obtain ⟨feature, rfl, hsome, hname⟩ := mem_switched.1 hmap
      exact hname ((hother feature rfl).2 hsome)
    · intro hmap
      obtain ⟨feature, hmem, rfl⟩ := mem_map.1 hmap
      exact (hother feature rfl).1 hmem

end Options

variable {content profileName : Text} {config : BuildConfig} {requestedFeatures : List Text}
  {noDefaultFeatures allFeatures : Bool}

theorem configureProfile_ok_iff : (∃ profiled, configureProfile content config profileName = .ok profiled) ↔
    profileName = [] ∨ ∃ chain, ProfileChain content profileName chain := by
  by_cases hname : profileName = []
  · rw [configureProfile, if_pos hname]
    exact iff_of_true ⟨_, rfl⟩ (.inl hname)
  · rw [configureProfile, if_neg hname]
    constructor
    · rintro ⟨profiled, h⟩
      cases hprofile : parseProfileRecursive content ((textLines content).length + 1) [] profileName
          (presetProfile profileName) with
      | error failure =>
        rw [hprofile] at h
        cases h
      | ok profile =>
        obtain ⟨chain, hchain, -⟩ := parseProfileRecursive_ok hprofile
        exact .inr ⟨chain, hchain⟩
    · rintro (h | ⟨chain, hchain⟩)
      · exact absurd h hname
      · have hlength := length_le_textLines hchain.nodup fun name hmem => hchain.hasSection hmem
        rw [parseProfileRecursive_chain hchain (fun _ _ => not_mem_nil) (Nat.lt_succ_of_le hlength)]
        exact ⟨_, rfl⟩

theorem configureProfileAndFeatures_of_profile {profiled : BuildConfig}
    (h : configureProfile content config profileName = .ok profiled) :
    ∃ enabled : List Text, enabled.Nodup ∧
      IsLeast {S | FeatureClosed (parseFeatureDefinitions content) requestedFeatures noDefaultFeatures
        allFeatures S} {feature | feature ∈ enabled} ∧
      configureProfileAndFeatures content config profileName requestedFeatures noDefaultFeatures
        allFeatures =
          .ok (enableFeatures (parseFeatureDefinitions content) enabled allFeatures profiled) := by
  obtain ⟨enabled, hdrain, hnodup, hleast⟩ := @drain_features _ requestedFeatures noDefaultFeatures
    allFeatures (declared_parseFeatureDefinitions content)
  refine ⟨enabled, hnodup, hleast, ?_⟩
  rw [configureProfileAndFeatures, h, Except.bind]
  dsimp only
  rw [hdrain]

theorem sorted_enableFeatures (h : enabled.Nodup) :
    (enableFeatures definitions enabled allFeatures config).enabledFeatures.Pairwise (· < ·) := by
  have hsorted : (enableFeatures definitions enabled allFeatures config).enabledFeatures.Pairwise (· ≤ ·) :=
    pairwise_insertionSort _ enabled
  have hnodup : (enableFeatures definitions enabled allFeatures config).enabledFeatures.Nodup :=
    (perm_insertionSort _ enabled).nodup_iff.2 h
  exact (hsorted.and hnodup).imp fun hlt => lt_of_le_of_ne hlt.1 hlt.2

theorem mem_enableFeatures : feature ∈
    (enableFeatures definitions enabled allFeatures config).enabledFeatures ↔ feature ∈ enabled :=
  mem_insertionSort _

/-- Features are resolved to the least set that is closed under what they turn on, and the options tell
which features are in it. -/
theorem configureProfileAndFeatures_features (content : Text) (config : BuildConfig) (profileName : Text)
    (requestedFeatures : List Text) (noDefaultFeatures allFeatures : Bool) :
    configureProfileAndFeatures content config profileName requestedFeatures noDefaultFeatures
        allFeatures ≠ .error .depth ∧
      ((∃ configured, configureProfileAndFeatures content config profileName requestedFeatures
          noDefaultFeatures allFeatures = .ok configured) ↔
        profileName = [] ∨ ∃ chain, ProfileChain content profileName chain) ∧
      ∀ configured, configureProfileAndFeatures content config profileName requestedFeatures
          noDefaultFeatures allFeatures = .ok configured →
        configured.enabledFeatures.Pairwise (· < ·) ∧
          IsLeast {S | FeatureClosed (parseFeatureDefinitions content) requestedFeatures
            noDefaultFeatures allFeatures S} {feature | feature ∈ configured.enabledFeatures} ∧
          FeatureOptions (parseFeatureDefinitions content) configured.enabledFeatures
            config.optionValues configured.optionValues := by
  rw [← @configureProfile_ok_iff content profileName config]
  cases hprofile : configureProfile content config profileName with
  | error failure =>
    have hfailed : configureProfileAndFeatures content config profileName requestedFeatures
        noDefaultFeatures allFeatures = .error failure := by
      rw [configureProfileAndFeatures, hprofile]
      rfl
    rw [hfailed]
    refine ⟨fun h => configureProfile_ne_depth (hprofile.trans ?_),
      iff_of_false (fun ⟨_, h⟩ => (nomatch h)) (fun ⟨_, h⟩ => (nomatch h)), fun _ h => (nomatch h)⟩
    rw [Except.error.inj h]
  | ok profiled =>
    obtain ⟨enabled, hnodup, hleast, hconfigured⟩ :=
      @configureProfileAndFeatures_of_profile _ _ _ requestedFeatures noDefaultFeatures allFeatures _
        hprofile
    rw [hconfigured]
    refine ⟨fun h => (nomatch h), iff_of_true ⟨_, rfl⟩ ⟨_, rfl⟩, fun configured h => ?_⟩
    cases h
    refine ⟨sorted_enableFeatures hnodup, ?_, ?_⟩
    · simpa only [mem_enableFeatures] using hleast
    · rw [← configureProfile_optionValues hprofile]
      exact featureOptions_correct _

/-- Two features that turn each other on, and an option that looks like that of a third one. -/
def tracingManifest : Text :=
  "[tool.mlang.options]\nfeature.extra = \"1\"\n[features]\ndefault = [\"a\"]\na = [\"b\"]\nb = [\"a\"]".toList

theorem tracing_features :
    IsLeast {S | FeatureClosed (parseFeatureDefinitions tracingManifest) [] false false S}
      {feature | feature ∈ ["a".toList, "b".toList]} := by
  have hmanifest : ∃ configured, configureProfileAndFeatures tracingManifest {} [] [] false false =
      .ok configured ∧ configured.enabledFeatures = ["a".toList, "b".toList] := ⟨_, rfl, by decide⟩
  obtain ⟨configured, hconfigured, henabled⟩ := hmanifest
  have hfeatures := configureProfileAndFeatures_features tracingManifest {} [] [] false false
  exact henabled ▸ (hfeatures.2.2 configured hconfigured).2.1

/-- An option of a feature that is not enabled can be on. -/
theorem not_featureOption_iff :
    ¬ ∀ (content profileName : Text) (requestedFeatures : List Text) (noDefaultFeatures allFeatures : Bool)
      (configured : BuildConfig), configureProfileAndFeatures content (parseBuildConfig content)
          profileName requestedFeatures noDefaultFeatures allFeatures = .ok configured →
        ∀ feature, find configured.optionValues (featureOption feature) = some "1".toList ↔
          feature ∈ configured.enabledFeatures := by
  intro hclaim
  have hmanifest : ∃ configured, configureProfileAndFeatures tracingManifest
      (parseBuildConfig tracingManifest) [] [] false false = .ok configured ∧
        find configured.optionValues (featureOption "extra".toList) = some "1".toList ∧
        "extra".toList ∉ configured.enabledFeatures := ⟨_, rfl, by decide, by decide⟩
  obtain ⟨configured, hconfigured, hon, hmem⟩ := hmanifest
  exact hmem ((hclaim _ _ _ _ _ configured hconfigured _).1 hon)

theorem enabled_of_profile {content profileName : Text} {config profiled : BuildConfig}
    (h : configureProfile content config profileName = .ok profiled) (requested : List Text) (noDefault all : Bool) :
    ∃ c, configureProfileAndFeatures content config profileName requested noDefault all = .ok c ∧
      c.enabledFeatures.Pairwise (· < ·) ∧
      IsLeast {S | FeatureClosed (parseFeatureDefinitions content) requested noDefault all S}
        {feature | feature ∈ c.enabledFeatures} := by
  obtain ⟨enabled, hnodup, hleast, hconfigured⟩ :=
    @configureProfileAndFeatures_of_profile _ _ _ requested noDefault all _ h
  refine ⟨_, hconfigured, sorted_enableFeatures hnodup, ?_⟩
  simpa only [mem_enableFeatures] using hleast

theorem enabled_ne_nil {definitions : FeatureDefinitions} {requested enabled : List Text} {noDefault all : Bool}
    (h : Declared definitions)
    (hleast : IsLeast {S | FeatureClosed definitions requested noDefault all S} {feature | feature ∈ enabled}) :
    ∀ feature ∈ enabled, feature ≠ [] := by
  have hnamed : FeatureClosed definitions requested noDefault all {feature | feature ∈ enabled ∧ feature ≠ []} := by
    obtain ⟨hclosed, -⟩ := hleast
    have hmembers : ∀ {feature members}, find definitions feature = some members → ∀ member ∈ members, member ≠ [] :=
      fun hfind => h.members _ (mem_of_find hfind)
    refine ⟨fun feature hmem hne => ⟨hclosed.requested feature hmem hne, hne⟩,
      fun hdefaults members hfind feature hmem =>
        ⟨hclosed.defaults hdefaults members hfind feature hmem, hmembers hfind feature hmem⟩,
      fun hall feature hsome hne => ⟨hclosed.declared hall feature hsome hne, ?_⟩,
      fun feature hmem hdependency members hfind member hmember =>
        ⟨hclosed.members feature hmem.1 hdependency members hfind member hmember, hmembers hfind member hmember⟩⟩
    obtain ⟨definition, hdefinition, rfl⟩ := mem_map.1 (isSome_find_iff.1 hsome)
    exact h.named definition hdefinition
  exact fun feature hmem => (hleast.2 hnamed hmem).2

/-- Asking for more takes no feature away, and the features that were resolved are resolved to themselves. -/
theorem configureProfileAndFeatures_monotone (content : Text) (config : BuildConfig) (profileName : Text)
    (requested requested' : List Text) (noDefault all : Bool) (c : BuildConfig)
    (h : configureProfileAndFeatures content config profileName requested noDefault all = .ok c) :
    (∃ c', configureProfileAndFeatures content config profileName (requested ++ requested') noDefault all = .ok c' ∧
      ∀ feature ∈ c.enabledFeatures, feature ∈ c'.enabledFeatures) ∧
    ∃ again, configureProfileAndFeatures content config profileName c.enabledFeatures true false = .ok again ∧
      again.enabledFeatures = c.enabledFeatures := by
  cases hprofile : configureProfile content config profileName with
  | error failure =>
    rw [configureProfileAndFeatures, hprofile] at h
    cases h
  | ok profiled =>
    obtain ⟨_, hc, hsorted, hfeatures⟩ := enabled_of_profile hprofile requested noDefault all
    cases hc.symm.trans h
    have hne := enabled_ne_nil (declared_parseFeatureDefinitions content) hfeatures
    obtain ⟨hclosed, hleast⟩ := hfeatures
    obtain ⟨c', hc', -, hclosed', -⟩ := enabled_of_profile hprofile (requested ++ requested') noDefault all
    obtain ⟨again, hagain, hsorted', hclosed'', hleast''⟩ := enabled_of_profile hprofile c.enabledFeatures true false
    refine ⟨⟨c', hc', hleast ⟨fun feature hmem => hclosed'.requested feature (mem_append_left _ hmem),
      hclosed'.defaults, hclosed'.declared, hclosed'.members⟩⟩, again, hagain, ?_⟩
    refine hsorted'.eq_of_mem_iff hsorted fun feature => ⟨fun hmem => ?_, fun hmem => ?_⟩
    · exact hleast'' ⟨fun _ hmem _ => hmem, fun hdefaults => absurd hdefaults (by decide),
        fun hall => absurd hall (by decide), hclosed.members⟩ hmem
    · exact hclosed''.requested feature hmem (hne feature hmem)

theorem tracing_monotone : ∃ again, configureProfileAndFeatures tracingManifest {} [] ["a".toList, "b".toList] true
    false = .ok again ∧ again.enabledFeatures = ["a".toList, "b".toList] := by
  have hmanifest : ∃ configured, configureProfileAndFeatures tracingManifest {} [] [] false false =
      .ok configured ∧ configured.enabledFeatures = ["a".toList, "b".toList] := ⟨_, rfl, by decide⟩
  obtain ⟨configured, hconfigured, henabled⟩ := hmanifest
  exact henabled ▸ (configureProfileAndFeatures_monotone tracingManifest {} [] [] [] false false configured
    hconfigured).2

end Mlang.FeatureClosure
