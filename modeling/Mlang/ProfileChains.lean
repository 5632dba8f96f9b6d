import Mlang.BuildProfiles

namespace Mlang.ProfileChains

open BracketedText (Text)
open OrderedTables DependencyLocks TomlText ManifestDependencies BuildProfiles List
open BuildCommands (BuildConfig mergeBuildConfig)

variable {chain : List Text} {profileName content ancestor : Text}

inductive ProfileChain (content : Text) : Text → List Text → Prop
  | absent (profileName : Text) : hasSection content (sectionName profileName) = false →
      ProfileChain content profileName []
  | root (profileName : Text) : hasSection content (sectionName profileName) = true →
      inherited content profileName = [] → ProfileChain content profileName [profileName]
  | link (profileName : Text) (chain : List Text) :
      hasSection content (sectionName profileName) = true → inherited content profileName ≠ [] →
      ProfileChain content (inherited content profileName) chain →
      ProfileChain content profileName (chain ++ [profileName])

variable {chain' : List Text}

variable (h : ProfileChain content profileName chain)
include h

theorem ProfileChain.unique (h' : ProfileChain content profileName chain') : chain = chain' := by
  induction h generalizing chain' with
  | absent profileName habsent =>
    cases h' with
    | absent => rfl
    | root _ hsection | link _ _ hsection =>
      rw [habsent] at hsection
      cases hsection
  | root profileName hsection hroot =>
    cases h' with
    | absent _ habsent =>
      rw [habsent] at hsection
      cases hsection
    | root => rfl
    | link _ _ _ hlink => exact absurd hroot hlink
  | link profileName chain hsection hlink _ ih =>
    cases h' with
    | absent _ habsent =>
      rw [habsent] at hsection
      cases hsection
    | root _ _ hroot => exact absurd hroot hlink
    | link _ chain' _ _ hinherited => rw [ih hinherited]

theorem ProfileChain.of_mem (hmem : ancestor ∈ chain) :
    ∃ front, ProfileChain content ancestor front ∧ front <+: chain := by
  induction h with
  | absent => cases hmem
  | root profileName hsection hroot =>
    obtain rfl := mem_singleton.1 hmem
    exact ⟨_, .root _ hsection hroot, prefix_rfl⟩
  | link profileName chain hsection hlink hinherited ih =>
    rcases mem_append.1 hmem with hmem | hmem
    · obtain ⟨front, hfront, hbefore⟩ := ih hmem
      exact ⟨front, hfront, hbefore.trans (prefix_append _ _)⟩
    · obtain rfl := mem_singleton.1 hmem
      exact ⟨_, .link _ _ hsection hlink hinherited, prefix_rfl⟩

theorem ProfileChain.nodup : chain.Nodup := by
  induction h with
  | absent => exact nodup_nil
  | root => exact nodup_singleton _
  | link profileName chain hsection hlink hinherited ih =>
    refine concat_eq_append ▸ List.Nodup.concat (fun hmem => ?_) ih
    obtain ⟨front, hfront, hbefore⟩ := hinherited.of_mem hmem
    have hsame := hfront.unique (.link _ _ hsection hlink hinherited)
    have hlength := hbefore.length_le
    rw [hsame, length_append, length_singleton] at hlength
    omega

theorem ProfileChain.hasSection (hmem : ancestor ∈ chain) :
    hasSection content (sectionName ancestor) = true := by
  induction h with
  | absent => cases hmem
  | root profileName hsection => exact mem_singleton.1 hmem ▸ hsection
  | link profileName chain hsection _ _ ih =>
    rcases mem_append.1 hmem with hmem | hmem
    · exact ih hmem
    · exact mem_singleton.1 hmem ▸ hsection

omit h

variable {active : List Text} {depth : Nat} {result result' : BuildConfig}

theorem length_le_textLines {names : List Text} (hnodup : names.Nodup)
    (hsections : ∀ name ∈ names, hasSection content (sectionName name) = true) :
    names.length ≤ (textLines content).length := by
  have hinj : Function.Injective fun name : Text => '[' :: sectionName name ++ [']'] := by
    intro name name' h
    exact append_cancel_left (append_cancel_right (cons_inj_right _ |>.1 h))
  have hsubset : (names.map fun name => '[' :: sectionName name ++ [']']) ⊆
      (textLines content).map stripTomlComment := by
    intro header hheader
    obtain ⟨name, hname, rfl⟩ := mem_map.1 hheader
    obtain ⟨line, hline, heq⟩ := any_eq_true.1 (hsections name hname)
    exact mem_map.2 ⟨line, hline, of_decide_eq_true heq⟩
  have hlength := (subperm_of_subset (hnodup.map hinj) hsubset).length_le
  rwa [length_map, length_map] at hlength

def mergeSections (content : Text) (chain : List Text) (result : BuildConfig) : BuildConfig :=
  chain.foldl (fun result name => mergeBuildConfig result (profileSection content name)) result

theorem parseProfileRecursive_chain (h : ProfileChain content profileName chain)
    (hactive : ∀ name ∈ chain, name ∉ active) (hdepth : chain.length < depth) :
    parseProfileRecursive content depth active profileName result =
      .ok (mergeSections content chain result) := by
  induction h generalizing active depth with
  | absent profileName habsent =>
    obtain ⟨depth, rfl⟩ := Nat.exists_eq_add_of_lt hdepth
    rw [parseProfileRecursive, habsent]
    rfl
  | root profileName hsection hroot =>
    obtain ⟨depth, rfl⟩ := Nat.exists_eq_add_of_lt hdepth
    rw [parseProfileRecursive, hsection, if_neg (hactive _ (mem_singleton_self _)), if_pos hroot]
    rfl
  | link profileName chain hsection hlink hinherited ih =>
    obtain ⟨depth, rfl⟩ := Nat.exists_eq_add_of_lt hdepth
    obtain ⟨hchain, hlast⟩ := forall_mem_append.1 hactive
    have hnodup := (ProfileChain.link _ _ hsection hlink hinherited).nodup
    have hinner : ∀ name ∈ chain, name ∉ profileName :: active := by
      intro name hname hmem
      rcases mem_cons.1 hmem with rfl | hmem
      · exact (nodup_append.1 hnodup).2.2 name hname name (mem_singleton_self _) rfl
      · exact hchain name hname hmem
    rw [parseProfileRecursive, hsection, if_neg (hlast _ (mem_singleton_self _)), if_neg hlink,
      ih hinner (by rw [length_append, length_singleton]; omega), mergeSections,
      mergeSections, foldl_append]
    rfl

theorem parseProfileRecursive_ok
    (h : parseProfileRecursive content depth active profileName result = .ok result') :
    ∃ chain, ProfileChain content profileName chain ∧ result' = mergeSections content chain result := by
  induction depth generalizing active profileName result' with
  | zero => cases h
  | succ depth ih =>
    rw [parseProfileRecursive] at h
    cases hsection : hasSection content (sectionName profileName) with
    | false =>
      rw [hsection] at h
      exact ⟨[], .absent _ hsection, (Except.ok.inj h).symm⟩
    | true =>
      rw [hsection] at h
      by_cases hcycle : profileName ∈ active
      · rw [if_pos hcycle] at h
        cases h
      · rw [if_neg hcycle] at h
        by_cases hroot : inherited content profileName = []
        · rw [if_pos hroot] at h
          exact ⟨_, .root _ hsection hroot, (Except.ok.inj h).symm⟩
        · rw [if_neg hroot] at h
          cases hinherited : parseProfileRecursive content depth (profileName :: active)
              (inherited content profileName) result with
          | error failure =>
            rw [hinherited] at h
            cases h
          | ok below =>
            rw [hinherited] at h
            obtain ⟨chain, hchain, rfl⟩ := ih hinherited
            refine ⟨_, .link _ _ hsection hroot hchain, (Except.ok.inj h).symm.trans ?_⟩
            rw [mergeSections, mergeSections, foldl_append]
            rfl

/-- Reading a profile comes to its end. -/
theorem parseProfileRecursive_ne_depth (hnodup : active.Nodup)
    (hsections : ∀ name ∈ active, hasSection content (sectionName name) = true)
    (hdepth : (textLines content).length < depth + active.length) :
    parseProfileRecursive content depth active profileName result ≠ .error .depth := by
  induction depth generalizing active profileName with
  | zero =>
    have hlength := length_le_textLines hnodup hsections
    omega
  | succ depth ih =>
    intro h
    rw [parseProfileRecursive] at h
    cases hsection : hasSection content (sectionName profileName) with
    | false =>
      rw [hsection] at h
      cases h
    | true =>
      rw [hsection] at h
      by_cases hcycle : profileName ∈ active
      · rw [if_pos hcycle] at h
        cases h
      · rw [if_neg hcycle] at h
        by_cases hroot : inherited content profileName = []
        · rw [if_pos hroot] at h
          cases h
        · rw [if_neg hroot] at h
          cases hinherited : parseProfileRecursive content depth (profileName :: active)
              (inherited content profileName) result with
          | error failure =>
            rw [hinherited] at h
            refine ih (nodup_cons.2 ⟨hcycle, hnodup⟩)
              (forall_mem_cons.2 ⟨hsection, hsections⟩) ?_ (hinherited.trans h)
            rw [length_cons]
            omega
          | ok below =>
            rw [hinherited] at h
            cases h

variable {key value : Text} {config config' : BuildConfig}

theorem optionValues_parseBuildConfigKeyValue :
    (parseBuildConfigKeyValue config key value).optionValues = config.optionValues := by
  rw [parseBuildConfigKeyValue]
  cases buildKey key with
  | none => rfl
  | some key => cases key <;> rfl

theorem optionValues_profileSection : (profileSection content profileName).optionValues = [] := by
  have hfold : ∀ (assignments : List ParsedTomlAssignment) (config : BuildConfig),
      (assignments.foldl (fun profile assignment =>
        parseBuildConfigKeyValue profile assignment.key assignment.value) config).optionValues =
        config.optionValues := by
    intro assignments
    induction assignments with
    | nil => exact fun _ => rfl
    | cons assignment assignments ih =>
      exact fun config => (ih _).trans optionValues_parseBuildConfigKeyValue
  exact hfold _ _

theorem optionValues_mergeBuildConfig (h : config'.optionValues = []) :
    (mergeBuildConfig config config').optionValues = config.optionValues := by
  unfold mergeBuildConfig
  dsimp only
  rw [h]
  rfl

theorem optionValues_mergeSections :
    (mergeSections content chain config).optionValues = config.optionValues := by
  induction chain generalizing config with
  | nil => rfl
  | cons name chain ih => exact ih.trans (optionValues_mergeBuildConfig optionValues_profileSection)

theorem optionValues_presetProfile : (presetProfile profileName).optionValues = [] := by
  rw [presetProfile]
  split_ifs <;> rfl

theorem configureProfile_optionValues (h : configureProfile content config profileName = .ok config') :
    config'.optionValues = config.optionValues := by
  rw [configureProfile] at h
  split_ifs at h with hname
  · exact congrArg BuildConfig.optionValues (Except.ok.inj h).symm
  · cases hprofile : parseProfileRecursive content ((textLines content).length + 1) [] profileName
        (presetProfile profileName) with
    | error failure =>
      rw [hprofile] at h
      cases h
    | ok profile =>
      rw [hprofile] at h
      obtain ⟨chain, -, rfl⟩ := parseProfileRecursive_ok hprofile
      refine (congrArg BuildConfig.optionValues (Except.ok.inj h).symm).trans ?_
      exact optionValues_mergeBuildConfig
        (optionValues_mergeSections.trans optionValues_presetProfile)

theorem configureProfile_ne_depth : configureProfile content config profileName ≠ .error .depth := by
  intro h
  rw [configureProfile] at h
  split_ifs at h with hname
  cases hprofile : parseProfileRecursive content ((textLines content).length + 1) [] profileName
      (presetProfile profileName) with
  | error failure =>
    rw [hprofile] at h
    refine parseProfileRecursive_ne_depth nodup_nil (forall_mem_nil _) ?_ (hprofile.trans h)
    rw [length_nil, Nat.add_zero]
    exact Nat.lt_succ_self _
  | ok profile =>
    rw [hprofile] at h
    cases h

end Mlang.ProfileChains
