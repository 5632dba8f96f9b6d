import Mlang.BuildProfiles
import Mlang.LexicalPaths
import Mlang.Replacements

namespace Mlang.Materialisation

open BracketedText (Text)
open OrderedTables BuildCommands List
open LexicalPaths (lexicallyNormal)
open Replacements

def placeholderValues (pkg : Package) (config : BuildConfig) : List (Text × Text) :=
  taskTextValues lexicallyNormal pkg config

def makePlaceholder : Text := placeholder "make".toList

def StaysFilled (pkg : Package) (config : BuildConfig) (text : Text) : Prop :=
  FilledForGood [] (placeholderValues pkg config) text
    (expandBuildConfigFragment lexicallyNormal pkg config text)

/-- While the texts are filled, no placeholder comes up whose turn is over, and none is in a path entry that
is joined to the package directory. -/
structure PlaceholdersStayFilled (pkg : Package) (config : BuildConfig) : Prop where
  compilerProgram : StaysFilled pkg config config.compilerProgram
  makeProgram : StaysFilled pkg config config.makeProgram
  flags : ∀ flag ∈ config.compilerFlags ++ config.linkerFlags,
    StaysFilled pkg (materializePrograms lexicallyNormal pkg config) flag
  paths : ∀ entry ∈ config.pathEntries ++ config.libPaths,
    StaysFilled pkg (materializePrograms lexicallyNormal pkg config) entry
  joined : ∀ entry ∈ config.pathEntries ++ config.libPaths, ∀ expanded,
    expanded = expandBuildConfigFragment lexicallyNormal pkg
      (materializePrograms lexicallyNormal pkg config) entry →
    expanded ≠ [] → isAbsolute expanded = false →
      ∀ n ∈ needlesOf (placeholderValues pkg config),
        ¬ n <:+: lexicallyNormal (joinPath pkg.packageDir expanded)

/-- A check of the texts as they are written: no value brings in a placeholder whose turn is over, and none
is made up of pieces. The value of `{{make}}` has been filled before the flags and paths are. -/
structure PlaceholdersResolve (pkg : Package) (config : BuildConfig) : Prop where
  compilerProgram : Resolves [] (placeholderValues pkg config) config.compilerProgram
  makeProgram : Resolves [] (placeholderValues pkg config) config.makeProgram
  flags : ∀ flag ∈ config.compilerFlags ++ config.linkerFlags,
    Resolves [makePlaceholder] (placeholderValues pkg config) flag
  paths : ∀ entry ∈ config.pathEntries ++ config.libPaths,
    Resolves [makePlaceholder] (placeholderValues pkg config) entry
  relative : ∀ entry ∈ config.pathEntries ++ config.libPaths, isAbsolute entry = true ∨
    ∀ n ∈ needlesOf (placeholderValues pkg config), '/' ∉ n ∧ ¬ n <:+: pkg.packageDir

variable {pkg : Package} {text n : Text} {needle value : Text}

theorem filled_replaceLoop {fuel : Nat} (hne : needle ≠ []) (hfuel : text.length ≤ fuel) :
    Filled needle value text (replaceLoop needle value fuel text) := by
  induction fuel generalizing text with
  | zero =>
    rw [length_eq_zero_iff.1 (Nat.le_zero.1 hfuel)]
    exact .nil
  | succ fuel ih =>
    unfold replaceLoop
    by_cases hprefix : needle.isPrefixOf text = true
    · rw [if_pos hprefix]
      obtain ⟨rest, rfl⟩ := isPrefixOf_iff_prefix.1 hprefix
      rw [drop_left]
      refine .put (ih ?_)
      have hlength := length_pos_iff.2 hne
      rw [length_append] at hfuel
      omega
    · rw [if_neg hprefix]
      cases text with
      | nil => exact .nil
      | cons c rest =>
        refine .keep (fun h => hprefix (List.isPrefixOf_iff_prefix.2 h)) (ih ?_)
        rw [length_cons] at hfuel
        omega

theorem filledAll_foldl {table : List (Text × Text)} (hne : ∀ entry ∈ table, entry.1 ≠ []) (text : Text) :
    FilledAll table text (table.foldl (fun out e => replaceAll out e.1 e.2) text) := by
  induction table generalizing text with
  | nil => exact .nil
  | cons entry table ih =>
    obtain ⟨hentry, htable⟩ := forall_mem_cons.1 hne
    have hfirst : Filled entry.1 entry.2 text (replaceAll text entry.1 entry.2) := by
      rw [replaceAll, if_neg hentry]
      exact filled_replaceLoop hentry le_rfl
    exact .cons hfirst (ih htable _)

variable {config : BuildConfig}

theorem needle_of_mem (h : n ∈ needlesOf (placeholderValues pkg config)) : ∃ name, n = placeholder name := by
  simp only [needlesOf, placeholderValues, taskTextValues, map_append, map_cons, map_nil,
    map_map, mem_append, mem_cons, not_mem_nil, or_false, mem_map,
    Function.comp_apply] at h
  rcases h with (h | h | h | h | h | h | h | h | h | h | h | h) | ⟨option, -, h⟩
  all_goals first | exact ⟨_, h⟩ | exact ⟨_, h.symm⟩

theorem needle_ne_nil (h : n ∈ needlesOf (placeholderValues pkg config)) : n ≠ [] := by
  obtain ⟨name, rfl⟩ := needle_of_mem h
  exact cons_ne_nil _ _

theorem filledAll_expand (config : BuildConfig) (text : Text) :
    FilledAll (placeholderValues pkg config) text
      (expandBuildConfigFragment lexicallyNormal pkg config text) :=
  filledAll_foldl (fun _ hentry => needle_ne_nil (mem_map_of_mem hentry)) text

theorem expand_eq_self (h : ∀ n ∈ needlesOf (placeholderValues pkg config), ¬ n <:+: text) :
    expandBuildConfigFragment lexicallyNormal pkg config text = text :=
  (filledAll_expand config text).eq_self fun _ hentry => h _ (mem_map_of_mem hentry)

variable {config' : BuildConfig}

theorem optionPlaceholder_ne (option : Text) :
    placeholder ("option.".toList ++ option) ∉ [makePlaceholder] := by
  have hoption : "option.".toList = 'o' :: "ption.".toList := by decide
  have hmake : makePlaceholder = '\x7b' :: '\x7b' :: 'm' :: "ake\x7d\x7d".toList := by decide
  rw [mem_singleton, hoption, hmake]
  intro h
  have hcharacter := head_eq_of_cons_eq (tail_eq_of_cons_eq (tail_eq_of_cons_eq h))
  exact absurd hcharacter (by decide)

def otherPlaceholders : List String :=
  ["root", "manifest", "build_dir", "deps_dir", "cmake_build_type", "asan_enabled", "cmake_c_flags",
    "cmake_cxx_flags", "cmake_exe_linker_flags", "cmake_shared_linker_flags", "cmake_module_linker_flags"]

def makeValue (makeProgram : Text) : Text := if makeProgram = [] then "make".toList else makeProgram

theorem settled_makeProgram {needles : List Text} {compilerProgram makeProgram : Text}
    (hclean : ¬ EndsUnfinished needles (makeValue config.makeProgram) →
      Clean needles (makeValue makeProgram)) :
    Settled needles [makePlaceholder] (placeholderValues pkg config)
      (placeholderValues pkg
        { config with compilerProgram := compilerProgram, makeProgram := makeProgram }) := by
  have hsame : ∀ {n v : Text}, n ∉ [makePlaceholder] → n = n ∧ (n ∉ [makePlaceholder] → v = v) ∧
      (n ∈ [makePlaceholder] → ¬ EndsUnfinished needles v → Clean needles v) :=
    fun h => ⟨rfl, fun _ => rfl, fun hmem => absurd hmem h⟩
  have hmake : ∀ {n : Text}, n = makePlaceholder → n = n ∧
      (n ∉ [makePlaceholder] → makeValue makeProgram = makeValue config.makeProgram) ∧
      (n ∈ [makePlaceholder] → ¬ EndsUnfinished needles (makeValue config.makeProgram) →
        Clean needles (makeValue makeProgram)) :=
    fun h => ⟨rfl, fun hmem => absurd (mem_singleton.2 h) hmem, fun _ => hclean⟩
  have hoptions : ∀ entry ∈ config.optionValues.map fun e => (placeholder ("option.".toList ++ e.1), e.2),
      entry.1 ∉ [makePlaceholder] := by
    intro entry hentry
    obtain ⟨option, -, rfl⟩ := mem_map.1 hentry
    exact optionPlaceholder_ne option.1
  have hother : ∀ name ∈ otherPlaceholders, placeholder name.toList ∉ [makePlaceholder] := by decide
  have hfixed := fun name (hname : name ∈ otherPlaceholders) {v : Text} =>
    hsame (v := v) (hother name hname)
  refine rel_append ?_ (List.forall₂_same.2 fun entry hentry => hsame (hoptions entry hentry))
  exact .cons (hfixed "root" (by decide)) <| .cons (hfixed "manifest" (by decide)) <|
    .cons (hfixed "build_dir" (by decide)) <| .cons (hfixed "deps_dir" (by decide)) <|
    .cons (hmake rfl) <| .cons (hfixed "cmake_build_type" (by decide)) <|
    .cons (hfixed "asan_enabled" (by decide)) <| .cons (hfixed "cmake_c_flags" (by decide)) <|
    .cons (hfixed "cmake_cxx_flags" (by decide)) <| .cons (hfixed "cmake_exe_linker_flags" (by decide)) <|
    .cons (hfixed "cmake_shared_linker_flags" (by decide)) <|
    .cons (hfixed "cmake_module_linker_flags" (by decide)) .nil

theorem clean_of_none (value : Text) : Clean [] value where
  none_left := fun n hn => absurd hn not_mem_nil
  ends := by
    intro hends
    obtain ⟨p, -, -, n, hn, -⟩ := hends
    exact absurd hn not_mem_nil

theorem clean_of_unbraced {needles : List Text} (hneedles : ∀ n ∈ needles, n.head? = some '{')
    {value : Text} (h : '{' ∉ value) : Clean needles value where
  none_left := by
    intro n hn hvalue
    exact h (hvalue.subset (mem_of_head? (hneedles n hn)))
  ends := by
    intro hends
    obtain ⟨p, hp, hne, n, hn, ⟨rest, hrest⟩, -⟩ := endsUnfinished_iff.1 hends
    obtain ⟨c, p, rfl⟩ := exists_cons_of_ne_nil hne
    have hc := hneedles n hn
    rw [← hrest] at hc
    obtain rfl := Option.some.inj hc
    exact h (hp.subset mem_cons_self)

theorem head_needle (h : n ∈ needlesOf (placeholderValues pkg config)) : n.head? = some '{' := by
  obtain ⟨name, rfl⟩ := needle_of_mem h
  rfl

theorem clean_makeProgram (h : Resolves [] (placeholderValues pkg config) config.makeProgram)
    (hends : ¬ EndsUnfinished (needlesOf (placeholderValues pkg config)) (makeValue config.makeProgram)) :
    Clean (needlesOf (placeholderValues pkg config))
      (makeValue (expandBuildConfigFragment lexicallyNormal pkg config config.makeProgram)) := by
  obtain ⟨hcarries, hgood⟩ := h.filled (settled_refl _ _) (fun n hn => needle_ne_nil hn)
    (filledAll_expand config config.makeProgram)
  rw [makeValue]
  split_ifs with hempty
  · exact clean_of_unbraced (fun n hn => head_needle hn) (by decide)
  · have hsome : config.makeProgram ≠ [] := by
      intro hnil
      rw [hnil] at hempty
      exact hempty (expand_eq_self fun n hn hinfix => needle_ne_nil hn (infix_nil.1 hinfix))
    rw [makeValue, if_neg hsome] at hends
    exact ⟨fun n hn => hgood.none_left (fun m hm => nomatch hm) n (.inr hn), hcarries.endsUnfinished hends⟩

variable {path : Text}

theorem isAbsolute_expand (h : isAbsolute text = true) :
    isAbsolute (expandBuildConfigFragment lexicallyNormal pkg config text) = true := by
  have hfilled : ∀ {n v s s' : Text}, n.head? = some '{' → Filled n v s s' → isAbsolute s = true →
      isAbsolute s' = true := by
    intro n v s s' hn hfilled hs
    cases hfilled with
    | nil => exact hs
    | put hrest =>
      obtain ⟨n, rfl⟩ := head?_eq_some_iff.1 hn
      exact absurd hs (by simp [isAbsolute])
    | keep hc hrest => exact hs
  have hall : ∀ {table : List (Text × Text)} {s s' : Text}, (∀ entry ∈ table, entry.1.head? = some '{') →
      FilledAll table s s' → isAbsolute s = true → isAbsolute s' = true := by
    intro table s s' htable hfilledAll
    induction hfilledAll with
    | nil => exact id
    | cons hfirst hrest ih =>
      obtain ⟨hentry, htable⟩ := forall_mem_cons.1 htable
      exact fun hs => ih htable (hfilled hentry hfirst hs)
  exact hall (fun entry hentry => head_needle (mem_map_of_mem hentry)) (filledAll_expand config text) h

theorem infix_joinPath {directory : Text} (hs : '/' ∉ n) (h : n <:+: joinPath directory path) :
    n <:+: directory ∨ n <:+: path := by
  rw [joinPath] at h
  split_ifs at h with habsolute hseparated
  · exact .inr h
  · rcases hseparated with rfl | hlast
    · exact .inr h
    · obtain ⟨front, rfl⟩ := getLast?_eq_some_iff.1 hlast
      rw [append_assoc] at h
      exact (LexicalPaths.infix_separated hs h).imp
        (fun h => h.trans (prefix_append front ['/']).isInfix) id
  · exact LexicalPaths.infix_separated hs h

theorem not_infix_joined (hn : n ∈ needlesOf (placeholderValues pkg config)) (hs : '/' ∉ n)
    (hdirectory : ¬ n <:+: pkg.packageDir) (hpath : ¬ n <:+: path) :
    ¬ n <:+: lexicallyNormal (joinPath pkg.packageDir path) := by
  have hdot : n ≠ ['.'] := by
    intro hdot
    have hhead := head_needle hn
    rw [hdot] at hhead
    exact absurd hhead (by decide)
  intro h
  rcases infix_joinPath hs (LexicalPaths.infix_of_lexicallyNormal (needle_ne_nil hn) hs hdot h) with h | h
  · exact hdirectory h
  · exact hpath h

theorem resolved_path (hpkg : isAbsolute pkg.packageDir = true) (config : BuildConfig) (text : Text) :
    resolveBuildConfigPathEntry lexicallyNormal pkg config text = [] ∨
      isAbsolute (resolveBuildConfigPathEntry lexicallyNormal pkg config text) = true := by
  rw [resolveBuildConfigPathEntry]
  split_ifs with hempty habsolute
  · exact .inl hempty
  · exact .inr habsolute
  · refine .inr (LexicalPaths.isAbsolute_lexicallyNormal ?_)
    obtain ⟨rest, hrest⟩ := head?_eq_some_iff.1 (of_decide_eq_true hpkg)
    rw [joinPath, if_neg habsolute, hrest]
    by_cases hseparated : '/' :: rest = [] ∨ ('/' :: rest).getLast? = some '/'
    · rw [if_pos hseparated]
      rfl
    · rw [if_neg hseparated]
      rfl

theorem resolve_eq_self (hpath : path = [] ∨ isAbsolute path = true)
    (hleft : ∀ n ∈ needlesOf (placeholderValues pkg config), ¬ n <:+: path) :
    resolveBuildConfigPathEntry lexicallyNormal pkg config path = path := by
  rw [resolveBuildConfigPathEntry, expand_eq_self hleft]
  rcases hpath with rfl | habsolute
  · rfl
  · rw [if_pos habsolute, ite_self]

theorem materialize_eq_self (hprograms : materializePrograms lexicallyNormal pkg config = config)
    (hpaths :
      (∀ path ∈ config.pathEntries, resolveBuildConfigPathEntry lexicallyNormal pkg config path = path) ∧
      ∀ path ∈ config.libPaths, resolveBuildConfigPathEntry lexicallyNormal pkg config path = path)
    (hflags :
      (∀ flag ∈ config.compilerFlags, expandBuildConfigFragment lexicallyNormal pkg config flag = flag) ∧
      ∀ flag ∈ config.linkerFlags, expandBuildConfigFragment lexicallyNormal pkg config flag = flag) :
    materializeBuildConfigForPackage lexicallyNormal pkg config = config := by
  have hmap : ∀ {f : Text → Text} {texts : List Text}, (∀ text ∈ texts, f text = text) →
      texts.map f = texts := fun h => (map_congr_left h).trans (map_id _)
  rw [materializeBuildConfigForPackage, hprograms, hmap hpaths.1, hmap hpaths.2, hmap hflags.1,
    hmap hflags.2]

theorem expand_compilerProgram (compilerProgram text : Text) :
    expandBuildConfigFragment lexicallyNormal pkg { config with compilerProgram := compilerProgram } text =
      expandBuildConfigFragment lexicallyNormal pkg config text := by
  have hvalues : placeholderValues pkg { config with compilerProgram := compilerProgram } =
      placeholderValues pkg config := rfl
  exact congrArg (List.foldl (fun out e => replaceAll out e.1 e.2) text) hvalues

theorem materializePrograms_eq : materializePrograms lexicallyNormal pkg config =
    { config with
      compilerProgram := expandBuildConfigFragment lexicallyNormal pkg config config.compilerProgram
      makeProgram := expandBuildConfigFragment lexicallyNormal pkg config config.makeProgram } := by
  have hmake := @expand_compilerProgram pkg config
    (expandBuildConfigFragment lexicallyNormal pkg config config.compilerProgram) config.makeProgram
  rw [materializePrograms, hmake]

theorem materialize_programs : (materializeBuildConfigForPackage lexicallyNormal pkg config).compilerProgram =
      expandBuildConfigFragment lexicallyNormal pkg config config.compilerProgram ∧
    (materializeBuildConfigForPackage lexicallyNormal pkg config).makeProgram =
      expandBuildConfigFragment lexicallyNormal pkg config config.makeProgram := by
  rw [materializeBuildConfigForPackage]
  generalize hprograms : materializePrograms lexicallyNormal pkg config = programs
  rw [materializePrograms_eq] at hprograms
  subst hprograms
  dsimp only
  exact ⟨rfl, rfl⟩

theorem materialize_paths : (materializeBuildConfigForPackage lexicallyNormal pkg config).pathEntries =
      config.pathEntries.map
        (resolveBuildConfigPathEntry lexicallyNormal pkg (materializePrograms lexicallyNormal pkg config)) ∧
    (materializeBuildConfigForPackage lexicallyNormal pkg config).libPaths =
      config.libPaths.map
        (resolveBuildConfigPathEntry lexicallyNormal pkg (materializePrograms lexicallyNormal pkg config)) :=
  ⟨rfl, rfl⟩

theorem materialize_flags : (materializeBuildConfigForPackage lexicallyNormal pkg config).compilerFlags =
      config.compilerFlags.map
        (expandBuildConfigFragment lexicallyNormal pkg (materializePrograms lexicallyNormal pkg config)) ∧
    (materializeBuildConfigForPackage lexicallyNormal pkg config).linkerFlags =
      config.linkerFlags.map
        (expandBuildConfigFragment lexicallyNormal pkg (materializePrograms lexicallyNormal pkg config)) :=
  ⟨rfl, rfl⟩

theorem placeholderValues_flags (config : BuildConfig)
    (pathEntries libPaths compilerFlags linkerFlags : List Text) :
    placeholderValues pkg { config with
        pathEntries := pathEntries, libPaths := libPaths, compilerFlags := compilerFlags
        linkerFlags := linkerFlags } =
      placeholderValues pkg config :=
  rfl

theorem placeholderValues_materialize :
    placeholderValues pkg (materializeBuildConfigForPackage lexicallyNormal pkg config) =
      placeholderValues pkg (materializePrograms lexicallyNormal pkg config) :=
  placeholderValues_flags (materializePrograms lexicallyNormal pkg config) _ _ _ _

theorem needlesOf_materializePrograms :
    needlesOf (placeholderValues pkg (materializePrograms lexicallyNormal pkg config)) =
      needlesOf (placeholderValues pkg config) := by
  have hclean : Clean []
      (makeValue (expandBuildConfigFragment lexicallyNormal pkg config config.makeProgram)) :=
    clean_of_none _
  rw [materializePrograms_eq]
  exact Settled.needles (settled_makeProgram fun _ => hclean)

theorem StaysFilled.none_left (h : StaysFilled pkg config text) :
    ∀ n ∈ needlesOf (placeholderValues pkg config),
      ¬ n <:+: expandBuildConfigFragment lexicallyNormal pkg config text :=
  fun n hn => FilledForGood.none_left h (fun _ hm => nomatch hm) n (.inr hn)

theorem staysFilled_program (h : Resolves [] (placeholderValues pkg config) text) :
    StaysFilled pkg config text :=
  (h.filled (settled_refl _ _) (fun _ hn => needle_ne_nil hn) (filledAll_expand config text)).2

theorem staysFilled_flag (hmake : Resolves [] (placeholderValues pkg config) config.makeProgram)
    (h : Resolves [makePlaceholder] (placeholderValues pkg config) text) :
    StaysFilled pkg (materializePrograms lexicallyNormal pkg config) text := by
  have hsettled := @settled_makeProgram pkg config _
    (expandBuildConfigFragment lexicallyNormal pkg config config.compilerProgram) _ (clean_makeProgram hmake)
  rw [← materializePrograms_eq] at hsettled
  exact (h.filled hsettled (fun _ hn => needle_ne_nil hn)
    (filledAll_expand (materializePrograms lexicallyNormal pkg config) text)).2

theorem StaysFilled.left (h : StaysFilled pkg (materializePrograms lexicallyNormal pkg config) text) :
    ∀ n ∈ needlesOf (placeholderValues pkg config),
      ¬ n <:+: expandBuildConfigFragment lexicallyNormal pkg
        (materializePrograms lexicallyNormal pkg config) text := by
  rw [← needlesOf_materializePrograms]
  exact h.none_left

theorem PlaceholdersResolve.stayFilled (h : PlaceholdersResolve pkg config) :
    PlaceholdersStayFilled pkg config where
  compilerProgram := staysFilled_program h.compilerProgram
  makeProgram := staysFilled_program h.makeProgram
  flags flag hflag := staysFilled_flag h.makeProgram (h.flags flag hflag)
  paths entry hentry := staysFilled_flag h.makeProgram (h.paths entry hentry)
  joined entry hentry expanded heq _ hexpanded n hn := by
    subst heq
    rcases h.relative entry hentry with habsolute | hrelative
    · exact absurd (isAbsolute_expand habsolute) (ne_true_of_eq_false hexpanded)
    · exact not_infix_joined hn (hrelative n hn).1 (hrelative n hn).2
        ((staysFilled_flag h.makeProgram (h.paths entry hentry)).left n hn)

theorem expand_materialized (h : ∀ n ∈ needlesOf (placeholderValues pkg config), ¬ n <:+: text) :
    expandBuildConfigFragment lexicallyNormal pkg (materializeBuildConfigForPackage lexicallyNormal pkg config)
      text = text := by
  refine expand_eq_self ?_
  rwa [placeholderValues_materialize, needlesOf_materializePrograms]

theorem resolve_materialized (hpkg : isAbsolute pkg.packageDir = true)
    (hstay : PlaceholdersStayFilled pkg config) (hmem : path ∈ config.pathEntries ++ config.libPaths) :
    resolveBuildConfigPathEntry lexicallyNormal pkg
        (materializeBuildConfigForPackage lexicallyNormal pkg config)
        (resolveBuildConfigPathEntry lexicallyNormal pkg (materializePrograms lexicallyNormal pkg config) path) =
      resolveBuildConfigPathEntry lexicallyNormal pkg (materializePrograms lexicallyNormal pkg config) path := by
  refine resolve_eq_self (resolved_path hpkg _ path) ?_
  rw [placeholderValues_materialize, needlesOf_materializePrograms]
  intro n hn
  rw [resolveBuildConfigPathEntry]
  split_ifs with hempty habsolute
  · exact (hstay.paths path hmem).left n hn
  · exact (hstay.paths path hmem).left n hn
  · exact hstay.joined path hmem _ rfl hempty (eq_false_of_ne_true habsolute) n hn

/-- Materialising again changes nothing where no placeholder comes up after its turn. -/
theorem materializeBuildConfigForPackage_idempotent (pkg : Package) (config : BuildConfig)
    (hpkg : isAbsolute pkg.packageDir = true) (hstay : PlaceholdersStayFilled pkg config) :
    materializeBuildConfigForPackage lexicallyNormal pkg
        (materializeBuildConfigForPackage lexicallyNormal pkg config) =
      materializeBuildConfigForPackage lexicallyNormal pkg config := by
  have hflag : ∀ flag ∈ config.compilerFlags ++ config.linkerFlags,
      expandBuildConfigFragment lexicallyNormal pkg (materializeBuildConfigForPackage lexicallyNormal pkg config)
          (expandBuildConfigFragment lexicallyNormal pkg (materializePrograms lexicallyNormal pkg config) flag) =
        expandBuildConfigFragment lexicallyNormal pkg (materializePrograms lexicallyNormal pkg config) flag :=
    fun flag hflag => expand_materialized (hstay.flags flag hflag).left
  refine materialize_eq_self ?_ ⟨?_, ?_⟩ ⟨?_, ?_⟩
  · rw [materializePrograms_eq, materialize_programs.1, materialize_programs.2,
      expand_materialized hstay.compilerProgram.none_left,
      expand_materialized hstay.makeProgram.none_left, ← materialize_programs.1,
      ← materialize_programs.2]
  · rw [materialize_paths.1]
    exact forall_mem_map.2 fun path hpath =>
      resolve_materialized hpkg hstay (mem_append_left _ hpath)
  · rw [materialize_paths.2]
    exact forall_mem_map.2 fun path hpath =>
      resolve_materialized hpkg hstay (mem_append_right _ hpath)
  · rw [materialize_flags.1]
    exact forall_mem_map.2 fun flag hmem => hflag flag (mem_append_left _ hmem)
  · rw [materialize_flags.2]
    exact forall_mem_map.2 fun flag hmem => hflag flag (mem_append_right _ hmem)

def toolsPackage : Package := ⟨"/pkg/mlang.toml".toList, "/pkg".toList, []⟩

def plainOptions : BuildConfig where
  makeProgram := "{{root}}/make".toList
  pathEntries := ["tools".toList]
  linkerFlags := ["-L{{option.lib}}".toList]
  optionValues := [("lib".toList, "/opt/x".toList)]

theorem plainOptions_idempotent :
    materializeBuildConfigForPackage lexicallyNormal toolsPackage
        (materializeBuildConfigForPackage lexicallyNormal toolsPackage plainOptions) =
      materializeBuildConfigForPackage lexicallyNormal toolsPackage plainOptions :=
  materializeBuildConfigForPackage_idempotent toolsPackage plainOptions (by decide)
    (PlaceholdersResolve.stayFilled
      { compilerProgram := by decide
        makeProgram := by decide
        flags := by decide
        paths := by decide
        relative := by decide })

def nestedOptions : BuildConfig where
  linkerFlags := ["-L{{option.lib}}".toList]
  optionValues := [("base".toList, "/opt".toList), ("lib".toList, "{{option.base}}/lib".toList)]

/-- Once: `-L{{option.base}}/lib`; twice: `-L/opt/lib`. -/
theorem not_materialize_idempotent : ¬ ∀ (pkg : Package) (config : BuildConfig),
    isAbsolute pkg.packageDir = true →
    materializeBuildConfigForPackage lexicallyNormal pkg
        (materializeBuildConfigForPackage lexicallyNormal pkg config) =
      materializeBuildConfigForPackage lexicallyNormal pkg config := by
  intro h
  have hflags := congrArg BuildConfig.linkerFlags (h toolsPackage nestedOptions (by decide))
  exact absurd hflags (by decide)

end Mlang.Materialisation
