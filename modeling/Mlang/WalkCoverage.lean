import Mlang.DependencyWalks

namespace Mlang.WalkCoverage

open BracketedText (Text)
open DependencyLocks ManifestDependencies PackageFeatures MemoTraversals DependencyWalks List

variable {ε ε' α β : Type}
variable {x : Except ε α} {r : β}

theorem bind_eq_ok {f : α → Except ε β} : x.bind f = .ok r ↔ ∃ a, x = .ok a ∧ f a = .ok r := by
  constructor
  · intro h
    cases x with
    | error e => cases h
    | ok a => exact ⟨a, rfl, h⟩
  · rintro ⟨a, rfl, h⟩
    exact h

theorem map_eq_ok {f : α → β} : x.map f = .ok r ↔ ∃ a, x = .ok a ∧ f a = r := by
  constructor
  · intro h
    cases x with
    | error e => cases h
    | ok a => exact ⟨a, rfl, Except.ok.inj h⟩
  · rintro ⟨a, rfl, rfl⟩
    rfl

theorem mapError_eq_ok {f : ε → ε'} {r : α} : x.mapError f = .ok r ↔ x = .ok r := by
  cases x with
  | error e => exact iff_of_false (fun h => nomatch h) fun h => nomatch h
  | ok a => exact ⟨fun h => congrArg _ (Except.ok.inj h), fun h => congrArg _ (Except.ok.inj h)⟩

variable {config : WalkConfig} {dep : DepSpec} {hooks : Hooks} {deps : List DepSpec}
  {sources : ManifestSources} {pkg : PackageManifest}
  {recurse : PackageManifest → WalkConfig → Walk → Outcome Walk} {walk walk' : Walk}

theorem traverseDependency_eq_ok :
    traverseDependency sources hooks recurse pkg config dep walk = .ok walk' ↔
    ∃ context, hooks.visit pkg dep (sources.packageDepsDir pkg config.toDirectories) walk.context =
        .ok context ∧
      ((∃ line, loadDependencyManifest sources context.vendorDir pkg dep
            (sources.packageDepsDir pkg config.toDirectories) (requiresManifest dep) = .error line ∧
          requiresManifest dep = false ∧
          walk' = { walk with
            context := context
            log := walk.log ++ [⟨pkg, dep, sources.packageDepsDir pkg config.toDirectories,
                context, none⟩] }) ∨
        ∃ child context' childConfig,
          loadDependencyManifest sources context.vendorDir pkg dep
            (sources.packageDepsDir pkg config.toDirectories) (requiresManifest dep) = .ok child ∧
          hooks.settle pkg dep child context = .ok context' ∧
          dependencyBuildConfig sources.profiled child dep config = .ok childConfig ∧
          recurse child childConfig { walk with
            context := context'
            log := walk.log ++ [⟨pkg, dep, sources.packageDepsDir pkg config.toDirectories,
                context, some child⟩] } =
            .ok walk') := by
  rw [traverseDependency, bind_eq_ok]
  refine exists_congr fun context => and_congr mapError_eq_ok ?_
  cases loadDependencyManifest sources context.vendorDir pkg dep
      (sources.packageDepsDir pkg config.toDirectories) (requiresManifest dep) with
  | error line =>
    dsimp only
    constructor
    · intro h
      split_ifs at h with hrequired
      exact .inl ⟨line, rfl, Bool.eq_false_iff.2 hrequired, (Except.ok.inj h).symm⟩
    · rintro (⟨_, _, hrequired, rfl⟩ | ⟨child, _, _, hload, -⟩)
      · rw [if_neg (Bool.eq_false_iff.1 hrequired)]
      · cases hload
  | ok loaded =>
    dsimp only
    constructor
    · intro h
      obtain ⟨context', hsettle, h⟩ := bind_eq_ok.1 h
      obtain ⟨childConfig, hconfig, h⟩ := bind_eq_ok.1 h
      exact .inr ⟨loaded, context', childConfig, rfl, mapError_eq_ok.1 hsettle,
        mapError_eq_ok.1 hconfig, h⟩
    · rintro (⟨_, hload, -⟩ | ⟨child, context', childConfig, hload, hsettle, hconfig, h⟩)
      · cases hload
      · cases hload
        exact bind_eq_ok.2 ⟨context', mapError_eq_ok.2 hsettle,
          bind_eq_ok.2 ⟨childConfig, mapError_eq_ok.2 hconfig, h⟩⟩

theorem traverseManifest_ok {depth : Nat}
    (h : traverseManifest sources hooks depth pkg config walk = .ok walk') :
    ∃ inside, depth = inside + 1 ∧
      ((pkg.manifestPath ∈ walk.finished ∧ walk' = walk) ∨
        (pkg.manifestPath ∉ walk.finished ∧ pkg.manifestPath ∉ walk.active ∧
          hooks.enter pkg config = .ok () ∧
          ∃ inner, traverseDependencies sources hooks (traverseManifest sources hooks inside) pkg
            config (filterDisabledDependencies (parseSourceDeps pkg.content) config)
            { walk with
              active := pkg.manifestPath :: walk.active
              context := walk.context.adopt config } = .ok inner ∧
          walk' = { inner with
            active := inner.active.erase pkg.manifestPath
            finished := inner.finished ++ [pkg.manifestPath] })) := by
  cases depth with
  | zero => cases h
  | succ inside =>
    refine ⟨inside, rfl, ?_⟩
    rw [traverseManifest] at h
    split_ifs at h with hfinished hactive
    · exact .inl ⟨hfinished, (Except.ok.inj h).symm⟩
    · obtain ⟨_, henter, h⟩ := bind_eq_ok.1 h
      obtain ⟨inner, hinner, h⟩ := map_eq_ok.1 h
      exact .inr ⟨hfinished, hactive, mapError_eq_ok.1 henter, inner, hinner, h.symm⟩

variable {vendorDir : Text}

def OnFile (sources : ManifestSources) (pkg : PackageManifest) : Prop :=
  sources.file pkg.manifestPath = some pkg.content

theorem onFile_of_load {owner child : PackageManifest} {depsDir : Text} {required : Bool}
    (h : loadDependencyManifest sources vendorDir owner dep depsDir required = .ok child) :
    OnFile sources child := by
  rw [loadDependencyManifest] at h
  split at h
  next => cases h
  next content hfile =>
    split at h
    next => cases h
    next =>
      cases h
      exact hfile

theorem OnFile.eq {pkg' : PackageManifest} (h : OnFile sources pkg) (h' : OnFile sources pkg')
    (hpath : pkg.manifestPath = pkg'.manifestPath) : pkg = pkg' := by
  have hcontent : some pkg.content = some pkg'.content := h.symm.trans (hpath ▸ h')
  cases pkg
  cases pkg'
  cases hpath
  cases hcontent
  rfl

structure Invariant (sources : ManifestSources) (hooks : Hooks)
    (P : DependencyLockContext → List Visit → Prop) : Prop where
  adopt : ∀ context config log, P context log → P (context.adopt config) log
  visit : ∀ pkg dep depsDir context context' log line,
    hooks.visit pkg dep depsDir context = .ok context' →
    loadDependencyManifest sources context'.vendorDir pkg dep depsDir (requiresManifest dep) =
      .error line →
    requiresManifest dep = false →
    P context log → P context' (log ++ [⟨pkg, dep, depsDir, context', none⟩])
  settle : ∀ pkg dep depsDir context context' context'' log child,
    hooks.visit pkg dep depsDir context = .ok context' →
    loadDependencyManifest sources context'.vendorDir pkg dep depsDir (requiresManifest dep) =
      .ok child →
    hooks.settle pkg dep child context' = .ok context'' →
    P context log → P context'' (log ++ [⟨pkg, dep, depsDir, context', some child⟩])

variable {P : DependencyLockContext → List Visit → Prop}

def Preserves (P : DependencyLockContext → List Visit → Prop)
    (recurse : PackageManifest → WalkConfig → Walk → Outcome Walk) : Prop :=
  ∀ pkg config walk walk', recurse pkg config walk = .ok walk' → P walk.context walk.log →
    P walk'.context walk'.log

theorem traverseDependencies_preserves (hinvariant : Invariant sources hooks P)
    (hrecurse : Preserves P recurse) {walk walk' : Walk}
    (h : traverseDependencies sources hooks recurse pkg config deps walk = .ok walk')
    (hwalk : P walk.context walk.log) : P walk'.context walk'.log := by
  induction deps generalizing walk with
  | nil =>
    cases h
    exact hwalk
  | cons dep deps ih =>
    obtain ⟨next, hdep, h⟩ := bind_eq_ok.1 h
    refine ih h ?_
    obtain ⟨context, hvisit, hcases⟩ := traverseDependency_eq_ok.1 hdep
    rcases hcases with ⟨line, hload, hrequired, rfl⟩ | ⟨child, context', childConfig, hload, hsettle,
      -, hchild⟩
    · exact hinvariant.visit _ _ _ _ _ _ line hvisit hload hrequired hwalk
    · exact hrecurse _ _ _ _ hchild
        (hinvariant.settle _ _ _ _ _ _ _ child hvisit hload hsettle hwalk)

theorem traverseManifest_preserves (hinvariant : Invariant sources hooks P) (depth : Nat) :
    Preserves P (traverseManifest sources hooks depth) := by
  induction depth with
  | zero =>
    intro pkg config walk walk' h
    cases h
  | succ depth ih =>
    intro pkg config walk walk' h hwalk
    obtain ⟨inside, hdepth, ⟨-, rfl⟩ | ⟨-, -, -, inner, hinner, rfl⟩⟩ := traverseManifest_ok h
    · exact hwalk
    · obtain rfl := Nat.succ.inj hdepth
      have hpreserved := traverseDependencies_preserves hinvariant ih hinner
        (hinvariant.adopt _ config _ hwalk)
      exact hpreserved

def Passed (hooks : Hooks) (visit : Visit) : Prop :=
  ∃ context context', hooks.visit visit.manifest visit.dep visit.depsDir context = .ok context'

theorem invariant_passed :
    Invariant sources hooks fun _ log => ∀ visit ∈ log, Passed hooks visit where
  adopt := fun _ _ _ h => h
  visit := fun _ _ _ context context' _ _ hvisit _ _ h =>
    forall_mem_append.2 ⟨h, forall_mem_singleton.2 ⟨context, context', hvisit⟩⟩
  settle := fun _ _ _ context context' _ _ _ hvisit _ _ h =>
    forall_mem_append.2 ⟨h, forall_mem_singleton.2 ⟨context, context', hvisit⟩⟩

theorem invariant_log (log : List Visit) : Invariant sources hooks fun _ log' => log <+: log' where
  adopt := fun _ _ _ h => h
  visit := fun _ _ _ _ _ _ _ _ _ _ h => h.trans (prefix_append _ _)
  settle := fun _ _ _ _ _ _ _ _ _ _ _ h => h.trans (prefix_append _ _)

variable {f : DependencyLockContext → DependencyLockContext}

structure Transparent (f : DependencyLockContext → DependencyLockContext) : Prop where
  vendorDir : ∀ context, (f context).vendorDir = context.vendorDir
  adopt : ∀ context config, f (context.adopt config) = (f context).adopt config

structure Replayed (sources : ManifestSources) (hooks : Hooks)
    (f : DependencyLockContext → DependencyLockContext) (v : Visit) : Prop where
  visit : ∀ context, hooks.visit v.manifest v.dep v.depsDir context = .ok v.after →
    (loadDependencyManifest sources v.after.vendorDir v.manifest v.dep v.depsDir
      (requiresManifest v.dep)).toOption = v.child →
    hooks.visit v.manifest v.dep v.depsDir (f context) = .ok (f v.after)
  settle : ∀ child context, v.child = some child →
    hooks.settle v.manifest v.dep child v.after = .ok context →
    hooks.settle v.manifest v.dep child (f v.after) = .ok (f context)

def Visit.image (f : DependencyLockContext → DependencyLockContext) (v : Visit) : Visit :=
  { v with after := f v.after }

def Walk.image (f : DependencyLockContext → DependencyLockContext) (walk : Walk) : Walk :=
  { walk with context := f walk.context, log := walk.log.map (Visit.image f) }

def Replays (sources : ManifestSources) (hooks : Hooks)
    (f : DependencyLockContext → DependencyLockContext)
    (recurse : PackageManifest → WalkConfig → Walk → Outcome Walk) : Prop :=
  ∀ pkg config walk walk', recurse pkg config walk = .ok walk' →
    (∀ v ∈ walk'.log, Replayed sources hooks f v) →
    recurse pkg config (Walk.image f walk) = .ok (Walk.image f walk')

variable {walk' walk : Walk}

theorem traverseDependency_replays (hf : Transparent f)
    (hlog : ∀ log, Preserves (fun _ log' => log <+: log') recurse)
    (hrecurse : Replays sources hooks f recurse)
    (h : traverseDependency sources hooks recurse pkg config dep walk = .ok walk')
    (hreplayed : ∀ v ∈ walk'.log, Replayed sources hooks f v) :
    traverseDependency sources hooks recurse pkg config dep (Walk.image f walk) =
    .ok (Walk.image f walk') := by
  obtain ⟨context, hvisit, hcases⟩ := traverseDependency_eq_ok.1 h
  refine traverseDependency_eq_ok.2 ⟨f context, ?_⟩
  rcases hcases with ⟨line, hload, hrequired, rfl⟩ | ⟨child, context', childConfig, hload, hsettle,
    hconfig, hchild⟩
  · have hv := hreplayed _ (mem_append_right _ mem_cons_self)
    refine ⟨hv.visit _ hvisit (by rw [hload]; rfl), .inl ⟨line, ?_, hrequired, ?_⟩⟩
    · rw [hf.vendorDir]
      exact hload
    · rw [Walk.image, Walk.image, map_append]
      rfl
  · have hgrown := hlog _ _ _ _ _ hchild prefix_rfl
    have hv := hreplayed _ (hgrown.subset (mem_append_right _ mem_cons_self))
    refine ⟨hv.visit _ hvisit (by rw [hload]; rfl), .inr ⟨child, f context', childConfig, ?_,
      hv.settle _ _ rfl hsettle, hconfig, ?_⟩⟩
    · rw [hf.vendorDir]
      exact hload
    · have himage := hrecurse _ _ _ _ hchild hreplayed
      rw [Walk.image, map_append] at himage
      exact himage

theorem traverseDependencies_replays (hf : Transparent f)
    (hlog : ∀ log, Preserves (fun _ log' => log <+: log') recurse)
    (hrecurse : Replays sources hooks f recurse)
    (h : traverseDependencies sources hooks recurse pkg config deps walk = .ok walk')
    (hreplayed : ∀ v ∈ walk'.log, Replayed sources hooks f v) :
    traverseDependencies sources hooks recurse pkg config deps (Walk.image f walk) =
    .ok (Walk.image f walk') := by
  induction deps generalizing walk with
  | nil =>
    cases h
    rfl
  | cons dep deps ih =>
    obtain ⟨next, hdep, h⟩ := bind_eq_ok.1 h
    refine bind_eq_ok.2 ⟨Walk.image f next, ?_, ih h⟩
    have hgrown : next.log <+: walk'.log := traverseDependencies_preserves
      (P := fun _ log => next.log <+: log) (invariant_log next.log) (hlog next.log) h
      prefix_rfl
    exact traverseDependency_replays hf hlog hrecurse hdep fun v hv =>
      hreplayed v (hgrown.subset hv)

theorem traverseManifest_replays (hf : Transparent f) (depth : Nat) :
    Replays sources hooks f (traverseManifest sources hooks depth) := by
  induction depth with
  | zero =>
    intro pkg config walk walk' h
    cases h
  | succ depth ih =>
    intro pkg config walk walk' h hreplayed
    rw [traverseManifest] at h ⊢
    split_ifs at h with hfinished hactive
    · cases h
      exact if_pos hfinished
    · obtain ⟨_, henter, h⟩ := bind_eq_ok.1 h
      obtain ⟨inner, hinner, rfl⟩ := map_eq_ok.1 h
      have himage := traverseDependencies_replays hf
        (fun log => traverseManifest_preserves (invariant_log log) depth) ih hinner hreplayed
      rw [Walk.image, hf.adopt] at himage
      rw [if_neg (show _ ∉ (Walk.image f walk).finished from hfinished),
        if_neg (show _ ∉ (Walk.image f walk).active from hactive)]
      refine bind_eq_ok.2 ⟨_, henter, map_eq_ok.2 ⟨_, himage, rfl⟩⟩

variable {recurse : PackageManifest → WalkConfig → Walk → Outcome Walk}

def pairs (log : List Visit) : List (PackageManifest × DepSpec) :=
  log.map fun visit => (visit.manifest, visit.dep)

/-- The dependencies of the manifests that are finished were visited, unless they are optional. -/
def Declared (sources : ManifestSources) (walk : Walk) : Prop :=
  ∀ pkg, OnFile sources pkg → pkg.manifestPath ∈ walk.finished →
    ∀ dep ∈ parseSourceDeps pkg.content, dep.optional = false → (pkg, dep) ∈ pairs walk.log

def KeepsDeclared (sources : ManifestSources)
    (recurse : PackageManifest → WalkConfig → Walk → Outcome Walk) : Prop :=
  ∀ pkg config walk walk', recurse pkg config walk = .ok walk' → OnFile sources pkg →
    Declared sources walk → Declared sources walk'

theorem Declared.grow (h : Declared sources walk) (hfinished : walk'.finished = walk.finished)
    (hlog : walk.log <+: walk'.log) : Declared sources walk' := by
  intro pkg hpkg hmem dep hdep hoptional
  rw [hfinished] at hmem
  exact (hlog.map _).subset (h pkg hpkg hmem dep hdep hoptional)

theorem traverseDependencies_declared (hlog : ∀ log, Preserves (fun _ log' => log <+: log') recurse)
    (hrecurse : KeepsDeclared sources recurse)
    (h : traverseDependencies sources hooks recurse pkg config deps walk = .ok walk')
    (hwalk : Declared sources walk) : Declared sources walk' ∧ ∀ dep ∈ deps,
    (pkg, dep) ∈ pairs walk'.log := by
  induction deps generalizing walk with
  | nil =>
    cases h
    exact ⟨hwalk, forall_mem_nil _⟩
  | cons dep deps ih =>
    obtain ⟨next, hdep, h⟩ := bind_eq_ok.1 h
    have hgrown : next.log <+: walk'.log := traverseDependencies_preserves
      (P := fun _ log => next.log <+: log) (invariant_log next.log) (hlog next.log) h
      prefix_rfl
    obtain ⟨context, -, hcases⟩ := traverseDependency_eq_ok.1 hdep
    rcases hcases with ⟨line, -, -, rfl⟩ | ⟨child, context', childConfig, hload, -, -, hchild⟩
    · obtain ⟨hdeclared, hdeps⟩ := ih h (hwalk.grow rfl (prefix_append _ _))
      refine ⟨hdeclared, forall_mem_cons.2 ⟨(hgrown.map _).subset ?_, hdeps⟩⟩
      rw [map_append]
      exact mem_append_right _ mem_cons_self
    · have hpassed := hlog _ _ _ _ _ hchild prefix_rfl
      have hinside : Declared sources next :=
        hrecurse _ _ _ _ hchild (onFile_of_load hload) (hwalk.grow rfl (prefix_append _ _))
      obtain ⟨hdeclared, hdeps⟩ := ih h hinside
      refine ⟨hdeclared, forall_mem_cons.2 ⟨((hpassed.trans hgrown).map _).subset ?_, hdeps⟩⟩
      rw [map_append]
      exact mem_append_right _ mem_cons_self

theorem dependencyEnabled_of_mandatory (h : dep.optional = false) : dependencyEnabled dep config = true := by
  rw [dependencyEnabled, h]
  rfl

theorem traverseManifest_declared (depth : Nat) :
    KeepsDeclared sources (traverseManifest sources hooks depth) := by
  induction depth with
  | zero =>
    intro pkg config walk walk' h
    cases h
  | succ depth ih =>
    intro pkg config walk walk' h hpkg hwalk
    obtain ⟨inside, hdepth, ⟨-, rfl⟩ | ⟨-, -, -, inner, hinner, rfl⟩⟩ := traverseManifest_ok h
    · exact hwalk
    · obtain rfl := Nat.succ.inj hdepth
      obtain ⟨hdeclared, hdeps⟩ := traverseDependencies_declared
        (fun log => traverseManifest_preserves (invariant_log log) depth) ih hinner
        (hwalk.grow rfl prefix_rfl)
      intro other hother hmem dep hdep hoptional
      rcases mem_append.1 hmem with hmem | hmem
      · exact hdeclared other hother hmem dep hdep hoptional
      · obtain rfl := hother.eq hpkg (mem_singleton.1 hmem)
        exact hdeps dep
          (mem_filter.2 ⟨hdep, dependencyEnabled_of_mandatory hoptional⟩)

theorem finished_of_traverseManifest {depth : Nat}
    (h : traverseManifest sources hooks depth pkg config walk = .ok walk') :
    pkg.manifestPath ∈ walk'.finished := by
  obtain ⟨inside, -, ⟨hfinished, rfl⟩ | ⟨-, -, -, inner, -, rfl⟩⟩ := traverseManifest_ok h
  · exact hfinished
  · exact mem_append_right _ mem_cons_self

variable {childConfig : WalkConfig} {context context' : DependencyLockContext}

def Adopted (context : DependencyLockContext) (config : WalkConfig) : Prop :=
  (context.vendorDir = [] → config.vendorDir = []) ∧
    (context.globalCacheDir = [] → config.globalCacheDir = [])

def SameDirs (context context' : DependencyLockContext) : Prop :=
  context'.vendorDir = context.vendorDir ∧ context'.globalCacheDir = context.globalCacheDir

theorem Adopted.adopt_eq (h : Adopted context config) : context.adopt config = context := by
  have hvendor : (if context.vendorDir = [] then config.vendorDir else context.vendorDir) =
      context.vendorDir := by
    split_ifs with hempty
    · rw [h.1 hempty, hempty]
    · rfl
  have hcache : (if context.globalCacheDir = [] then config.globalCacheDir
      else context.globalCacheDir) = context.globalCacheDir := by
    split_ifs with hempty
    · rw [h.2 hempty, hempty]
    · rfl
  rw [DependencyLockContext.adopt, hvendor, hcache]

theorem adopted_adopt (context : DependencyLockContext) (config : WalkConfig) :
    Adopted (context.adopt config) config := by
  refine ⟨fun h => ?_, fun h => ?_⟩
  · by_contra hne
    rw [DependencyLockContext.adopt] at h
    dsimp only at h
    split_ifs at h with hempty
    · exact hne h
    · exact hempty h
  · by_contra hne
    rw [DependencyLockContext.adopt] at h
    dsimp only at h
    split_ifs at h with hempty
    · exact hne h
    · exact hempty h

theorem Adopted.same (h : Adopted context config) (hsame : SameDirs context context') :
    Adopted context' config := by
  rw [Adopted, hsame.1, hsame.2]
  exact h

theorem SameDirs.trans {context'' : DependencyLockContext} (h : SameDirs context context')
    (h' : SameDirs context' context'') : SameDirs context context'' := ⟨h'.1.trans h.1, h'.2.trans h.2⟩

theorem Adopted.child {profiled : PackageManifest → Text → Except Text Directories} {child : PackageManifest}
    (hconfig : dependencyBuildConfig profiled child dep config = .ok childConfig)
    (h : Adopted context config) : Adopted context childConfig := by
  obtain ⟨_, _, hconfig⟩ := bind_eq_ok.1 hconfig
  obtain ⟨directories, _, rfl⟩ := map_eq_ok.1 hconfig
  exact h

structure Steady (hooks : Hooks) : Prop where
  visit : ∀ pkg dep depsDir context context', hooks.visit pkg dep depsDir context = .ok context' →
    SameDirs context context'
  settle : ∀ pkg dep child context context', hooks.settle pkg dep child context = .ok context' →
    SameDirs context context'

section Edges

variable (sources : ManifestSources)

def dependencyTarget (vendorDir : Text) (pkg : PackageManifest) (config : WalkConfig)
    (dep : DepSpec) : Option (PackageManifest × WalkConfig) :=
  (loadDependencyManifest sources vendorDir pkg dep
    (sources.packageDepsDir pkg config.toDirectories) (requiresManifest dep)).toOption.bind
    fun child => (dependencyBuildConfig sources.profiled child dep config).toOption.map (child, ·)

def dependencyEdges (vendorDir : Text) : Edges PackageManifest WalkConfig DepSpec :=
  fun pkg config => (filterDisabledDependencies (parseSourceDeps pkg.content) config).map fun dep =>
    (dep, dependencyTarget sources vendorDir pkg config dep)

theorem labels_dependencyEdges (vendorDir : Text) (pkg : PackageManifest) (config : WalkConfig) :
    labels (dependencyEdges sources vendorDir) pkg config =
      filterDisabledDependencies (parseSourceDeps pkg.content) config := by
  rw [labels, dependencyEdges, map_map]
  exact map_id _

end Edges

section Refinement

variable (sources : ManifestSources) (hooks : Hooks)

structure Tracks (active : List PackageManifest) (done : List (PackageManifest × WalkConfig))
    (walk : Walk) : Prop where
  inside : walk.active = active.map PackageManifest.manifestPath
  ended : walk.finished = (done.map Prod.fst).map PackageManifest.manifestPath
  onFile : ∀ pkg, pkg ∈ active ∨ pkg ∈ done.map Prod.fst → OnFile sources pkg

def Faithful (vendorDir : Text) (recurse : PackageManifest → WalkConfig → Walk → Outcome Walk) :
    Prop :=
  ∀ pkg config walk walk' active done, recurse pkg config walk = .ok walk' →
    OnFile sources pkg → walk.context.vendorDir = vendorDir → Adopted walk.context config →
    Tracks sources active done walk →
    SameDirs walk.context walk'.context ∧
      ((pkg ∈ done.map Prod.fst ∧ walk' = walk) ∨ (pkg ∉ done.map Prod.fst ∧ pkg ∉ active ∧ ∃ inside log,
          Runs (dependencyEdges sources vendorDir) (pkg :: active) pkg
            (dependencyEdges sources vendorDir pkg config) done inside log ∧
          Tracks sources active (inside ++ [(pkg, config)]) walk' ∧
          pairs walk'.log = pairs walk.log ++ log))

variable {sources hooks}
variable {active : List PackageManifest} {done : List (PackageManifest × WalkConfig)}

theorem Tracks.mem_iff (h : Tracks sources active done walk) (hpkg : OnFile sources pkg) :
    (pkg.manifestPath ∈ walk.finished ↔ pkg ∈ done.map Prod.fst) ∧
    (pkg.manifestPath ∈ walk.active ↔ pkg ∈ active) := by
  rw [h.ended, h.inside]
  refine ⟨⟨fun hmem => ?_, mem_map_of_mem⟩, ⟨fun hmem => ?_, mem_map_of_mem⟩⟩
  · obtain ⟨pkg', hdone, hpath⟩ := mem_map.1 hmem
    rwa [← (h.onFile pkg' (.inr hdone)).eq hpkg hpath]
  · obtain ⟨pkg', hactive, hpath⟩ := mem_map.1 hmem
    rwa [← (h.onFile pkg' (.inl hactive)).eq hpkg hpath]

theorem traverseDependencies_runs (hsteady : Steady hooks) (hrecurse : Faithful sources vendorDir recurse)
    (h : traverseDependencies sources hooks recurse pkg config deps walk = .ok walk')
    (hvendor : walk.context.vendorDir = vendorDir) (hadopted : Adopted walk.context config)
    (htracks : Tracks sources active done walk) : SameDirs walk.context walk'.context ∧ ∃ done' log,
    Runs (dependencyEdges sources vendorDir) active pkg
    (deps.map fun dep => (dep, dependencyTarget sources vendorDir pkg config dep)) done done' log ∧
    Tracks sources active done' walk' ∧ pairs walk'.log = pairs walk.log ++ log := by
  induction deps generalizing walk done with
  | nil =>
    cases h
    exact ⟨⟨rfl, rfl⟩, done, [], .nil, htracks, (append_nil _).symm⟩
  | cons dep deps ih =>
    obtain ⟨next, hdep, h⟩ := bind_eq_ok.1 h
    obtain ⟨context, hvisit, hcases⟩ := traverseDependency_eq_ok.1 hdep
    have hvisited := hsteady.visit _ _ _ _ _ hvisit
    rw [hvisited.1, hvendor] at hcases
    rcases hcases with ⟨line, hload, -, rfl⟩ | ⟨child, context', childConfig, hload, hsettle, hconfig,
      hchild⟩
    · have htarget : dependencyTarget sources vendorDir pkg config dep = none := by
        rw [dependencyTarget, hload]
        rfl
      obtain ⟨hsame, done', log, hruns, htracks', hlog⟩ := ih h (hvisited.1.trans hvendor)
        (hadopted.same hvisited) ⟨htracks.inside, htracks.ended, htracks.onFile⟩
      refine ⟨hvisited.trans hsame, done', (pkg, dep) :: log, ?_, htracks', ?_⟩
      · rw [map_cons, htarget]
        exact .leaf hruns
      · rw [hlog]
        simp [pairs]
    · have htarget : dependencyTarget sources vendorDir pkg config dep =
          some (child, childConfig) := by
        rw [dependencyTarget, hload]
        simp [Except.toOption, hconfig]
      have hsettled := hvisited.trans (hsteady.settle _ _ _ _ _ hsettle)
      obtain ⟨hsame, hpassed⟩ := hrecurse _ _ _ _ active done hchild (onFile_of_load hload)
        (hsettled.1.trans hvendor) ((hadopted.same hsettled).child hconfig)
        ⟨htracks.inside, htracks.ended, htracks.onFile⟩
      have hnext : SameDirs walk.context next.context := hsettled.trans hsame
      rcases hpassed with ⟨hseen, rfl⟩ | ⟨hnew, hactive, inside, inner, hinside, htracks', hinner⟩
      · obtain ⟨hsame, done', log, hruns, htracks', hlog⟩ := ih h (hnext.1.trans hvendor)
          (hadopted.same hnext) ⟨htracks.inside, htracks.ended, htracks.onFile⟩
        refine ⟨hnext.trans hsame, done', (pkg, dep) :: log, ?_, htracks', ?_⟩
        · rw [map_cons, htarget]
          exact .seen hseen hruns
        · rw [hlog]
          simp [pairs]
      · obtain ⟨hsame, done', log, hruns, htracks', hlog⟩ := ih h (hnext.1.trans hvendor)
          (hadopted.same hnext) htracks'
        refine ⟨hnext.trans hsame, done', (pkg, dep) :: (inner ++ log), ?_, htracks', ?_⟩
        · rw [map_cons, htarget]
          exact .fresh hnew hactive hinside hruns
        · rw [hlog, hinner]
          simp [pairs]

theorem traverseManifest_faithful (hsteady : Steady hooks) (vendorDir : Text) (depth : Nat) :
    Faithful sources vendorDir (traverseManifest sources hooks depth) := by
  induction depth with
  | zero =>
    intro pkg config walk walk' active done h
    cases h
  | succ depth ih =>
    intro pkg config walk walk' active done h hpkg hvendor hadopted htracks
    obtain ⟨inside, hdepth, hcases⟩ := traverseManifest_ok h
    obtain rfl := Nat.succ.inj hdepth
    obtain ⟨hfinished, hactive⟩ := htracks.mem_iff hpkg
    rcases hcases with ⟨hseen, rfl⟩ | ⟨hnew, houtside, -, inner, hinner, rfl⟩
    · exact ⟨⟨rfl, rfl⟩, .inl ⟨hfinished.1 hseen, rfl⟩⟩
    · have hpkgDone : pkg ∉ done.map Prod.fst := fun hmem => hnew (hfinished.2 hmem)
      have hpkgActive : pkg ∉ active := fun hmem => houtside (hactive.2 hmem)
      rw [hadopted.adopt_eq] at hinner
      have hentered : Tracks sources (pkg :: active) done
          { walk with active := pkg.manifestPath :: walk.active } := by
        refine ⟨?_, htracks.ended, ?_⟩
        · rw [map_cons, ← htracks.inside]
        · rintro other (hmem | hmem)
          · rcases mem_cons.1 hmem with rfl | hmem
            · exact hpkg
            · exact htracks.onFile other (.inl hmem)
          · exact htracks.onFile other (.inr hmem)
      obtain ⟨hsame, done', log, hruns, htracks', hlog⟩ :=
        traverseDependencies_runs hsteady ih hinner hvendor hadopted hentered
      refine ⟨hsame, .inr ⟨hpkgDone, hpkgActive, done', log, hruns, ⟨?_, ?_, ?_⟩, hlog⟩⟩
      · dsimp only
        rw [htracks'.inside, map_cons, erase_cons_head]
      · dsimp only
        rw [htracks'.ended]
        simp
      · rintro other (hmem | hmem)
        · exact htracks'.onFile other (.inl (mem_cons_of_mem _ hmem))
        · rw [map_append, mem_append] at hmem
          rcases hmem with hmem | hmem
          · exact htracks'.onFile other (.inr hmem)
          · rw [mem_singleton.1 hmem]
            exact hpkg

end Refinement

section Chains

variable (sources : ManifestSources) (vendorDir : Text) (root : PackageManifest)
  (rootConfig : WalkConfig)

/-- A chain of dependencies from a root, each enabled under the configuration that the chain up to it computes. -/
inductive Chain : List Nat → PackageManifest → WalkConfig → Prop
  | root : Chain [] root rootConfig
  | dependency {path owner config i dep child childConfig} (hchain : Chain path owner config)
      (hdep : (filterDisabledDependencies (parseSourceDeps owner.content) config)[i]? = some dep)
      (hload : loadDependencyManifest sources vendorDir owner dep
        (sources.packageDepsDir owner config.toDirectories) (requiresManifest dep) = .ok child)
      (hconfig : dependencyBuildConfig sources.profiled child dep config = .ok childConfig) :
      Chain (path ++ [i]) child childConfig

variable {sources vendorDir root rootConfig}

theorem dependencyTarget_eq_some {child : PackageManifest} :
    dependencyTarget sources vendorDir pkg config dep = some (child, childConfig) ↔
    loadDependencyManifest sources vendorDir pkg dep (sources.packageDepsDir pkg config.toDirectories)
    (requiresManifest dep) = .ok child ∧
    dependencyBuildConfig sources.profiled child dep config = .ok childConfig := by
  rw [dependencyTarget]
  cases loadDependencyManifest sources vendorDir pkg dep
      (sources.packageDepsDir pkg config.toDirectories) (requiresManifest dep) with
  | error line => exact iff_of_false (fun h => nomatch h) fun h => nomatch h.1
  | ok loaded =>
    cases hconfig : dependencyBuildConfig sources.profiled loaded dep config with
    | error line =>
      refine iff_of_false ?_ ?_
      · simp [Except.toOption, hconfig]
      · rintro ⟨hload, hbuild⟩
        cases hload
        rw [hconfig] at hbuild
        cases hbuild
    | ok computed =>
      simp only [Except.toOption, hconfig, Option.bind_some, Option.map_some, Option.some.injEq,
        Prod.mk.injEq, Except.ok.injEq]
      constructor
      · rintro ⟨rfl, rfl⟩
        exact ⟨rfl, hconfig⟩
      · rintro ⟨rfl, hbuild⟩
        exact ⟨rfl, Except.ok.inj (hconfig.symm.trans hbuild)⟩

variable {path : List Nat}

theorem chain_iff_reaches : Chain sources vendorDir root rootConfig path pkg config ↔
    Reaches (dependencyEdges sources vendorDir) (root, rootConfig) path pkg config := by
  constructor
  · intro h
    induction h with
    | root => exact reaches_nil
    | @dependency path owner config i dep child childConfig hchain hdep hload hconfig ih =>
      have hedge : (dependencyEdges sources vendorDir owner config)[i]? =
          some (dep, some (child, childConfig)) := by
        rw [dependencyEdges, getElem?_map, hdep, Option.map_some,
          dependencyTarget_eq_some.2 ⟨hload, hconfig⟩]
      exact ih.edge hedge
  · intro h
    induction path using List.reverseRecOn generalizing pkg config with
    | nil =>
      obtain ⟨rfl, rfl⟩ := reaches_nil.det h
      exact .root
    | append_singleton path i ih =>
      have hfollow := h
      rw [Reaches, follow_append] at hfollow
      obtain ⟨⟨owner, ownerConfig⟩, howner, -⟩ := Option.bind_eq_some_iff.1 hfollow
      have hreach : Reaches (dependencyEdges sources vendorDir) (root, rootConfig) path owner
          ownerConfig := howner
      obtain ⟨dep, child, childConfig, hedge, hchild⟩ := hreach.of_append h
      obtain ⟨rfl, rfl⟩ := hchild.det h
      rw [dependencyEdges, getElem?_map] at hedge
      obtain ⟨found, hdep, heq⟩ := Option.map_eq_some_iff.1 hedge
      obtain ⟨rfl, htarget⟩ := Prod.mk.inj heq
      obtain ⟨hload, hconfig⟩ := dependencyTarget_eq_some.1 htarget
      exact .dependency (ih hreach) hdep hload hconfig

theorem Chain.inherits (h : Chain sources vendorDir root rootConfig path pkg config) :
    config.profileName = rootConfig.profileName ∧ config.allFeatures = rootConfig.allFeatures ∧
    config.globalCacheDir = rootConfig.globalCacheDir ∧ config.vendorDir = rootConfig.vendorDir ∧
    (pkg = root ∨ ∃ directories, sources.profiled pkg rootConfig.profileName = .ok directories ∧
      config.toDirectories = profileDirectories rootConfig.profileName directories) := by
  induction h with
  | root => exact ⟨rfl, rfl, rfl, rfl, .inl rfl⟩
  | dependency hchain hdep hload hconfig ih =>
    obtain ⟨_, -, hconfig⟩ := bind_eq_ok.1 hconfig
    obtain ⟨directories, hdirectories, rfl⟩ := map_eq_ok.1 hconfig
    obtain ⟨hprofile, hall, hcache, hvendor, -⟩ := ih
    rw [hprofile] at hdirectories
    refine ⟨hprofile, hall, hcache, hvendor, .inr ⟨directories, hdirectories, ?_⟩⟩
    dsimp only
    rw [hprofile]

theorem Chain.same_target {path' : List Nat} {config' : WalkConfig}
    (h : Chain sources vendorDir root rootConfig path pkg config)
    (h' : Chain sources vendorDir root rootConfig path' pkg config') (hroot : pkg ≠ root) (dep : DepSpec) :
    dependencyTarget sources vendorDir pkg config dep =
    dependencyTarget sources vendorDir pkg config' dep := by
  obtain ⟨hprofile, hall, hcache, hvendor, hdirectories⟩ := h.inherits
  obtain ⟨hprofile', hall', hcache', hvendor', hdirectories'⟩ := h'.inherits
  obtain ⟨directories, hdirs, heq⟩ := hdirectories.resolve_left hroot
  obtain ⟨directories', hdirs', heq'⟩ := hdirectories'.resolve_left hroot
  obtain rfl := Except.ok.inj (hdirs.symm.trans hdirs')
  have hbuild : ∀ child, dependencyBuildConfig sources.profiled child dep config =
      dependencyBuildConfig sources.profiled child dep config' := by
    intro child
    rw [dependencyBuildConfig, dependencyBuildConfig, hprofile, hprofile', hall, hall', hcache,
      hcache', hvendor, hvendor']
  rw [dependencyTarget, dependencyTarget, heq, heq']
  simp only [hbuild]

theorem stable_dependencyEdges : Stable (dependencyEdges sources vendorDir) (root, rootConfig) := by
  intro pkg hpkg path config path' config' hreach hreach' dep target target' hmem hmem'
  obtain ⟨found, -, heq⟩ := mem_map.1 hmem
  obtain ⟨found', -, heq'⟩ := mem_map.1 hmem'
  cases heq
  cases heq'
  rw [(chain_iff_reaches.2 hreach).same_target (chain_iff_reaches.2 hreach') hpkg]

theorem firstsSuffice_of_allFeatures (hall : rootConfig.allFeatures = true) :
    FirstsSuffice (dependencyEdges sources vendorDir) (root, rootConfig) := by
  intro path pkg config hfirst path' config' hreach dep hdep
  have hconfig : config.allFeatures = true :=
    (chain_iff_reaches.2 hfirst.reaches).inherits.2.1.trans hall
  rw [labels_dependencyEdges, filterDisabledDependencies, mem_filter] at hdep ⊢
  refine ⟨hdep.1, ?_⟩
  rw [dependencyEnabled, hconfig]
  simp

end Chains

variable {depth : Nat} {root : PackageManifest}

theorem traverseManifest_traversed (hsteady : Steady hooks) (hroot : OnFile sources root)
    (h : traverseManifest sources hooks depth root config { context := context } = .ok walk') :
    ∃ done, Traversed (dependencyEdges sources (context.adopt config).vendorDir) (root, config)
      done (pairs walk'.log) := by
  have hadopt : traverseManifest sources hooks depth root config
      { context := context.adopt config } = .ok walk' := by
    cases depth with
    | zero => cases h
    | succ depth =>
      rw [traverseManifest] at h ⊢
      rw [(adopted_adopt context config).adopt_eq]
      exact h
  have hbegin : Tracks sources [] [] { context := context.adopt config } := by
    refine ⟨rfl, rfl, ?_⟩
    rintro pkg (hmem | hmem)
    · cases hmem
    · cases hmem
  obtain ⟨-, hcases⟩ := traverseManifest_faithful hsteady _ depth root config _ walk' [] [] hadopt
    hroot rfl (adopted_adopt context config) hbegin
  rcases hcases with ⟨hmem, -⟩ | ⟨-, -, inside, log, hruns, -, hlog⟩
  · cases hmem
  · refine ⟨inside ++ [(root, config)], inside, ?_, rfl⟩
    rw [hlog]
    exact hruns

end Mlang.WalkCoverage
