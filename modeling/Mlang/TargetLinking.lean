import Mlang.PathOrders
import Mlang.TargetOrder

namespace Mlang.TargetLinking

open BracketedText (Text)
open BuildCommands (BuildTarget TargetKind collectTargetLinkDependencies)
open OrderedTables DependencyLocks List
open PathOrders TargetOrder
open Relation (TransGen ReflTransGen)

def targetsByName (targets : List BuildTarget) : Table Text BuildTarget :=
  targets.foldl (fun table target => insert textBefore table target.name target) []

def linkDependencies (targets : List BuildTarget) (target : BuildTarget) : List BuildTarget :=
  (collectTargetLinkDependencies (targetsByName targets) ((targetsByName targets).length + 1) target
    ([], [])).1

/-- What the target of a name lists in `depends_on`. -/
def dependencies (targets : List BuildTarget) (name : Text) : List Text :=
  ((find (targetsByName targets) name).map BuildTarget.dependsOn).getD []

/-- Each library that a target reaches stands in a list once, in front of those that it uses. -/
structure LinkOrdered (targets : List BuildTarget) (target : BuildTarget) (linked : List BuildTarget) :
    Prop where
  once : (linked.map BuildTarget.name).Nodup
  reached : ∀ name, name ∈ linked.map BuildTarget.name ↔
    ∃ dependency ∈ target.dependsOn, ReflTransGen (DependsOn targets) dependency name
  listed : ∀ library ∈ linked, library ∈ targets
  forward : ∀ before used after, linked = before ++ used :: after →
    ∀ user ∈ after, used.name ∉ user.dependsOn

/-- The first chain of dependencies from a target to a name, where a chain is given by the positions
in the lists that it goes through. -/
def FirstChain (targets : List BuildTarget) (target : BuildTarget) (chain : List Nat) (name : Text) :
    Prop :=
  First (dependencies targets) target.dependsOn chain name

/-- The first chain to a library comes before the first chain to each library that it uses. -/
def UsersFirst (targets : List BuildTarget) (target : BuildTarget) : Prop :=
  ∀ user used chain chain', FirstChain targets target chain user →
    FirstChain targets target chain' used → DependsOn targets user used → chain < chain'

variable {target : BuildTarget} {targets : List BuildTarget} {table : Table Text BuildTarget}
  {name : Text}

variable (hdistinct : (targets.map BuildTarget.name).Nodup)
include hdistinct

theorem find_foldl :
    find (targets.foldl (fun table target => insert textBefore table target.name target) table) name =
      (targets.find? fun target => decide (target.name = name)).or (find table name) := by
  induction targets generalizing table with
  | nil => rfl
  | cons target targets ih =>
    rw [map_cons, nodup_cons] at hdistinct
    rw [foldl_cons, ih hdistinct.2, find_insert, find?_cons]
    by_cases hname : target.name = name
    · have hnone : targets.find? (fun target => decide (target.name = name)) = none := by
        rw [find?_eq_none]
        intro other hother heq
        exact hdistinct.1 (hname ▸ mem_map.2 ⟨other, hother, of_decide_eq_true heq⟩)
      rw [hnone, if_pos hname.symm, decide_eq_true hname]
      rfl
    · rw [if_neg (Ne.symm hname), decide_eq_false hname]

theorem find_targetsByName_iff :
    find (targetsByName targets) name = some target ↔ target ∈ targets ∧ target.name = name := by
  rw [targetsByName, find_foldl hdistinct]
  have hempty : find ([] : Table Text BuildTarget) name = none := rfl
  rw [hempty, Option.or_none]
  constructor
  · intro h
    exact ⟨mem_of_find?_eq_some h, by simpa using find?_some h⟩
  · rintro ⟨hmem, rfl⟩
    cases hfind : targets.find? fun other => decide (other.name = target.name) with
    | none => exact absurd rfl (of_decide_eq_false (Bool.eq_false_iff.2 (find?_eq_none.1 hfind target hmem)))
    | some other =>
      have hname : other.name = target.name := by simpa using find?_some hfind
      rw [inj_on_of_nodup_map hdistinct (mem_of_find?_eq_some hfind) hmem hname]

theorem child_iff {dependency : Text} :
    Child (dependencies targets) name dependency ↔ DependsOn targets name dependency := by
  unfold Child dependencies
  constructor
  · intro h
    cases hfind : find (targetsByName targets) name with
    | none =>
      rw [hfind] at h
      cases h
    | some target =>
      rw [hfind] at h
      obtain ⟨hmem, rfl⟩ := (find_targetsByName_iff hdistinct).1 hfind
      exact ⟨target, hmem, rfl, h⟩
  · rintro ⟨target, hmem, rfl, h⟩
    rw [(find_targetsByName_iff hdistinct).2 ⟨hmem, rfl⟩]
    exact h

omit hdistinct

variable {found : List BuildTarget × List Text} {names : List Text}

structure Mirrors (table : Table Text BuildTarget) (found : List BuildTarget × List Text)
    (names : List Text) : Prop where
  targets : found.1.map BuildTarget.name = names
  seen : found.2 = names.reverse
  entries : ∀ target ∈ found.1, find table target.name = some target

theorem Mirrors.meet (h : Mirrors table found names) (htarget : find table target.name = some target) :
    Mirrors table (found.1 ++ [target], target.name :: found.2) (names ++ [target.name]) where
  targets := by rw [map_append, h.targets]; rfl
  seen := by rw [h.seen, reverse_append]; rfl
  entries := forall_mem_append.2 ⟨h.entries, forall_mem_singleton.2 htarget⟩

theorem collect_mirrors {children : Text → List Text}
    (hchildren : ∀ name target, find table name = some target → children name = target.dependsOn)
    (hknown : ∀ name target, find table name = some target → target.name = name ∧
      ∀ dependency ∈ target.dependsOn, (find table dependency).isSome = true)
    (htarget : ∀ dependency ∈ target.dependsOn, (find table dependency).isSome = true) (depth : Nat)
    (h : Mirrors table found names) :
    Mirrors table (collectTargetLinkDependencies table depth target found)
      (gather children depth target.dependsOn names) := by
  induction depth generalizing target found names with
  | zero => exact h
  | succ depth ih =>
    rw [collectTargetLinkDependencies, gather]
    generalize target.dependsOn = options at htarget
    induction options generalizing found names with
    | nil => exact h
    | cons name options ihOptions =>
      obtain ⟨hname, hoptions⟩ := forall_mem_cons.1 htarget
      obtain ⟨dependency, hdependency⟩ := Option.isSome_iff_exists.1 hname
      obtain ⟨rfl, hinside⟩ := hknown name dependency hdependency
      have hseen : dependency.name ∈ found.2 ↔ dependency.name ∈ names := by
        rw [h.seen, mem_reverse]
      rw [foldl_cons, foldl_cons]
      by_cases hmem : dependency.name ∈ names
      · rw [if_pos hmem, if_pos (hseen.2 hmem)]
        exact ihOptions h hoptions
      · rw [if_neg hmem, if_neg (mt hseen.1 hmem), hdependency,
          hchildren dependency.name dependency hdependency]
        exact ihOptions (ih hinside (h.meet hdependency)) hoptions

theorem length_le_targetsByName (hdistinct : (targets.map BuildTarget.name).Nodup) :
    (targets.map BuildTarget.name).length ≤ (targetsByName targets).length := by
  have hsubset : targets.map BuildTarget.name ⊆ (targetsByName targets).map Prod.fst := by
    intro name hname
    obtain ⟨target, htarget, rfl⟩ := mem_map.1 hname
    exact mem_map.2
      ⟨_, mem_of_find ((find_targetsByName_iff hdistinct).2 ⟨htarget, rfl⟩), rfl⟩
  have hlength := (subperm_of_subset hdistinct hsubset).length_le
  rwa [@List.length_map _ _ _ Prod.fst] at hlength

theorem linkDependencies_gather (h : Orderable targets) (htarget : target ∈ targets) :
    Mirrors (targetsByName targets)
      (collectTargetLinkDependencies (targetsByName targets) ((targetsByName targets).length + 1) target
        ([], []))
      (gather (dependencies targets) ((targetsByName targets).length + 1) target.dependsOn []) := by
  have hlisted : ∀ target ∈ targets, ∀ dependency ∈ target.dependsOn,
      (find (targetsByName targets) dependency).isSome = true := by
    intro target htarget dependency hdependency
    obtain ⟨library, hlibrary, rfl, -⟩ := h.libraries target htarget dependency hdependency
    rw [(find_targetsByName_iff h.distinct).2 ⟨hlibrary, rfl⟩]
    rfl
  refine collect_mirrors (fun name target hfind => ?_) (fun name target hfind => ?_)
    (hlisted target htarget) _ ⟨rfl, rfl, forall_mem_nil _⟩
  · rw [dependencies, hfind]
    rfl
  · obtain ⟨hmem, hname⟩ := (find_targetsByName_iff h.distinct).1 hfind
    exact ⟨hname, hlisted target hmem⟩

theorem linkDependencies_swept (h : Orderable targets) (htarget : target ∈ targets) :
    Swept (dependencies targets) target.dependsOn [target.dependsOn.length]
        ((linkDependencies targets target).map BuildTarget.name) ∧
      ∀ name, name ∈ (linkDependencies targets target).map BuildTarget.name ↔
        ∃ dependency ∈ target.dependsOn, ReflTransGen (DependsOn targets) dependency name := by
  have hchild : Child (dependencies targets) = DependsOn targets := by
    funext name dependency
    exact propext (child_iff h.distinct)
  have hnames : ∀ target ∈ targets, target.dependsOn ⊆ targets.map BuildTarget.name := by
    intro target htarget dependency hdependency
    obtain ⟨library, hlibrary, rfl, -⟩ := h.libraries target htarget dependency hdependency
    exact mem_map.2 ⟨library, hlibrary, rfl⟩
  have hgather := @gather_roots _ (dependencies targets) _ _ _ _ (hchild ▸ h.acyclic)
    (fun name _ dependency hdependency => by
      obtain ⟨owner, howner, rfl, hmem⟩ := (child_iff h.distinct).1 hdependency
      exact hnames owner howner hmem)
    (hnames target htarget) (Nat.lt_succ_of_le (length_le_targetsByName h.distinct))
  rw [linkDependencies, (linkDependencies_gather h htarget).targets]
  rwa [hchild] at hgather

theorem orderable_of_ordered {declared : List BuildTarget}
    (hnames : ∀ target ∈ declared, target.name ≠ [])
    (hordered : orderBuildTargets declared = .ok targets) : Orderable targets := by
  rcases orderBuildTargets_cases hnames with ⟨horderable, result, hresult, hperm, -⟩ | ⟨-, _, hfailure, -⟩
  · obtain rfl := Except.ok.inj (hresult.symm.trans hordered)
    exact horderable.of_perm hperm
  · rw [hfailure] at hordered
    cases hordered

theorem forward_names_iff {linked : List BuildTarget}
    (hentries : ∀ library ∈ linked, find (targetsByName targets) library.name = some library) :
    (∀ before used after, linked = before ++ used :: after →
        ∀ user ∈ after, used.name ∉ user.dependsOn) ↔
      ∀ before used after, linked.map BuildTarget.name = before ++ used :: after →
        ∀ user ∈ after, used ∉ dependencies targets user := by
  have hdependencies : ∀ library ∈ linked,
      dependencies targets library.name = library.dependsOn := by
    intro library hlibrary
    rw [dependencies, hentries library hlibrary]
    rfl
  constructor
  · intro hforward before used after hsplit user huser
    obtain ⟨front, rest, rfl, rfl, hrest⟩ := map_eq_append_iff.1 hsplit
    obtain ⟨library, back, rfl, rfl, rfl⟩ := map_eq_cons_iff.1 hrest
    obtain ⟨owner, howner, rfl⟩ := mem_map.1 huser
    rw [hdependencies owner (mem_append_right _ (mem_cons_of_mem _ howner))]
    exact hforward front library back rfl owner howner
  · rintro hforward before used after rfl user huser
    have hnames := hforward (before.map BuildTarget.name) used.name (after.map BuildTarget.name)
      (by rw [map_append, map_cons]) user.name (mem_map.2 ⟨user, huser, rfl⟩)
    rwa [hdependencies user (mem_append_right _ (mem_cons_of_mem _ huser))] at hnames

/-- The libraries of a target are linked in front of what they use if and only if the first chain to
each comes before the first chain to what it uses. -/
theorem linkDependencies_ordered_iff {declared : List BuildTarget}
    (hnames : ∀ target ∈ declared, target.name ≠ [])
    (hordered : orderBuildTargets declared = .ok targets) (htarget : target ∈ targets) :
    LinkOrdered targets target (linkDependencies targets target) ↔ UsersFirst targets target := by
  have h : Orderable targets := orderable_of_ordered hnames hordered
  obtain ⟨hswept, hreached⟩ := linkDependencies_swept h htarget
  have hchild : Child (dependencies targets) = DependsOn targets := by
    funext name dependency
    exact propext (child_iff h.distinct)
  have hforward := hswept.forward_iff (hchild ▸ h.acyclic) (hchild ▸ hreached)
  have hmirrors := linkDependencies_gather h htarget
  have hsorted := @forward_names_iff _ (linkDependencies targets target) hmirrors.entries
  have hchains : UsersFirst targets target ↔ ∀ user used chain chain',
      First (dependencies targets) target.dependsOn chain user →
        First (dependencies targets) target.dependsOn chain' used →
          Child (dependencies targets) user used → chain < chain' := by
    rw [hchild]
    exact Iff.rfl
  rw [hchains, ← hforward, ← hsorted]
  refine ⟨LinkOrdered.forward, fun hlinked => ⟨hswept.nodup, hreached, fun library hlibrary => ?_, hlinked⟩⟩
  exact ((find_targetsByName_iff h.distinct).1 (hmirrors.entries library hlibrary)).1

def frontend : BuildTarget := plainTarget "frontend" .staticLibrary ["core"]

def compiler : BuildTarget := plainTarget "compiler" .executable ["frontend"]

theorem walk_compiler {chain : List Nat}
    (h : walk (dependencies [core, frontend, compiler]) compiler.dependsOn chain = some name) :
    chain = [0] ∧ name = frontend.name ∨ chain = [0, 0] ∧ name = core.name := by
  rcases chain with _ | ⟨_ | i, _ | ⟨_ | j, _ | ⟨k, _ | ⟨l, rest⟩⟩⟩⟩
  · cases h
  · exact .inl ⟨rfl, (Option.some.inj h).symm⟩
  · exact .inr ⟨rfl, (Option.some.inj h).symm⟩
  all_goals cases h

/-- An executable, the library that it uses, and the one that this uses in turn. -/
theorem application_linked : LinkOrdered [core, frontend, compiler] compiler
    (linkDependencies [core, frontend, compiler] compiler) := by
  refine (@linkDependencies_ordered_iff _ _ [compiler, frontend, core] (by decide) (by decide)
    (by decide)).2 fun user used chain chain' hchain hchain' hdepends => ?_
  rcases walk_compiler hchain.leads with ⟨rfl, rfl⟩ | ⟨rfl, rfl⟩
  · rcases walk_compiler hchain'.leads with ⟨rfl, rfl⟩ | ⟨rfl, -⟩
    · exact absurd hdepends (by unfold TargetOrder.DependsOn; decide)
    · decide
  · obtain ⟨owner, howner, hname, hused⟩ := hdepends
    fin_cases howner
    · cases hused
    · exact absurd hname (by decide)
    · exact absurd hname (by decide)

def diamond : List BuildTarget :=
  [plainTarget "core" .staticLibrary [], plainTarget "logging" .staticLibrary ["core"],
    plainTarget "parser" .staticLibrary ["core"], plainTarget "app" .executable ["logging", "parser"]]

/-- The third one is linked in front of its second user. -/
theorem not_linkDependencies_ordered :
    ¬ ∀ (declared targets : List BuildTarget) (target : BuildTarget),
      (∀ target ∈ declared, target.name ≠ []) → orderBuildTargets declared = .ok targets →
        target ∈ targets → target.kind ≠ .staticLibrary →
          LinkOrdered targets target (linkDependencies targets target) := by
  intro hclaim
  have hlinked := hclaim diamond diamond (plainTarget "app" .executable ["logging", "parser"])
    (by decide) (by decide) (by decide) (by decide)
  exact hlinked.forward [plainTarget "logging" .staticLibrary ["core"]]
    (plainTarget "core" .staticLibrary []) [plainTarget "parser" .staticLibrary ["core"]] (by decide)
    (plainTarget "parser" .staticLibrary ["core"]) (by decide) (by decide)

end Mlang.TargetLinking
