import Mlang.BuildCommands
import Mlang.DepthFirstOrders

namespace Mlang.TargetOrder

open BracketedText (Text)
open BuildCommands (BuildConfig BuildTarget TargetKind)
open DepthFirstOrders List
open Relation (TransGen ReflTransGen)

inductive Refusal
  | unknown (dependencyName targetName : Text)
  | notLibrary (dependencyName targetName : Text)
  deriving DecidableEq

inductive Failure
  | duplicate (name : Text)
  | refused (refusal : Refusal)
  | cycle (name : Text)
  | depth
  deriving DecidableEq

def Failure.message (manifestPath : Text) : Failure → Text
  | .duplicate name =>
    "Duplicate package target name '".toList ++ name ++ "' in ".toList ++ manifestPath
  | .refused (.unknown dependencyName targetName) =>
    "Unknown package target '".toList ++ dependencyName ++ "' in depends_on for target '".toList ++
      targetName ++ "'".toList
  | .refused (.notLibrary dependencyName targetName) =>
    "Package target '".toList ++ targetName ++ "' can only depend_on [[lib]] targets; '".toList ++
      dependencyName ++ "' is not a library".toList
  | .cycle name =>
    "Package target dependency cycle involving '".toList ++ name ++ "' in ".toList ++ manifestPath
  | .depth => []

def indexByName : List BuildTarget → Nat → List (Text × Nat) → Except Failure (List (Text × Nat))
  | [], _, byName => .ok byName
  | target :: targets, i, byName =>
    if target.name = [] then indexByName targets (i + 1) byName
    else if (byName.lookup target.name).isSome then .error (.duplicate target.name)
    else indexByName targets (i + 1) ((target.name, i) :: byName)

def dependencyEdge (targets : List BuildTarget) (byName : List (Text × Nat)) (target : BuildTarget)
    (dependencyName : Text) : Except Refusal Nat :=
  match byName.lookup dependencyName with
  | none => .error (.unknown dependencyName target.name)
  | some dependency =>
    if (targets[dependency]?).any fun target => target.kind = .executable then
      .error (.notLibrary dependencyName target.name)
    else .ok dependency

def dependencyEdges (targets : List BuildTarget) (byName : List (Text × Nat)) (index : Nat) :
    List (Except Refusal Nat) :=
  match targets[index]? with
  | none => []
  | some target => target.dependsOn.map (dependencyEdge targets byName target)

def failureOf (targets : List BuildTarget) : Fault Nat Refusal → Failure
  | .refused refusal => .refused refusal
  | .cycle index => .cycle (((targets[index]?).map BuildTarget.name).getD [])
  | .depth => .depth

def orderBuildTargets (targets : List BuildTarget) : Except Failure (List BuildTarget) :=
  (indexByName targets 0 []).bind fun byName =>
    match visitEach (visit (dependencyEdges targets byName) (targets.length + 1) [])
        ((List.range targets.length).map .ok) [] with
    | .error fault => .error (failureOf targets fault)
    | .ok ordered => .ok (ordered.filterMap fun index => targets[index]?)

variable {targets : List BuildTarget}

/-- The first target names the second in `depends_on`. -/
def DependsOn (targets : List BuildTarget) (name dependency : Text) : Prop :=
  ∃ target ∈ targets, target.name = name ∧ dependency ∈ target.dependsOn

structure Orderable (targets : List BuildTarget) : Prop where
  distinct : (targets.map BuildTarget.name).Nodup
  libraries : ∀ target ∈ targets, ∀ dependency ∈ target.dependsOn,
    ∃ library ∈ targets, library.name = dependency ∧ library.kind ≠ .executable
  acyclic : ∀ name, ¬ TransGen (DependsOn targets) name name

theorem Orderable.of_perm {targets' : List BuildTarget} (h : Orderable targets)
    (hperm : targets'.Perm targets) : Orderable targets' where
  distinct := (hperm.map BuildTarget.name).nodup_iff.2 h.distinct
  libraries := by
    intro target htarget dependency hdependency
    obtain ⟨library, hlibrary, hkind⟩ := h.libraries target (hperm.mem_iff.1 htarget) dependency hdependency
    exact ⟨library, hperm.mem_iff.2 hlibrary, hkind⟩
  acyclic := by
    intro name hcycle
    have hsub : ∀ name dependency, DependsOn targets' name dependency → DependsOn targets name dependency :=
      fun _ _ ⟨target, htarget, hdepends⟩ => ⟨target, hperm.mem_iff.1 htarget, hdepends⟩
    exact h.acyclic name (TransGen.mono hsub name name hcycle)

def Ordered (targets ordered : List BuildTarget) : Prop :=
  ∀ before target after, ordered = before ++ target :: after →
    ∀ name, TransGen (DependsOn targets) target.name name → ∃ dependency ∈ before, dependency.name = name

variable {target : BuildTarget} {byName : List (Text × Nat)} {front rest : List BuildTarget}

def Indexes (targets : List BuildTarget) (byName : List (Text × Nat)) : Prop :=
  ∀ name i, byName.lookup name = some i ↔ ∃ target, targets[i]? = some target ∧ target.name = name

theorem indexes_concat (h : Indexes front byName) (hnew : byName.lookup target.name = none) :
    Indexes (front ++ [target]) ((target.name, front.length) :: byName) := by
  intro name i
  rw [lookup_cons]
  by_cases hname : name = target.name
  · subst hname
    rw [beq_self_eq_true]
    constructor
    · intro hi
      cases hi
      exact ⟨target, getElem?_concat_length, rfl⟩
    · rintro ⟨other, hother, hname⟩
      rcases Nat.lt_trichotomy i front.length with hlt | rfl | hgt
      · rw [getElem?_append_left hlt] at hother
        rw [(h target.name i).2 ⟨other, hother, hname⟩] at hnew
        cases hnew
      · rfl
      · rw [getElem?_eq_none (by simpa using Nat.succ_le_of_lt hgt)] at hother
        cases hother
  · rw [beq_false_of_ne hname, h name i]
    constructor
    · rintro ⟨other, hother, hname'⟩
      refine ⟨other, ?_, hname'⟩
      rwa [getElem?_append_left (List.getElem?_eq_some_iff.1 hother).1]
    · rintro ⟨other, hother, rfl⟩
      rcases Nat.lt_trichotomy i front.length with hlt | rfl | hgt
      · rw [getElem?_append_left hlt] at hother
        exact ⟨other, hother, rfl⟩
      · rw [getElem?_concat_length] at hother
        exact absurd (Option.some.inj hother ▸ rfl) hname
      · rw [getElem?_eq_none (by simpa using Nat.succ_le_of_lt hgt)] at hother
        cases hother

theorem indexByName_cases (hnames : ∀ target ∈ rest, target.name ≠ [])
    (hfront : Indexes front byName) (hnodup : (front.map BuildTarget.name).Nodup) :
    (∃ table, indexByName rest front.length byName = .ok table ∧ Indexes (front ++ rest) table ∧
        ((front ++ rest).map BuildTarget.name).Nodup) ∨
      ∃ name, indexByName rest front.length byName = .error (.duplicate name) ∧
        ¬ ((front ++ rest).map BuildTarget.name).Nodup := by
  induction rest generalizing front byName with
  | nil =>
    rw [append_nil]
    exact .inl ⟨byName, rfl, hfront, hnodup⟩
  | cons target rest ih =>
    obtain ⟨hname, hrest⟩ := forall_mem_cons.1 hnames
    rw [indexByName, if_neg hname]
    cases hlookup : byName.lookup target.name with
    | some i =>
      refine .inr ⟨target.name, rfl, fun hall => ?_⟩
      obtain ⟨other, hother, heq⟩ := (hfront target.name i).1 hlookup
      rw [map_append, map_cons] at hall
      exact (nodup_append.1 hall).2.2 target.name
        (mem_map.2 ⟨other, mem_of_getElem? hother, heq⟩) _ mem_cons_self rfl
    | none =>
      have hnew : target.name ∉ front.map BuildTarget.name := by
        intro hmem
        obtain ⟨other, hother, heq⟩ := mem_map.1 hmem
        obtain ⟨i, hi⟩ := getElem?_of_mem hother
        rw [(hfront target.name i).2 ⟨other, hi, heq⟩] at hlookup
        cases hlookup
      have hnodup' : ((front ++ [target]).map BuildTarget.name).Nodup := by
        rw [map_append]
        exact concat_eq_append ▸ List.Nodup.concat hnew hnodup
      have hnext := ih hrest (indexes_concat hfront hlookup) hnodup'
      rw [append_assoc, length_append] at hnext
      exact hnext

theorem indexes_nil : Indexes [] [] := by
  intro name i
  simp

variable {i j : Nat} {name dependency : Text}

variable (hindex : Indexes targets byName)
include hindex

theorem step_iff :
    Step (dependencyEdges targets byName) i j ↔ ∃ target library, targets[i]? = some target ∧
      targets[j]? = some library ∧ library.name ∈ target.dependsOn ∧ library.kind ≠ .executable := by
  unfold Step dependencyEdges
  cases htarget : targets[i]? with
  | none => simp
  | some target =>
    rw [mem_map]
    constructor
    · rintro ⟨name, hname, hedge⟩
      rw [dependencyEdge] at hedge
      cases hlookup : byName.lookup name with
      | none =>
        rw [hlookup] at hedge
        cases hedge
      | some k =>
        obtain ⟨library, hlibrary, rfl⟩ := (hindex name k).1 hlookup
        rw [hlookup] at hedge
        simp only [hlibrary, Option.any_some, decide_eq_true_eq] at hedge
        split_ifs at hedge with hkind
        cases hedge
        exact ⟨target, library, rfl, hlibrary, hname, hkind⟩
    · rintro ⟨target', library, heq, hlibrary, hname, hkind⟩
      cases heq
      refine ⟨library.name, hname, ?_⟩
      rw [dependencyEdge, (hindex library.name j).2 ⟨library, hlibrary, rfl⟩]
      simp [hlibrary, hkind]

theorem libraries_of_accepted (htarget : targets[i]? = some target)
    (haccepted : ∀ e ∈ dependencyEdges targets byName i, ∃ j, e = .ok j)
    (hdependency : dependency ∈ target.dependsOn) :
    ∃ library ∈ targets, library.name = dependency ∧ library.kind ≠ .executable := by
  have hmem : dependencyEdge targets byName target dependency ∈ dependencyEdges targets byName i := by
    rw [dependencyEdges, htarget]
    exact mem_map.2 ⟨dependency, hdependency, rfl⟩
  obtain ⟨j, hj⟩ := haccepted _ hmem
  rw [dependencyEdge] at hj
  cases hlookup : byName.lookup dependency with
  | none =>
    rw [hlookup] at hj
    cases hj
  | some k =>
    obtain ⟨library, hlibrary, rfl⟩ := (hindex dependency k).1 hlookup
    rw [hlookup] at hj
    simp only [hlibrary, Option.any_some, decide_eq_true_eq] at hj
    split_ifs at hj with hkind
    exact ⟨library, mem_of_getElem? hlibrary, rfl, hkind⟩

theorem not_refused (hlibraries : ∀ target ∈ targets, ∀ dependency ∈ target.dependsOn,
      ∃ library ∈ targets, library.name = dependency ∧ library.kind ≠ .executable)
    (refusal : Refusal) : .error refusal ∉ dependencyEdges targets byName i := by
  intro hmem
  rw [dependencyEdges] at hmem
  cases htarget : targets[i]? with
  | none =>
    rw [htarget] at hmem
    cases hmem
  | some target =>
    rw [htarget] at hmem
    obtain ⟨name, hname, hedge⟩ := mem_map.1 hmem
    obtain ⟨library, hmem, rfl, hkind⟩ :=
      hlibraries target (mem_of_getElem? htarget) name hname
    obtain ⟨j, hlibrary⟩ := getElem?_of_mem hmem
    rw [dependencyEdge, (hindex library.name j).2 ⟨library, hlibrary, rfl⟩] at hedge
    simp [hlibrary, hkind] at hedge

omit hindex

theorem eq_of_name_eq (hdistinct : (targets.map BuildTarget.name).Nodup) {library : BuildTarget}
    (hi : targets[i]? = some target) (hj : targets[j]? = some library)
    (hname : target.name = library.name) : i = j := by
  have hi' : (targets.map BuildTarget.name)[i]? = some target.name := by
    rw [getElem?_map, hi]
    rfl
  have hj' : (targets.map BuildTarget.name)[j]? = some target.name := by
    rw [getElem?_map, hj, hname]
    rfl
  obtain ⟨hlt, hget⟩ := List.getElem?_eq_some_iff.1 hi'
  obtain ⟨hlt', hget'⟩ := List.getElem?_eq_some_iff.1 hj'
  exact (hdistinct.getElem_inj_iff).1 (hget.trans hget'.symm)

theorem trans_of_dependsOn (hindex : Indexes targets byName)
    (hlibraries : ∀ target ∈ targets, ∀ dependency ∈ target.dependsOn,
      ∃ library ∈ targets, library.name = dependency ∧ library.kind ≠ .executable)
    (hdistinct : (targets.map BuildTarget.name).Nodup)
    (h : TransGen (DependsOn targets) name dependency) (htarget : targets[i]? = some target)
    (hname : target.name = name) : ∃ j library, targets[j]? = some library ∧
      library.name = dependency ∧ TransGen (Step (dependencyEdges targets byName)) i j := by
  have hedge : ∀ {name dependency : Text} {i : Nat} {target : BuildTarget},
      DependsOn targets name dependency → targets[i]? = some target → target.name = name →
      ∃ j library, targets[j]? = some library ∧ library.name = dependency ∧
        Step (dependencyEdges targets byName) i j := by
    rintro name dependency i target ⟨owner, howner, rfl, hdependency⟩ htarget hname
    obtain ⟨k, hk⟩ := getElem?_of_mem howner
    obtain rfl := eq_of_name_eq hdistinct htarget hk hname
    obtain rfl := Option.some.inj (hk.symm.trans htarget)
    obtain ⟨library, hmem, rfl, hkind⟩ := hlibraries owner howner dependency hdependency
    obtain ⟨j, hj⟩ := getElem?_of_mem hmem
    exact ⟨j, library, hj, rfl, (step_iff hindex).2 ⟨owner, library, hk, hj, hdependency, hkind⟩⟩
  induction h with
  | single hstep =>
    obtain ⟨j, library, hj, hlibrary, hstep⟩ := hedge hstep htarget hname
    exact ⟨j, library, hj, hlibrary, TransGen.single hstep⟩
  | tail _ hstep ih =>
    obtain ⟨k, middle, hk, hmiddle, hpath⟩ := ih
    obtain ⟨j, library, hj, hlibrary, hstep⟩ := hedge hstep hk hmiddle
    exact ⟨j, library, hj, hlibrary, hpath.tail hstep⟩

theorem dependsOn_of_trans (hindex : Indexes targets byName)
    (h : TransGen (Step (dependencyEdges targets byName)) i j) :
    ∃ target library, targets[i]? = some target ∧ targets[j]? = some library ∧
      TransGen (DependsOn targets) target.name library.name := by
  have hedge : ∀ {i j}, Step (dependencyEdges targets byName) i j → ∃ target library,
      targets[i]? = some target ∧ targets[j]? = some library ∧
        DependsOn targets target.name library.name := by
    intro i j hstep
    obtain ⟨target, library, hi, hj, hname, -⟩ := (step_iff hindex).1 hstep
    exact ⟨target, library, hi, hj, target, mem_of_getElem? hi, rfl, hname⟩
  induction h with
  | single hstep =>
    obtain ⟨target, library, hi, hj, hdepends⟩ := hedge hstep
    exact ⟨target, library, hi, hj, TransGen.single hdepends⟩
  | tail _ hstep ih =>
    obtain ⟨target, middle, hi, hk, hpath⟩ := ih
    obtain ⟨middle', library, hk', hj, hdepends⟩ := hedge hstep
    obtain rfl := Option.some.inj (hk.symm.trans hk')
    exact ⟨target, library, hi, hj, hpath.tail hdepends⟩

variable {ordered : List BuildTarget} {done : List Nat}

theorem filterMap_range (targets : List BuildTarget) :
    (List.range targets.length).filterMap (fun i => targets[i]?) = targets := by
  have hget : (List.range targets.length).map (fun i => targets[i]?) = targets.map some := by
    refine ext_getElem (by simp) fun i _ h => ?_
    rw [length_map] at h
    simp [getElem?_eq_getElem h]
  calc (List.range targets.length).filterMap (fun i => targets[i]?)
      = ((List.range targets.length).map fun i => targets[i]?).filterMap id := by
        rw [filterMap_map, Function.id_comp]
    _ = targets := by
        rw [hget, filterMap_map, Function.id_comp, filterMap_some]

theorem step_lt (hindex : Indexes targets byName) {i j : Nat}
    (h : ReflTransGen (Step (dependencyEdges targets byName)) i j) (hi : i < targets.length) :
    j < targets.length := by
  induction h with
  | refl => exact hi
  | tail _ hstep _ =>
    obtain ⟨_, _, _, hj, -⟩ := (step_iff hindex).1 hstep
    exact (List.getElem?_eq_some_iff.1 hj).1

theorem mem_roots {k : Nat} :
    (.ok k : Except Refusal Nat) ∈ (List.range targets.length).map .ok ↔ k < targets.length := by
  rw [mem_map]
  constructor
  · rintro ⟨i, hi, heq⟩
    exact Except.ok.inj heq ▸ List.mem_range.1 hi
  · exact fun hk => ⟨k, List.mem_range.2 hk, rfl⟩

variable (hindex : Indexes targets byName)
include hindex

theorem settled_of_ok (h : visitEach (visit (dependencyEdges targets byName) (targets.length + 1) [])
      ((List.range targets.length).map .ok) [] = .ok done) :
    Settled (dependencyEdges targets byName) done ∧ done.Perm (List.range targets.length) := by
  obtain ⟨hext, hall⟩ := visitEach_ok (fun _ _ _ _ hdone hvisit => visit_ok hdone hvisit)
    settled_nil h
  refine ⟨hext.settled, (perm_ext_iff_of_nodup hext.settled.nodup nodup_range).2 fun i => ?_⟩
  rw [mem_range]
  constructor
  · intro hi
    obtain ⟨-, k, hk, hreach⟩ := (hext.added i hi).resolve_left not_mem_nil
    exact step_lt hindex hreach (mem_roots.1 hk)
  · intro hi
    obtain ⟨m, hm, heq⟩ := hall _ (mem_roots.2 hi)
    exact Except.ok.inj heq ▸ hm

theorem orderable_of_settled (hdistinct : (targets.map BuildTarget.name).Nodup)
    (hsettled : Settled (dependencyEdges targets byName) done)
    (hperm : done.Perm (List.range targets.length)) : Orderable targets := by
  have hdone : ∀ {i target}, targets[i]? = some target → i ∈ done := fun hi =>
    hperm.mem_iff.2 (List.mem_range.2 (List.getElem?_eq_some_iff.1 hi).1)
  have hlibraries : ∀ target ∈ targets, ∀ dependency ∈ target.dependsOn,
      ∃ library ∈ targets, library.name = dependency ∧ library.kind ≠ .executable := by
    intro target htarget dependency hdependency
    obtain ⟨i, hi⟩ := getElem?_of_mem htarget
    exact libraries_of_accepted hindex hi (hsettled.accepted (hdone hi)) hdependency
  refine ⟨hdistinct, hlibraries, fun name hcycle => ?_⟩
  obtain ⟨_, hhead, -⟩ := TransGen.head'_iff.1 hcycle
  obtain ⟨target, htarget, rfl, -⟩ := hhead
  obtain ⟨i, hi⟩ := getElem?_of_mem htarget
  obtain ⟨j, library, hj, hname, hpath⟩ := trans_of_dependsOn hindex hlibraries hdistinct hcycle hi rfl
  obtain rfl := eq_of_name_eq hdistinct hj hi hname
  exact hsettled.acyclic (hdone hi) hpath

theorem ordered_of_settled (horderable : Orderable targets)
    (hsettled : Settled (dependencyEdges targets byName) done) :
    Ordered targets (done.filterMap fun i => targets[i]?) := by
  intro before target after hsplit name hreach
  obtain ⟨front, back, rfl, rfl, hback⟩ := filterMap_eq_append_iff.1 hsplit
  obtain ⟨gap, i, rest, rfl, hgap, hi, -⟩ := filterMap_eq_cons_iff.1 hback
  obtain ⟨j, library, hj, rfl, hpath⟩ :=
    trans_of_dependsOn hindex horderable.libraries horderable.distinct hreach hi rfl
  have hmem := hsettled.trans (append_assoc _ _ _).symm hpath
  rcases mem_append.1 hmem with hmem | hmem
  · exact ⟨library, mem_filterMap.2 ⟨j, hmem, hj⟩, rfl⟩
  · rw [hgap j hmem] at hj
    cases hj

theorem not_explains (horderable : Orderable targets)
    (fault : Fault Nat Refusal) :
    ¬ Explains (dependencyEdges targets byName) (List.range targets.length) fault := by
  intro h
  cases fault with
  | refused refusal =>
    obtain ⟨i, -, hmem⟩ := h
    exact not_refused hindex horderable.libraries refusal hmem
  | cycle i =>
    obtain ⟨target, library, hi, hj, hpath⟩ := dependsOn_of_trans hindex h.2
    obtain rfl := Option.some.inj (hi.symm.trans hj)
    exact horderable.acyclic _ hpath
  | depth => exact h

theorem explains_of_error {fault : Fault Nat Refusal}
    (h : visitEach (visit (dependencyEdges targets byName) (targets.length + 1) [])
      ((List.range targets.length).map .ok) [] = .error fault) :
    Explains (dependencyEdges targets byName) (List.range targets.length) fault := by
  refine visitEach_error (fun i done f hi hvisit => ?_) (fun e he => ?_) h
  · refine visit_error (fun n hn m hstep => ?_) (List.mem_range.2 (mem_roots.1 hi)) nodup_nil
      (nil_subset _) (forall_mem_nil _) ?_ hvisit
    · exact List.mem_range.2
        (step_lt hindex (ReflTransGen.single hstep) (List.mem_range.1 hn))
    · rw [length_range, length_nil]
      exact Nat.lt_succ_self _
  · obtain ⟨_, _, heq⟩ := mem_map.1 he
    cases heq

omit hindex

theorem orderBuildTargets_cases (hnames : ∀ target ∈ targets, target.name ≠ []) :
    (Orderable targets ∧ ∃ ordered, orderBuildTargets targets = .ok ordered ∧
        ordered.Perm targets ∧ Ordered targets ordered) ∨
      ¬ Orderable targets ∧ ∃ failure, orderBuildTargets targets = .error failure ∧ failure ≠ .depth := by
  rcases indexByName_cases hnames indexes_nil nodup_nil with
    ⟨byName, hbyName, hindex, hdistinct⟩ | ⟨name, hbyName, hdistinct⟩
  · rw [nil_append] at hindex hdistinct
    have hbyName : indexByName targets 0 [] = .ok byName := hbyName
    have horder : orderBuildTargets targets =
        match visitEach (visit (dependencyEdges targets byName) (targets.length + 1) [])
          ((List.range targets.length).map .ok) [] with
        | .error fault => .error (failureOf targets fault)
        | .ok ordered => .ok (ordered.filterMap fun index => targets[index]?) := by
      rw [orderBuildTargets, hbyName]
      rfl
    rw [horder]
    cases hvisits : visitEach (visit (dependencyEdges targets byName) (targets.length + 1) [])
        ((List.range targets.length).map .ok) [] with
    | error fault =>
      have hexplains := explains_of_error hindex hvisits
      refine .inr ⟨fun horderable => not_explains hindex horderable fault hexplains, _, rfl, ?_⟩
      cases fault with
      | depth => exact hexplains.elim
      | refused | cycle => exact fun h => (nomatch h)
    | ok done =>
      obtain ⟨hsettled, hperm⟩ := settled_of_ok hindex hvisits
      have horderable := orderable_of_settled hindex hdistinct hsettled hperm
      refine .inl ⟨horderable, _, rfl, ?_, ordered_of_settled hindex horderable hsettled⟩
      have hperm' := hperm.filterMap fun i => targets[i]?
      rwa [filterMap_range] at hperm'
  · have hbyName : indexByName targets 0 [] = .error (.duplicate name) := hbyName
    have horder : orderBuildTargets targets = .error (.duplicate name) := by
      rw [orderBuildTargets, hbyName]
      rfl
    exact .inr ⟨fun h => hdistinct h.distinct, _, horder, fun h => (nomatch h)⟩

/-- Targets are ordered if and only if they can be, and then each once behind its dependencies. -/
theorem orderBuildTargets_ok_iff (targets : List BuildTarget)
    (hnames : ∀ target ∈ targets, target.name ≠ []) :
    ((∃ ordered, orderBuildTargets targets = .ok ordered) ↔ Orderable targets) ∧
      (∀ ordered, orderBuildTargets targets = .ok ordered →
        ordered.Perm targets ∧ Ordered targets ordered) ∧ orderBuildTargets targets ≠ .error .depth := by
  rcases orderBuildTargets_cases hnames with
    ⟨horderable, result, hresult, hperm, hordered⟩ | ⟨hnot, failure, hfailure, hdepth⟩
  · rw [hresult]
    refine ⟨iff_of_true ⟨_, rfl⟩ horderable, fun ordered h => ?_, fun h => (nomatch h)⟩
    cases h
    exact ⟨hperm, hordered⟩
  · rw [hfailure]
    exact ⟨iff_of_false (fun ⟨_, h⟩ => (nomatch h)) hnot, fun _ h => (nomatch h),
      fun h => hdepth (Except.error.inj h)⟩

def plainTarget (name : String) (kind : TargetKind) (dependsOn : List String) : BuildTarget :=
  ⟨name.toList, "main.mla".toList, kind, dependsOn.map String.toList, {}⟩

def application : BuildTarget := plainTarget "app" .executable ["core"]

def core : BuildTarget := plainTarget "core" .staticLibrary []

theorem application_ordered :
    Orderable [application, core] ∧ Ordered [application, core] [core, application] := by
  have h := orderBuildTargets_ok_iff [application, core] (by decide)
  have hordered : orderBuildTargets [application, core] = .ok [core, application] := by decide
  exact ⟨h.1.1 ⟨_, hordered⟩, (h.2.1 _ hordered).2⟩

end Mlang.TargetOrder
