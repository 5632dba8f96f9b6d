import Mlang.CallCycles
import Mlang.TaskSafety

namespace Mlang.TaskDeadlocks

open BracketedText (Text)
open CallCycles TaskSpecs TaskRunner TaskSafety List Option

variable {tasks : List TaskSpec} {hostName root : Text}

section Crossings

variable (tasks hostName)

def Leads (name name' : Text) : Prop := ∃ stage : Stage, name' ∈ stage.names (edgesOf tasks hostName name)

/-- Two branches of a list that one task launches together lead, past the tasks it was called
through, to a task that leads back to itself. -/
def Crossing (root : Text) : Prop :=
  ∃ stack caller, (stack ++ [caller]).head? = some root ∧ (stack ++ [caller]).Nodup ∧
    (stack ++ [caller]).IsChain (Leads tasks hostName) ∧
    (edgesOf tasks hostName caller).parallel = true ∧
    ∃ stage : Stage, ∃ branch ∈ stage.names (edgesOf tasks hostName caller),
      ∃ branch' ∈ stage.names (edgesOf tasks hostName caller), branch ≠ branch' ∧
        ∃ name, Relation.ReflTransGen (LeadsPast (Leads tasks hostName) (stack ++ [caller])) branch name ∧
          Relation.ReflTransGen (LeadsPast (Leads tasks hostName) (stack ++ [caller])) branch' name ∧
          Relation.TransGen (LeadsPast (Leads tasks hostName) (stack ++ [caller])) name name

end Crossings

def path (a : Invocation) : List Text := a.taskStack ++ [a.task]

def isReturned : Point → Bool
  | .returned _ => true
  | _ => false

/-- Invocation `i` cannot return before `j` has: it has called `j`, or it waits for the task that `j` runs. -/
def Needs (s : State) (i j : Nat) : Prop :=
  ∃ a b, s.invocations[i]? = some a ∧ s.invocations[j]? = some b ∧ isReturned b.point = false ∧
    (j ∈ children a.point ∨
      (a.point = .waiting ∧ s.taskStates a.task = .running ∧ owns b.point = true ∧ b.task = a.task))

/-- If invocation `i` is about to wait for a running task, the invocation that runs it does not need `i`. -/
def WaitsApart (s : State) (i : Nat) : Prop :=
  ∀ a, s.invocations[i]? = some a → a.point = .entering → a.task ∉ a.taskStack →
    s.taskStates a.task = .running → ∀ j b, s.invocations[j]? = some b → owns b.point = true →
      b.task = a.task → ¬ Relation.ReflTransGen (Needs s) j i

def ApartSteps (tasks : List TaskSpec) (hostName : Text) (s s' : State) : Prop :=
  ∃ i rc, WaitsApart s i ∧ step tasks hostName s i rc = some s'

def ReachableApart (tasks : List TaskSpec) (hostName root : Text) : State → Prop :=
  Relation.ReflTransGen (ApartSteps tasks hostName) (initial root)

def launches : Point → Bool
  | .launching _ _ _ | .joining _ _ => true
  | .draining _ children => !children.isEmpty
  | _ => false

def resolved : Point → Bool
  | .calling _ _ | .awaiting _ _ _ | .launching _ _ _ | .joining _ _ | .preparing | .commanding _ _
  | .permitting => true
  | _ => false

structure Threads (tasks : List TaskSpec) (hostName root : Text) (s : State) : Prop where
  first : ∀ a ∈ s.invocations, (path a).head? = some root
  chain : ∀ a ∈ s.invocations, (path a).IsChain (Leads tasks hostName)
  nodup : ∀ a ∈ s.invocations, a.taskStack.Nodup
  fresh : ∀ a ∈ s.invocations, a.point = .entering ∨ isReturned a.point = true ∨ a.task ∉ a.taskStack
  caller : ∀ (j : Nat) (b : Invocation), s.invocations[j]? = some b → isReturned b.point = false →
    b.taskStack = [] ∨ ∃ (i : Nat) (a : Invocation), s.invocations[i]? = some a ∧
      path a = b.taskStack ∧ j ∈ children a.point
  callees : ∀ a ∈ s.invocations, ∀ child ∈ children a.point,
    ∃ b, s.invocations[child]? = some b ∧ b.taskStack = path a
  drains : ∀ a ∈ s.invocations, ∀ code children, a.point = .draining code children →
    ∃ stage : Stage, ∀ child ∈ children,
      ∃ name ∈ stage.names (edgesOf tasks hostName a.task), Called s child name
  parallel : ∀ a ∈ s.invocations, launches a.point = true →
    (edgesOf tasks hostName a.task).parallel = true
  held : ∀ t, s.taskStates t = .running → ∃ a ∈ s.invocations, a.task = t ∧ owns a.point = true
  found : ∀ a ∈ s.invocations, resolved a.point = true → findTaskSpec tasks a.task ≠ none

theorem threads_initial : Threads tasks hostName root (initial root) where
  first := by simp [initial, path]
  chain := by simp [initial, path]
  nodup := by simp [initial]
  fresh := by simp [initial]
  caller j b hb _ := by
    cases j with
    | zero => exact .inl (some.inj hb ▸ rfl)
    | succ j => simp [initial] at hb
  callees := by simp [initial, children]
  drains := by simp [initial]
  parallel := by simp [initial, launches]
  held := by simp [initial]
  found := by simp [initial, resolved]

variable {a b : Invocation} {child : Nat} {p : Point} {s : State} {i : Nat} {m : Move}

variable (hI : Invariant tasks hostName s) (hT : Threads tasks hostName root s)
  (ha : s.invocations[i]? = some a)
  (hm : Moves tasks hostName s.invocations s.taskStates a.task a.taskStack a.point m)

include hm in
theorem not_returned : isReturned a.point = false := by
  generalize hp : a.point = p at hm
  cases hm with
  | decline h => rcases h with rfl | rfl <;> rfl
  | start _ h => rcases h with ⟨rfl, -⟩ | ⟨rfl, -⟩ <;> rfl
  | finish h => rcases h with rfl | rfl <;> rfl
  | abandon _ h => rcases h with ⟨rest, rfl, -⟩ | rfl <;> rfl
  | fail h =>
    cases p with
    | returned => cases h
    | _ => rfl
  | enter | acquire | call | resume | launch | launched | join | prepare | command | permit
  | complete | drain | drained | release => rfl

variable {j : Nat}

include hm in
theorem children_cases (h : child ∈ children a.point) :
    child ∈ children m.point ∨ (returnedCode s.invocations child).isSome = true := by
  generalize hp : a.point = p at hm
  rw [hp] at h
  cases hm with
  | decline hp => rcases hp with rfl | rfl <;> cases h
  | start _ hp => rcases hp with ⟨rfl, -⟩ | ⟨rfl, -⟩ <;> cases h
  | finish hp => rcases hp with rfl | rfl <;> cases h
  | resume hcode =>
    obtain rfl := mem_singleton.1 h
    exact .inr (hcode ▸ rfl)
  | launch => exact .inl (mem_append_left _ h)
  | launched => exact .inl h
  | join hcode =>
    rcases mem_cons.1 h with rfl | h
    · exact .inr (hcode ▸ rfl)
    · exact .inl h
  | @abandon p stage child' children' hcode hp =>
    rcases hp with ⟨rest, rfl, rfl⟩ | rfl
    · obtain rfl := mem_singleton.1 h
      exact .inr hcode
    · rcases mem_cons.1 h with rfl | h
      · exact .inr hcode
      · cases stage <;> exact .inl ‹_›
  | drain hcode =>
    rcases mem_cons.1 h with rfl | h
    · exact .inr hcode
    · exact .inl h
  | fail _ _ hchildren => rw [hchildren] at h; cases h
  | enter | acquire | call | prepare | command | permit | complete | drained | release => cases h

include hm in
theorem children_subset (h : child ∈ children m.point) :
    child ∈ children a.point ∨ ∃ name, m.calls = some name ∧ child = s.invocations.length := by
  generalize hp : a.point = p at hm
  cases hm with
  | start => unfold beginStage at h; split_ifs at h <;> cases h
  | call => exact .inr ⟨_, rfl, mem_singleton.1 h⟩
  | launch =>
    rcases mem_append.1 h with h | h
    · exact .inl h
    · exact .inr ⟨_, rfl, mem_singleton.1 h⟩
  | launched => exact .inl h
  | join | drain => exact .inl (mem_cons_of_mem _ h)
  | @finish p stage => cases stage <;> cases h
  | @abandon p stage child' children' _ hp =>
    have hchild : child ∈ children' := by cases stage <;> exact h
    rcases hp with ⟨rest, rfl, rfl⟩ | rfl
    · cases hchild
    · exact .inl (mem_cons_of_mem _ hchild)
  | enter | decline | acquire | resume | prepare | command | permit | fail | complete | drained
  | release => cases h

include hI ha hm in
theorem calls_cases {name : Text} (hcalls : m.calls = some name) :
    owns a.point = true ∧ settled a.point = false ∧
      s.invocations.length ∈ children m.point ∧ Leads tasks hostName a.task name := by
  have hupheld := hI.upheld a (mem_of_getElem? ha)
  have hleads : ∀ stage called rest, outstanding a.point = some (stage, called, name :: rest) →
      Leads tasks hostName a.task name := by
    intro stage called rest hout
    obtain ⟨done, called, hnames, -⟩ := hupheld stage called _ hout
    exact ⟨stage, hnames ▸ mem_append_right _ mem_cons_self⟩
  generalize hp : a.point = p at hm
  rw [hp] at hleads
  cases hm with
  | call =>
    cases hcalls
    exact ⟨rfl, rfl, mem_singleton_self _, hleads _ _ _ rfl⟩
  | launch =>
    cases hcalls
    exact ⟨rfl, rfl, mem_append_right _ (mem_singleton_self _), hleads _ _ _ rfl⟩
  | @abandon p stage => cases stage <;> cases hcalls
  | enter | decline | acquire | start | resume | launched | join | finish | prepare | command
  | permit | fail | complete | drain | drained | release => cases hcalls

include hm in
theorem fresh_cases (hfresh : a.point = .entering ∨ isReturned a.point = true ∨ a.task ∉ a.taskStack) :
    m.point = .entering ∨ isReturned m.point = true ∨ a.task ∉ a.taskStack := by
  have hreturned := not_returned hm
  rcases hfresh with hp | hp | h
  · rw [hp] at hm
    cases hm with
    | enter h => exact .inr (.inr h)
    | decline => exact .inr (.inl rfl)
    | start _ h => rcases h with ⟨h, -⟩ | ⟨h, -⟩ <;> cases h
    | finish h => rcases h with h | h <;> cases h
    | fail h => cases h
    | abandon _ h => rcases h with ⟨rest, h, -⟩ | h <;> cases h
  · rw [hreturned] at hp; cases hp
  · exact .inr (.inr h)

include hm in
theorem launches_cases (hlaunches : launches m.point = true) :
    launches a.point = true ∨ (edgesOf tasks hostName a.task).parallel = true := by
  generalize hp : a.point = p at hm
  cases hm with
  | start _ h =>
    unfold beginStage at hlaunches
    split_ifs at hlaunches with hparallel
    · exact .inr hparallel.1
    · cases hlaunches
  | @finish p stage => cases stage <;> cases hlaunches
  | @abandon p stage child children _ h =>
    rcases h with ⟨rest, rfl, rfl⟩ | rfl
    · cases stage <;> cases hlaunches
    · exact .inl rfl
  | launch | launched | join | drain => exact .inl rfl
  | enter | decline | acquire | call | resume | prepare | command | permit | fail | complete
  | drained | release => cases hlaunches

include hm in
theorem resolved_cases (hresolved : resolved m.point = true) :
    resolved a.point = true ∨ findTaskSpec tasks a.task ≠ none := by
  generalize hp : a.point = p at hm
  cases hm with
  | start h => exact .inr h
  | @finish p stage h => rcases h with rfl | rfl <;> exact .inl rfl
  | @abandon p stage => cases stage <;> cases hresolved
  | call | resume | launch | launched | join | prepare | command | permit => exact .inl rfl
  | enter | decline | acquire | fail | complete | drain | drained | release => cases hresolved

include hI hT ha hm in
theorem drains_cases {code : Int} {called : List Nat} (hpoint : m.point = .draining code called) :
    ∃ stage : Stage, ∀ child ∈ called,
      ∃ name ∈ stage.names (edgesOf tasks hostName a.task), Called s child name := by
  have hmem := mem_of_getElem? ha
  have hupheld := hI.upheld a hmem
  have hdrains := hT.drains a hmem
  generalize hp : a.point = p at hm
  rw [hp] at hupheld hdrains
  cases hm with
  | start => unfold beginStage at hpoint; split_ifs at hpoint
  | @finish p stage => cases stage <;> cases hpoint
  | @abandon p stage child children _ h =>
    have hcalled : called = children := by cases stage <;> cases hpoint <;> rfl
    subst hcalled
    rcases h with ⟨rest, rfl, rfl⟩ | rfl
    · exact ⟨stage, fun child hchild => nomatch hchild⟩
    · exact ⟨stage, fun child hchild =>
        (hupheld _ _ _ rfl).called (mem_cons_of_mem _ hchild)⟩
  | drain =>
    obtain ⟨rfl, rfl⟩ := Point.draining.inj hpoint
    obtain ⟨stage, h⟩ := hdrains _ _ rfl
    exact ⟨stage, fun child hchild => h child (mem_cons_of_mem _ hchild)⟩
  | enter | decline | acquire | call | resume | launch | launched | join | prepare | command
  | permit | fail | complete | drained | release => cases hpoint

theorem path_perform (ha : s.invocations[i]? = some a) (hb : (perform s i a m).invocations[j]? = some b) :
    (∃ c ∈ s.invocations, path c = path b ∧ c.task = b.task ∧ c.taskStack = b.taskStack) ∨ ∃ name,
    m.calls = some name ∧ b = ⟨name, path a, .entering⟩ := by
  rcases get_perform ha hb with ⟨rfl, rfl⟩ | ⟨-, hb'⟩ | ⟨-, name, hcalls, rfl⟩
  · exact .inl ⟨a, mem_of_getElem? ha, rfl, rfl, rfl⟩
  · exact .inl ⟨b, mem_of_getElem? hb', rfl, rfl, rfl⟩
  · exact .inr ⟨name, hcalls, rfl⟩

include hI hT ha hm in
theorem caller_perform (hb : (perform s i a m).invocations[j]? = some b)
    (hreturned : isReturned b.point = false) : b.taskStack = [] ∨ ∃ (k : Nat) (c : Invocation),
    (perform s i a m).invocations[k]? = some c ∧ path c = b.taskStack ∧ j ∈ children c.point := by
  have hold : ∀ (b' : Invocation), s.invocations[j]? = some b' → isReturned b'.point = false →
      b'.taskStack = [] ∨ ∃ (k : Nat) (c : Invocation), (perform s i a m).invocations[k]? = some c ∧
        path c = b'.taskStack ∧ j ∈ children c.point := by
    intro b' hb' hunreturned
    rcases hT.caller j b' hb' hunreturned with h | ⟨k, c, hc, hpath, hchild⟩
    · exact .inl h
    · refine .inr ?_
      by_cases hk : k = i
      · subst hk
        obtain rfl := some.inj (hc.symm.trans ha)
        rcases children_cases hm hchild with hchild | hcode
        · exact ⟨k, _, perform_get_self hc, hpath, hchild⟩
        · rw [returnedCode, hb'] at hcode
          split at hcode
          · rename_i heq
            cases heq
            cases hunreturned
          · cases hcode
      · exact ⟨k, c, perform_get_ne hc hk, hpath, hchild⟩
  rcases get_perform ha hb with ⟨rfl, rfl⟩ | ⟨-, hb'⟩ | ⟨rfl, name, hcalls, rfl⟩
  · exact hold a ha (not_returned hm)
  · exact hold b hb' hreturned
  · obtain ⟨-, -, hchild, -⟩ := calls_cases hI ha hm hcalls
    exact .inr ⟨i, _, perform_get_self ha, rfl, hchild⟩

include hI hT ha hm in
theorem held_perform {t : Text} (ht : (perform s i a m).taskStates t = .running) :
    ∃ b ∈ (perform s i a m).invocations, b.task = t ∧ owns b.point = true := by
  have hself := mem_of_getElem? (perform_get_self ha (m := m))
  have hkeep : ∀ (j : Nat) (b : Invocation), s.invocations[j]? = some b → j ≠ i →
      b ∈ (perform s i a m).invocations := fun j b hb hne =>
    mem_of_getElem? (perform_get_ne hb hne)
  rw [perform_taskStates] at ht
  have hrunning : t ≠ a.task ∨ m.marks = none → s.taskStates t = .running := by
    rintro (h | h)
    · rwa [if_neg h] at ht
    · rw [h] at ht
      simpa using ht
  by_cases htask : t = a.task
  · subst htask
    rw [if_pos rfl] at ht
    cases hmarks : m.marks with
    | none =>
      obtain ⟨b, hb, hbt, howns⟩ := hT.held _ (hrunning (.inr hmarks))
      obtain ⟨j, hj⟩ := mem_iff_getElem?.1 hb
      by_cases hne : j = i
      · subst hne
        obtain rfl := some.inj (hj.symm.trans ha)
        refine ⟨_, hself, rfl, ?_⟩
        have hstatus := hrunning (.inr hmarks)
        generalize hp : b.point = p at hm
        rw [hp] at howns
        cases hm with
        | enter | acquire => cases howns
        | decline h => rcases h with rfl | rfl <;> cases howns
        | release => rw [if_pos hstatus] at hmarks; cases hmarks
        | start =>
          unfold beginStage
          split_ifs <;> rfl
        | @finish p stage | @abandon p stage => cases stage <;> rfl
        | call | resume | launch | launched | join | prepare | command | permit | fail | complete
        | drain | drained => rfl
      · exact ⟨b, hkeep j b hj hne, hbt, howns⟩
    | some status =>
      rw [hmarks] at ht
      obtain rfl : status = .running := ht
      rcases marks_cases hI ha hm hmarks with ⟨-, -⟩ | ⟨-, -, h | h⟩
      · refine ⟨_, hself, rfl, ?_⟩
        generalize hp : a.point = p at hm
        cases hm with
        | acquire => rfl
        | fail _ _ _ _ h => rcases h with rfl | rfl <;> cases hmarks
        | @abandon p stage => cases stage <;> cases hmarks
        | release => dsimp only at hmarks; split_ifs at hmarks; cases hmarks
        | enter | decline | start | call | resume | launch | launched | join | finish | prepare
        | command | permit | complete | drain | drained => cases hmarks
      · cases h
      · cases h
  · obtain ⟨b, hb, hbt, howns⟩ := hT.held t (hrunning (.inl htask))
    obtain ⟨j, hj⟩ := mem_iff_getElem?.1 hb
    refine ⟨b, hkeep j b hj ?_, hbt, howns⟩
    rintro rfl
    obtain rfl := some.inj (hj.symm.trans ha)
    exact htask hbt.symm

theorem isReturned_of_owns (h : owns p = true) : isReturned p = false := by
  cases p with
  | returned => cases h
  | _ => rfl

theorem nodup_path (hT : Threads tasks hostName root s) (hb : b ∈ s.invocations)
    (hreturned : isReturned b.point = false) (hentering : b.point ≠ .entering) : (path b).Nodup := by
  have hfresh : b.task ∉ b.taskStack := by
    rcases hT.fresh b hb with h | h | h
    · exact absurd h hentering
    · rw [hreturned] at h; cases h
    · exact h
  rw [path, nodup_append]
  refine ⟨hT.nodup b hb, by simp, fun x hx y hy hxy => ?_⟩
  obtain rfl := mem_singleton.1 hy
  exact hfresh (hxy ▸ hx)

theorem nodup_path_of_owns (hT : Threads tasks hostName root s) (hb : b ∈ s.invocations)
    (howns : owns b.point = true) : (path b).Nodup :=
  nodup_path hT hb (isReturned_of_owns howns) fun h => by rw [h] at howns; cases howns

include hI hT ha hm in
theorem threads_perform : Threads tasks hostName root (perform s i a m) where
  first b hb := by
    obtain ⟨j, hj⟩ := mem_iff_getElem?.1 hb
    rcases path_perform ha hj with ⟨c, hc, hpath, -⟩ | ⟨name, -, rfl⟩
    · exact hpath ▸ hT.first c hc
    · have hfirst := hT.first a (mem_of_getElem? ha)
      have hne : path a ≠ [] := append_ne_nil_of_right_ne_nil _ (cons_ne_nil _ _)
      rwa [path, head?_append_of_ne_nil _ hne]
  chain b hb := by
    obtain ⟨j, hj⟩ := mem_iff_getElem?.1 hb
    rcases path_perform ha hj with ⟨c, hc, hpath, -⟩ | ⟨name, hcalls, rfl⟩
    · exact hpath ▸ hT.chain c hc
    · obtain ⟨-, -, -, hleads⟩ := calls_cases hI ha hm hcalls
      refine (hT.chain a (mem_of_getElem? ha)).append (isChain_singleton _) ?_
      intro x hx y hy
      obtain rfl : a.task = x := by simpa [path] using hx
      obtain rfl : name = y := by simpa using hy
      exact hleads
  nodup b hb := by
    obtain ⟨j, hj⟩ := mem_iff_getElem?.1 hb
    rcases path_perform ha hj with ⟨c, hc, -, -, hstack⟩ | ⟨name, hcalls, rfl⟩
    · exact hstack ▸ hT.nodup c hc
    · obtain ⟨howns, -⟩ := calls_cases hI ha hm hcalls
      exact nodup_path_of_owns hT (mem_of_getElem? ha) howns
  fresh b hb := by
    obtain ⟨j, hj⟩ := mem_iff_getElem?.1 hb
    rcases get_perform ha hj with ⟨rfl, rfl⟩ | ⟨-, hb'⟩ | ⟨-, name, -, rfl⟩
    · have hfresh := fresh_cases hm (hT.fresh a (mem_of_getElem? ha))
      exact hfresh
    · exact hT.fresh b (mem_of_getElem? hb')
    · exact .inl rfl
  caller j b hb hreturned := caller_perform hI hT ha hm hb hreturned
  callees b hb child hchild := by
    have hkeep : ∀ (c : Invocation), (∃ d, s.invocations[child]? = some d ∧ d.taskStack = path c) →
        ∃ d, (perform s i a m).invocations[child]? = some d ∧ d.taskStack = path c := by
      rintro c ⟨d, hd, hstack⟩
      by_cases hchild : child = i
      · subst hchild
        obtain rfl := some.inj (hd.symm.trans ha)
        exact ⟨_, perform_get_self hd, hstack⟩
      · exact ⟨d, perform_get_ne hd hchild, hstack⟩
    obtain ⟨j, hj⟩ := mem_iff_getElem?.1 hb
    rcases get_perform ha hj with ⟨rfl, rfl⟩ | ⟨-, hb'⟩ | ⟨-, name, -, rfl⟩
    · rcases children_subset hm hchild with hchild | ⟨name, hcalls, rfl⟩
      · exact hkeep a (hT.callees a (mem_of_getElem? ha) child hchild)
      · exact ⟨_, perform_get_new hcalls, rfl⟩
    · exact hkeep b (hT.callees b (mem_of_getElem? hb') child hchild)
    · cases hchild
  drains b hb code called hpoint := by
    obtain ⟨j, hj⟩ := mem_iff_getElem?.1 hb
    have hkeep : ∀ (c : Invocation), (∃ stage : Stage, ∀ child ∈ called,
        ∃ name ∈ stage.names (edgesOf tasks hostName c.task), Called s child name) →
        ∃ stage : Stage, ∀ child ∈ called, ∃ name ∈ stage.names (edgesOf tasks hostName c.task),
          Called (perform s i a m) child name := by
      rintro c ⟨stage, h⟩
      refine ⟨stage, fun child hchild => ?_⟩
      obtain ⟨name, hname, hcalled⟩ := h child hchild
      exact ⟨name, hname, called_perform ha hcalled⟩
    rcases get_perform ha hj with ⟨rfl, rfl⟩ | ⟨-, hb'⟩ | ⟨-, name, -, rfl⟩
    · exact hkeep a (drains_cases hI hT ha hm hpoint)
    · exact hkeep b (hT.drains b (mem_of_getElem? hb') code called hpoint)
    · cases hpoint
  parallel b hb hlaunches := by
    obtain ⟨j, hj⟩ := mem_iff_getElem?.1 hb
    rcases get_perform ha hj with ⟨rfl, rfl⟩ | ⟨-, hb'⟩ | ⟨-, name, -, rfl⟩
    · exact (launches_cases hm hlaunches).elim (hT.parallel a (mem_of_getElem? ha)) id
    · exact hT.parallel b (mem_of_getElem? hb') hlaunches
    · cases hlaunches
  held _ ht := held_perform hI hT ha hm ht
  found b hb hresolved := by
    obtain ⟨j, hj⟩ := mem_iff_getElem?.1 hb
    rcases get_perform ha hj with ⟨rfl, rfl⟩ | ⟨-, hb'⟩ | ⟨-, name, -, rfl⟩
    · exact (resolved_cases hm hresolved).elim (hT.found a (mem_of_getElem? ha)) id
    · exact hT.found b (mem_of_getElem? hb') hresolved
    · cases hresolved

theorem threads_reachable (h : Reachable tasks hostName root s) : Threads tasks hostName root s := by
  induction h with
  | refl => exact threads_initial
  | tail hs h ih =>
    obtain ⟨i, rc, h⟩ := h
    obtain ⟨a, m, ha, hm, rfl⟩ := step_eq_some h
    exact threads_perform (invariant_reachable hs) ih ha hm

def awaited : Point → Option Nat
  | .awaiting _ child _ | .joining _ (child :: _) | .draining _ (child :: _) => some child
  | _ => none

theorem blocked_cases (hfound : resolved a.point = true → findTaskSpec tasks a.task ≠ none)
    (hblocked : move tasks hostName s.invocations s.taskStates a 0 = none)
    (hreturned : isReturned a.point = false) : (a.point = .waiting ∧ s.taskStates a.task = .running) ∨
    ∃ child, awaited a.point = some child ∧ returnedCode s.invocations child = none := by
  unfold move at hblocked
  split at hblocked
  case h_2 hp =>
    split at hblocked
    case h_1 hstatus => exact .inl ⟨hp, hstatus⟩
    all_goals cases hblocked
  case h_3 hp =>
    split at hblocked
    all_goals cases hblocked
  case h_6 hp | h_10 hp | h_17 hp =>
    exact .inr ⟨_, by rw [hp]; rfl, map_eq_none_iff.1 hblocked⟩
  case h_11 hp | h_14 hp =>
    exact absurd (map_eq_none_iff.1 hblocked) (hfound (by rw [hp]; rfl))
  case h_19 hp => rw [hp] at hreturned; cases hreturned
  all_goals cases hblocked

variable {stack : List Text}

theorem awaited_mem (h : awaited p = some child) : child ∈ children p := by
  unfold awaited at h
  split at h
  case h_4 => cases h
  all_goals
    cases h
    exact mem_cons_self

theorem owns_of_children (h : child ∈ children p) : owns p = true := by
  cases p with
  | awaiting | launching | joining | draining => rfl
  | _ => cases h

theorem exists_needs (hT : Threads tasks hostName root s) (ha : s.invocations[i]? = some a)
    (hreturned : isReturned a.point = false)
    (hblocked : move tasks hostName s.invocations s.taskStates a 0 = none) : ∃ j, Needs s i j := by
  have hmem := mem_of_getElem? ha
  rcases blocked_cases (hT.found a hmem) hblocked hreturned with ⟨hp, hstatus⟩ | ⟨child, hchild, hcode⟩
  · obtain ⟨b, hb, htask, howns⟩ := hT.held _ hstatus
    obtain ⟨j, hj⟩ := mem_iff_getElem?.1 hb
    exact ⟨j, a, b, ha, hj, isReturned_of_owns howns, .inr ⟨hp, hstatus, howns, htask⟩⟩
  · have hchildren := awaited_mem hchild
    obtain ⟨b, hb, -⟩ := hT.callees a hmem child hchildren
    refine ⟨child, a, b, ha, hb, ?_, .inl hchildren⟩
    obtain ⟨task, taskStack, point⟩ := b
    cases point with
    | returned code => simp [returnedCode, hb] at hcode
    | _ => rfl

/-- What keeps an invocation from returning. -/
def BlockedBy (a b : Invocation) : Prop :=
  (owns a.point = true ∧ b.taskStack = path a) ∨
    (a.point = .waiting ∧ owns b.point = true ∧ b.task = a.task)

theorem blockedBy_of_needs (hT : Threads tasks hostName root s) (h : Needs s i j)
    (ha : s.invocations[i]? = some a) (hb : s.invocations[j]? = some b) :
    BlockedBy a b ∧ isReturned b.point = false := by
  obtain ⟨a', b', ha', hb', hreturned, hneeds⟩ := h
  obtain rfl := some.inj (ha.symm.trans ha')
  obtain rfl := some.inj (hb.symm.trans hb')
  refine ⟨?_, hreturned⟩
  rcases hneeds with hchild | ⟨hp, -, howns, htask⟩
  · obtain ⟨c, hc, hstack⟩ := hT.callees a (mem_of_getElem? ha) j hchild
    obtain rfl := some.inj (hb.symm.trans hc)
    exact .inl ⟨owns_of_children hchild, hstack⟩
  · exact .inr ⟨hp, howns, htask⟩

theorem exists_onStack (hT : Threads tasks hostName root s) {call : Text} : ∀ {j : Nat} {b : Invocation},
    s.invocations[j]? = some b → isReturned b.point = false → stack ++ [call] <+: path b →
    ∃ (i : Nat) (a : Invocation), s.invocations[i]? = some a ∧ a.taskStack = stack ∧ a.task = call ∧
    isReturned a.point = false := by
  have hgeneral : ∀ (n j : Nat) (b : Invocation), b.taskStack.length = n →
      s.invocations[j]? = some b → isReturned b.point = false → stack ++ [call] <+: path b →
        ∃ (i : Nat) (a : Invocation), s.invocations[i]? = some a ∧ a.taskStack = stack ∧
          a.task = call ∧ isReturned a.point = false := by
    intro n
    induction n with
    | zero =>
      intro j b hn hb hreturned hstarts
      have hnil := length_eq_zero_iff.1 hn
      have heq : stack ++ [call] = path b := hstarts.eq_of_length_le (by simp [path, hnil])
      obtain ⟨hstack, hcall⟩ := append_inj' heq rfl
      exact ⟨j, b, hb, hstack.symm, (singleton_inj.1 hcall).symm, hreturned⟩
    | succ n ih =>
      intro j b hn hb hreturned hstarts
      by_cases hends : b.taskStack = stack
      · have heq : stack ++ [call] = path b := hstarts.eq_of_length (by simp [path, hends])
        obtain ⟨hstack, hcall⟩ := append_inj' heq rfl
        exact ⟨j, b, hb, hstack.symm, (singleton_inj.1 hcall).symm, hreturned⟩
      · have hlonger : stack ++ [call] <+: b.taskStack := by
          refine branch_of_ne ?_ hstarts hends
          have hle := hstarts.length_le
          refine prefix_of_prefix_length_le ((prefix_append _ _).trans hstarts)
            (prefix_append _ _) ?_
          simpa [path] using hle
        rcases hT.caller j b hb hreturned with hnil | ⟨i, a, ha, hpath, hchild⟩
        · rw [hnil] at hn; cases hn
        · have hlen := congrArg List.length hpath
          rw [path, length_append, length_singleton, hn] at hlen
          refine ih i a (by omega) ha ?_ (hpath ▸ hlonger)
          cases hp : a.point with
          | returned code => rw [hp] at hchild; cases hchild
          | _ => rfl
  exact fun {j b} hb hreturned hstarts => hgeneral _ j b rfl hb hreturned hstarts

theorem exists_family (hI : Invariant tasks hostName s) (hT : Threads tasks hostName root s)
    (ha : a ∈ s.invocations) : ∃ stage : Stage, ∀ child ∈ children a.point,
    ∃ name ∈ stage.names (edgesOf tasks hostName a.task), Called s child name := by
  have hupheld := hI.upheld a ha
  have hdrains := hT.drains a ha
  cases hp : a.point with
  | awaiting stage | launching stage | joining stage =>
    rw [hp] at hupheld
    exact ⟨stage, fun child hchild => (hupheld _ _ _ rfl).called hchild⟩
  | draining code called => exact hdrains code called hp
  | _ => exact ⟨.dependsOn, fun child hchild => nomatch hchild⟩

theorem launches_of_ne {child' : Nat} (h : child ∈ children p) (h' : child' ∈ children p)
    (hne : child ≠ child') : launches p = true := by
  cases p with
  | awaiting stage only =>
    exact absurd ((mem_singleton.1 h).trans (mem_singleton.1 h').symm) hne
  | launching | joining => rfl
  | draining code called =>
    cases called with
    | nil => cases h
    | cons => rfl
  | _ => cases h

theorem branches_launched (hI : Invariant tasks hostName s) (hT : Threads tasks hostName root s) {j j' : Nat}
    {b' : Invocation} (hb : s.invocations[j]? = some b) (hb' : s.invocations[j']? = some b')
    (hreturned : isReturned b.point = false) (hreturned' : isReturned b'.point = false) {caller : Text}
    (hstack : b.taskStack = stack ++ [caller]) (hstack' : b'.taskStack = stack ++ [caller])
    (hne : b.task ≠ b'.task) : (stack ++ [caller]).Nodup ∧ (stack ++ [caller]).head? = some root ∧
    (stack ++ [caller]).IsChain (Leads tasks hostName) ∧ (edgesOf tasks hostName caller).parallel = true ∧
    ∃ stage : Stage, b.task ∈ stage.names (edgesOf tasks hostName caller) ∧
    b'.task ∈ stage.names (edgesOf tasks hostName caller) := by
  have hcaller : ∀ (k : Nat) (c : Invocation), s.invocations[k]? = some c →
      isReturned c.point = false → c.taskStack = stack ++ [caller] →
        ∃ (i : Nat) (a : Invocation), s.invocations[i]? = some a ∧ path a = stack ++ [caller] ∧
          a.task = caller ∧ k ∈ children a.point ∧ owns a.point = true := by
    intro k c hc hunreturned hstacked
    rcases hT.caller k c hc hunreturned with h | ⟨i, a, ha, hpath, hchild⟩
    · rw [hstacked] at h
      exact absurd h (append_ne_nil_of_right_ne_nil _ (cons_ne_nil _ _))
    · have heq := hpath.trans hstacked
      refine ⟨i, a, ha, heq, (singleton_inj.1 (append_inj' heq rfl).2), hchild, ?_⟩
      cases hp : a.point with
      | awaiting | launching | joining | draining => rfl
      | _ => rw [hp] at hchild; cases hchild
  obtain ⟨i, a, ha, hpath, rfl, hchild, howns⟩ := hcaller j b hb hreturned hstack
  obtain ⟨i', a', ha', -, htask, hchild', howns'⟩ := hcaller j' b' hb' hreturned' hstack'
  obtain rfl := hI.owner i' i a' a ha' ha htask howns' howns
  obtain rfl := some.inj (ha.symm.trans ha')
  have hmem := mem_of_getElem? ha
  have hdistinct : j ≠ j' := by
    rintro rfl
    exact hne (congrArg Invocation.task (some.inj (hb.symm.trans hb')))
  obtain ⟨stage, hfamily⟩ := exists_family hI hT hmem
  have hname : ∀ (k : Nat) (c : Invocation), s.invocations[k]? = some c → k ∈ children a.point →
      c.task ∈ stage.names (edgesOf tasks hostName a.task) := by
    intro k c hc hk
    obtain ⟨name, hname, d, hd, rfl⟩ := hfamily k hk
    exact some.inj (hc.symm.trans hd) ▸ hname
  rw [← hpath]
  exact ⟨nodup_path_of_owns hT hmem howns, hT.first a hmem, hT.chain a hmem,
    hT.parallel a hmem (launches_of_ne hchild hchild' hdistinct), stage, hname j b hb hchild,
    hname j' b' hb' hchild'⟩

theorem crossing_of_cycle (hI : Invariant tasks hostName s) (hT : Threads tasks hostName root s)
    (hcycle : Relation.TransGen (Needs s) i i) : Crossing tasks hostName root := by
  let OnCycle := { k : Fin s.invocations.length //
    Relation.ReflTransGen (Needs s) i k ∧ Relation.ReflTransGen (Needs s) k i }
  let inv : OnCycle → Invocation := fun b => s.invocations.get b.1
  have hget : ∀ b, s.invocations[(b : OnCycle).1.1]? = some (inv b) := fun b => getElem?_eq_getElem b.1.2
  have hinv : ∀ b, inv b ∈ s.invocations := fun b => get_mem _ _
  have hnext : ∀ b : OnCycle, ∃ c : OnCycle, Needs s b.1 c.1 := by
    rintro ⟨k, hik, hki⟩
    obtain ⟨c, hc, hci⟩ : ∃ c, Needs s k c ∧ Relation.ReflTransGen (Needs s) c i := by
      rcases Relation.ReflTransGen.cases_head hki with hk | h
      · rw [hk]
        exact Relation.TransGen.head'_iff.1 hcycle
      · exact h
    obtain ⟨-, b, -, hb, -⟩ := id hc
    exact ⟨⟨⟨c, (List.getElem?_eq_some_iff.1 hb).1⟩, hik.tail hc, hci⟩, hc⟩
  obtain ⟨first, hfirst, -⟩ := Relation.TransGen.head'_iff.1 hcycle
  obtain ⟨a, -, ha, -⟩ := id hfirst
  obtain ⟨member, period, hperiod, hback, hneeds⟩ :=
    exists_periodic hnext ⟨⟨i, (List.getElem?_eq_some_iff.1 ha).1⟩, .refl, .refl⟩
  have hby : ∀ n, BlockedBy (inv (member n)) (inv (member (n + 1))) := fun n =>
    (blockedBy_of_needs hT (hneeds n) (hget _) (hget _)).1
  have hunfinished : ∀ n, isReturned (inv (member n)).point = false := by
    intro n
    have hlast := (blockedBy_of_needs hT (hneeds (n + period - 1)) (hget _) (hget _)).2
    rwa [Nat.sub_add_cancel (by omega), hback] at hlast
  have hentering : ∀ n, (inv (member n)).point ≠ .entering := by
    intro n hp
    rcases hby n with ⟨h, -⟩ | ⟨h, -⟩ <;> rw [hp] at h <;> cases h
  have hwaiting : ∀ b : Invocation, owns b.point = true → b.point ≠ .waiting := by
    intro b howns hp
    rw [hp] at howns
    cases howns
  have hstep : ∀ n, (¬ (inv (member n)).point = .waiting ∧
      (inv (member (n + 1))).taskStack = (inv (member n)).taskStack ++ [(inv (member n)).task]) ∨
      ((inv (member n)).point = .waiting ∧ ¬ (inv (member (n + 1))).point = .waiting ∧
        (inv (member (n + 1))).task = (inv (member n)).task) := by
    intro n
    rcases hby n with ⟨howns, hstack⟩ | ⟨hp, howns, htask⟩
    · exact .inl ⟨hwaiting _ howns, hstack⟩
    · exact .inr ⟨hp, hwaiting _ howns, htask⟩
  obtain ⟨n, past, branch, branch', hpast, hbranches, -, hbranch, hbranch', -, hleads, hleads',
    hcycle⟩ := exists_crossing hperiod (fun n => congrArg (fun b => (inv b).taskStack) (hback n))
      (fun n => congrArg (fun b => (inv b).task) (hback n))
      (fun n => iff_of_eq (congrArg (fun b => (inv b).point = .waiting) (hback n))) hstep
      (fun n => nodup_path hT (hinv _) (hunfinished n) (hentering n))
      (fun n => hT.chain _ (hinv (member n))) (fun n => hT.first _ (hinv (member n)))
  obtain ⟨i, hi⟩ := mem_iff_getElem?.1 (hinv (member n))
  obtain ⟨i', hi'⟩ := mem_iff_getElem?.1 (hinv (member (n + 1)))
  obtain ⟨j, b, hb, hstack, rfl, hbreturned⟩ := exists_onStack hT hi (hunfinished n) hbranch
  obtain ⟨j', b', hb', hstack', rfl, hbreturned'⟩ := exists_onStack hT hi' (hunfinished (n + 1)) hbranch'
  obtain ⟨stack, caller, rfl⟩ := (eq_nil_or_concat' past).resolve_left hpast
  obtain ⟨hnodup, hfirst, hchain, hparallel, stage, hmem, hmem'⟩ :=
    branches_launched hI hT hb hb' hbreturned hbreturned' hstack hstack' hbranches
  exact ⟨stack, caller, hfirst, hnodup, hchain, hparallel, stage, b.task, hmem, b'.task, hmem',
    hbranches, _, hleads, hleads', hcycle⟩

section Runs

open Relation

include hm in
theorem point_of_waiting (hpoint : m.point = .waiting) :
    a.point = .entering ∧ a.task ∉ a.taskStack ∧ m.marks = none ∧ m.calls = none := by
  generalize hp : a.point = p at hm
  cases hm with
  | enter h => exact ⟨rfl, h, rfl, rfl⟩
  | start => unfold beginStage at hpoint; split_ifs at hpoint
  | @finish p stage | @abandon p stage => cases stage <;> cases hpoint
  | decline | acquire | call | resume | launch | launched | join | prepare | command | permit | fail
  | complete | drain | drained | release => cases hpoint

include hm in
theorem point_of_acquired (hmarks : m.marks = some .running) : m.point = .resolving := by
  generalize hp : a.point = p at hm
  cases hm with
  | acquire => rfl
  | fail _ _ _ _ h => rcases h with rfl | rfl <;> cases hmarks
  | @abandon p stage => cases stage <;> cases hmarks
  | release => dsimp only at hmarks; split_ifs at hmarks; cases hmarks
  | enter | decline | start | call | resume | launch | launched | join | finish | prepare | command
  | permit | complete | drain | drained => cases hmarks

/-- What an invocation needs after a step it has needed before, but for a new call, for a task that has just
been taken and for the task that the step comes to. -/
theorem needs_perform (hI : Invariant tasks hostName s) (hT : Threads tasks hostName root s)
    (ha : s.invocations[i]? = some a)
    (hm : Moves tasks hostName s.invocations s.taskStates a.task a.taskStack a.point m) {k l : Nat}
    (h : Needs (perform s i a m) k l) :
    Needs s k l ∨ (∃ name, m.calls = some name ∧ l = s.invocations.length) ∨
      (m.marks = some .running ∧ l = i) ∨
      (m.point = .waiting ∧ k = i ∧ s.taskStates a.task = .running ∧
        ∃ b, s.invocations[l]? = some b ∧ owns b.point = true ∧ b.task = a.task) := by
  obtain ⟨a', b', ha', hb', hreturned, hneeds⟩ := h
  have htarget : ∀ {c : Invocation}, s.invocations[k]? = some c → l ∈ children c.point → Needs s k l := by
    intro c hc hchild
    obtain ⟨b, hb, -⟩ := hT.callees c (mem_of_getElem? hc) l hchild
    refine ⟨c, b, hc, hb, ?_, .inl hchild⟩
    rcases get_perform ha hb' with ⟨rfl, -⟩ | ⟨-, hold⟩ | ⟨rfl, -⟩
    · obtain rfl := some.inj (ha.symm.trans hb)
      exact not_returned hm
    · obtain rfl := some.inj (hold.symm.trans hb)
      exact hreturned
    · exact absurd (List.getElem?_eq_some_iff.1 hb).1 (Nat.lt_irrefl _)
  rcases hneeds with hchild | ⟨hpoint, hstatus, howns, htask⟩
  · rcases get_perform ha ha' with ⟨rfl, rfl⟩ | ⟨-, hold⟩ | ⟨-, name, -, rfl⟩
    · rcases children_subset hm hchild with hchild | hnew
      · exact .inl (htarget ha hchild)
      · exact .inr (.inl hnew)
    · exact .inl (htarget hold hchild)
    · cases hchild
  · rcases get_perform ha hb' with ⟨rfl, rfl⟩ | ⟨hl, hold⟩ | ⟨-, name, -, rfl⟩
    · -- the needed invocation is the one that takes the step
      rcases owns_cases hm howns with hbefore | ⟨-, hmarks⟩
      · refine .inl ?_
        have hnone : m.point ≠ .waiting := fun hwaiting => by
          rw [(point_of_waiting hm hwaiting).1] at hbefore
          cases hbefore
        rcases get_perform ha ha' with ⟨rfl, rfl⟩ | ⟨-, hk⟩ | ⟨-, name, -, rfl⟩
        · exact absurd hpoint hnone
        · refine ⟨a', a, hk, ha, not_returned hm, .inr ⟨hpoint, ?_, hbefore, htask⟩⟩
          rw [perform_taskStates, if_pos htask.symm] at hstatus
          cases hmarks : m.marks with
          | none => rwa [hmarks] at hstatus
          | some status =>
            rcases marks_cases hI ha hm hmarks with ⟨hnot, -⟩ | ⟨-, hrunning, -⟩
            · exact absurd hnot (hI.begun a (mem_of_getElem? ha) hbefore)
            · rwa [← htask]
        · cases hpoint
      · exact .inr (.inr (.inl ⟨hmarks, rfl⟩))
    · rcases get_perform ha ha' with ⟨rfl, rfl⟩ | ⟨-, hk⟩ | ⟨-, name, -, rfl⟩
      · have hmarks := (point_of_waiting hm hpoint).2.2.1
        rw [perform_taskStates, if_pos rfl, hmarks] at hstatus
        exact .inr (.inr (.inr ⟨hpoint, rfl, hstatus, b', hold, howns, htask⟩))
      · refine .inl ⟨a', b', hk, hold, hreturned, .inr ⟨hpoint, ?_, howns, htask⟩⟩
        rw [perform_taskStates] at hstatus
        split_ifs at hstatus with hsame
        · cases hmarks : m.marks with
          | none => rwa [hmarks] at hstatus
          | some status =>
            rcases marks_cases hI ha hm hmarks with ⟨hnot, -⟩ | ⟨-, hrunning, -⟩
            · exact absurd hnot (hsame ▸ htask ▸ hI.begun b' (mem_of_getElem? hold) howns)
            · rwa [hsame]
        · exact hstatus
      · cases hpoint
    · cases howns

include hI hT ha hm in
theorem acyclic_perform (hacyclic : ∀ k, ¬ TransGen (Needs s) k k) (hapart : WaitsApart s i) (k : Nat) :
    ¬ TransGen (Needs (perform s i a m)) k k := by
  intro hcycle
  by_cases hpoint : m.point = .waiting
  · obtain ⟨hentering, hfresh, hmarks, hcalls⟩ := point_of_waiting hm hpoint
    have hedges : ∀ k l, Needs (perform s i a m) k l → Needs s k l ∨ k = i := by
      intro k l h
      rcases needs_perform hI hT ha hm h with h | ⟨name, hname, -⟩ | ⟨hrunning, -⟩ | ⟨-, h, -⟩
      · exact .inl h
      · exact absurd (hcalls.symm.trans hname) (by simp)
      · exact absurd (hmarks.symm.trans hrunning) (by simp)
      · exact .inr h
    rcases transGen_or_through hedges hcycle with h | h
    · exact hacyclic k h
    -- the cycle goes through the invocation that has come to a running task
    obtain ⟨l, hl, hback⟩ := TransGen.head'_iff.1 h
    rcases needs_perform hI hT ha hm hl with h | ⟨name, hname, -⟩ | ⟨hrunning, -⟩ | ⟨-, -, hstatus, b, hb, howns, htask⟩
    · obtain ⟨a', b', ha', -, -, h⟩ := h
      obtain rfl := some.inj (ha.symm.trans ha')
      rw [hentering] at h
      rcases h with h | ⟨h, -⟩ <;> cases h
    · exact absurd (hcalls.symm.trans hname) (by simp)
    · exact absurd (hmarks.symm.trans hrunning) (by simp)
    · exact hapart a ha hentering hfresh hstatus l b hb howns htask (reflTransGen_before hedges hback)
  · refine hacyclic k (transGen_of_sinks (fun k l h => ?_) hcycle)
    rcases needs_perform hI hT ha hm h with h | ⟨name, hname, rfl⟩ | ⟨hrunning, rfl⟩ | ⟨hwaiting, -⟩
    · exact .inl h
    · refine .inr fun c ⟨a', b', ha', _, _, h⟩ => ?_
      obtain rfl := some.inj (ha'.symm.trans (perform_get_new hname))
      rcases h with h | ⟨h, -⟩ <;> cases h
    · refine .inr fun c ⟨a', b', ha', _, _, h⟩ => ?_
      obtain rfl := some.inj (ha'.symm.trans (perform_get_self ha))
      rw [point_of_acquired hm hrunning] at h
      rcases h with h | ⟨h, -⟩ <;> cases h
    · exact absurd hwaiting hpoint

theorem reachable_of_apart (h : ReachableApart tasks hostName root s) : Reachable tasks hostName root s :=
  ReflTransGen.mono (fun _ _ ⟨i, rc, _, hstep⟩ => ⟨i, rc, hstep⟩) _ _ h

theorem acyclic_reachable (h : ReachableApart tasks hostName root s) (k : Nat) : ¬ TransGen (Needs s) k k := by
  induction h generalizing k with
  | refl =>
    intro hcycle
    obtain ⟨l, ⟨a, b, ha, -, -, h⟩, -⟩ := TransGen.head'_iff.1 hcycle
    obtain rfl := mem_singleton.1 (mem_of_getElem? ha)
    rcases h with h | ⟨h, -⟩ <;> cases h
  | tail hs h ih =>
    obtain ⟨i, rc, hapart, hstep⟩ := h
    obtain ⟨a, m, ha, hm, rfl⟩ := step_eq_some hstep
    have hreachable := reachable_of_apart hs
    exact acyclic_perform (invariant_reachable hreachable) (threads_reachable hreachable) ha hm ih hapart k

/-- In a run in which no invocation waits for one that needs it, one of them can take a step while any has not
returned. -/
theorem steps_of_waitsApart (hs : ReachableApart tasks hostName root s)
    (hunfinished : ∃ a ∈ s.invocations, isReturned a.point = false) : ∃ s', Steps tasks hostName s s' := by
  obtain ⟨a, ha, hreturned⟩ := hunfinished
  by_contra hstuck
  have hT := threads_reachable (reachable_of_apart hs)
  let Unfinished := { k : Fin s.invocations.length // isReturned (s.invocations.get k).point = false }
  have hnext : ∀ b : Unfinished, ∃ c : Unfinished, Needs s b.1 c.1 := by
    rintro ⟨k, hk⟩
    have hget : s.invocations[(k : Nat)]? = some (s.invocations.get k) := getElem?_eq_getElem k.2
    have hblocked : move tasks hostName s.invocations s.taskStates (s.invocations.get k) 0 = none := by
      by_contra hmove
      obtain ⟨m, hm⟩ := ne_none_iff_exists'.1 hmove
      exact hstuck ⟨perform s k _ m, k, 0, by rw [step, hget, bind_some, hm, map_some]⟩
    obtain ⟨j, hj⟩ := exists_needs hT hget hk hblocked
    obtain ⟨-, b, -, hb, hunreturned, -⟩ := id hj
    obtain ⟨hlt, rfl⟩ := List.getElem?_eq_some_iff.1 hb
    exact ⟨⟨⟨j, hlt⟩, hunreturned⟩, hj⟩
  obtain ⟨k, rfl⟩ := mem_iff_get.1 ha
  obtain ⟨member, period, hperiod, hback, hneeds⟩ := exists_periodic hnext ⟨k, hreturned⟩
  have hpath : ∀ n, TransGen (Needs s) (member 0).1 (member (n + 1)).1 := by
    intro n
    induction n with
    | zero => exact .single (hneeds 0)
    | succ n ih => exact ih.tail (hneeds (n + 1))
  have hcycle := hpath (period - 1)
  rw [Nat.sub_add_cancel hperiod, ← Nat.zero_add period, hback] at hcycle
  exact acyclic_reachable hs _ hcycle

theorem needs_entered (ha : s.invocations[i]? = some a) (hentering : a.point = .entering) {k l : Nat}
    (h : Needs s k l) : Needs (perform s i a { point := .waiting }) k l := by
  obtain ⟨c, b, hc, hb, hreturned, hneeds⟩ := h
  have hk : k ≠ i := by
    rintro rfl
    obtain rfl := some.inj (ha.symm.trans hc)
    rw [hentering] at hneeds
    rcases hneeds with h | ⟨h, -⟩ <;> cases h
  by_cases hl : l = i
  · subst hl
    obtain rfl := some.inj (ha.symm.trans hb)
    refine ⟨c, _, perform_get_ne hc hk, perform_get_self ha, rfl, .inl ?_⟩
    rcases hneeds with hchild | ⟨-, -, howns, -⟩
    · exact hchild
    · rw [hentering] at howns
      cases howns
  · exact ⟨c, b, perform_get_ne hc hk, perform_get_ne hb hl, hreturned, hneeds⟩

/-- Where no two branches of a parallel list lead to a task that leads back to itself, every run is such a
run. -/
theorem reachableApart_of_noCrossing (hcrossing : ¬ Crossing tasks hostName root)
    (hs : Reachable tasks hostName root s) : ReachableApart tasks hostName root s := by
  induction hs with
  | refl => exact .refl
  | @tail s s' hs h ih =>
    obtain ⟨i, rc, hstep⟩ := h
    refine ih.tail ⟨i, rc, ?_, hstep⟩
    intro a ha hentering hfresh hstatus j b hb howns htask hneeds
    obtain rfl : perform s i a { point := .waiting } = s' := by
      rw [step, ha, bind_some, move, hentering] at hstep
      simpa only [if_neg hfresh, map_some, some.injEq] using hstep
    have hreachable : Reachable tasks hostName root (perform s i a { point := .waiting }) :=
      hs.tail ⟨i, rc, hstep⟩
    have hj : j ≠ i := by
      rintro rfl
      obtain rfl := some.inj (ha.symm.trans hb)
      rw [hentering] at howns
      cases howns
    have hfirst : Needs (perform s i a { point := .waiting }) i j :=
      ⟨_, b, perform_get_self ha, perform_get_ne hb hj, isReturned_of_owns howns,
        .inr ⟨rfl, hstatus, howns, htask⟩⟩
    refine hcrossing (crossing_of_cycle (invariant_reachable hreachable) (threads_reachable hreachable)
      (TransGen.head' hfirst (hneeds.lift id fun _ _ h => needs_entered ha hentering h)))

end Runs

theorem not_crossing_of_sequential
    (h : ∀ name, (edgesOf tasks hostName name).parallel = false) : ¬ Crossing tasks hostName root := by
  rintro ⟨stack, caller, -, -, -, hparallel, -⟩
  rw [h caller] at hparallel
  cases hparallel

theorem not_crossing_of_acyclic (h : ∀ name, ¬ Relation.TransGen (Leads tasks hostName) name name) :
    ¬ Crossing tasks hostName root := by
  rintro ⟨stack, caller, -, -, -, -, stage, branch, -, branch', -, -, name, -, -, hcycle⟩
  exact h name (hcycle.lift id fun _ _ hleads => hleads.1)

open TaskSafety (compileAndTest compileFirst)

theorem compileAndTest_sequential (name : Text) : (edgesOf compileAndTest [] name).parallel = false := by
  unfold edgesOf
  split
  · rfl
  · rename_i task htask
    have hmem := mem_of_find?_eq_some htask
    simp only [compileAndTest, mem_cons, not_mem_nil, or_false] at hmem
    rcases hmem with rfl | rfl <;> rfl

theorem compileAndTest_neverStuck : ∃ s, run compileAndTest [] compileFirst (initial "test".toList) = some s ∧
    ∃ s', Steps compileAndTest [] s s' := by
  have hrun : (run compileAndTest [] compileFirst (initial "test".toList)).map
      (fun s => s.invocations.any fun a => !isReturned a.point) = some true := by decide
  obtain ⟨s, hs, hany⟩ := map_eq_some_iff.1 hrun
  obtain ⟨a, ha, hreturned⟩ := any_eq_true.1 hany
  exact ⟨s, hs, steps_of_waitsApart (reachableApart_of_noCrossing
    (not_crossing_of_sequential compileAndTest_sequential) (reachable_run .refl hs))
    ⟨a, ha, by simpa using hreturned⟩⟩

theorem move_eq_none (s : State) (a : Invocation) (rc : Int)
    (h : move tasks hostName s.invocations s.taskStates a 0 = none) :
    move tasks hostName s.invocations s.taskStates a rc = none := by
  unfold move at h ⊢
  split at h
  all_goals first | exact h | cases h | simpa using h

def mutualBranches : List TaskSpec :=
  let plain : HostOverride := ⟨[], [], [], none, [], [], [], [], [], [], [], ["cc".toList]⟩
  [⟨{ plain with parallel := some true, dependsOn := ["a".toList, "b".toList] }, "all".toList, [], [], []⟩,
    ⟨{ plain with dependsOn := ["b".toList] }, "a".toList, [], [], []⟩,
    ⟨{ plain with dependsOn := ["a".toList] }, "b".toList, [], [], []⟩]

def eachBranchFirst : List (Nat × Int) :=
  (List.replicate 6 0 ++ [1, 1, 2, 2] ++ [1, 1, 2, 2] ++ [3, 4]).map fun i => (i, 0)

theorem mutualBranches_stuck : ¬ ∀ s, Reachable mutualBranches [] "all".toList s →
    (∃ a ∈ s.invocations, isReturned a.point = false) → ∃ s', Steps mutualBranches [] s s' := by
  intro hclaim
  have hrun : (run mutualBranches [] eachBranchFirst (initial "all".toList)).map
      (fun s => (s.invocations.any fun a => !isReturned a.point,
        s.invocations.all fun a => (move mutualBranches [] s.invocations s.taskStates a 0).isNone)) =
      some (true, true) := by decide
  obtain ⟨s, hs, hboth⟩ := map_eq_some_iff.1 hrun
  obtain ⟨hany, hall⟩ := Prod.mk.inj hboth
  obtain ⟨a, ha, hreturned⟩ := any_eq_true.1 hany
  obtain ⟨s', i, rc, hstep⟩ :=
    hclaim s (reachable_run .refl hs) ⟨a, ha, by simpa using hreturned⟩
  obtain ⟨b, hb, hmove⟩ := bind_eq_some_iff.1 hstep
  have hnone := all_eq_true.1 hall b (mem_of_getElem? hb)
  rw [move_eq_none s b rc (isNone_iff_eq_none.1 hnone)] at hmove
  cases hmove

end Mlang.TaskDeadlocks
