import Mlang.TaskOrder

namespace Mlang.TaskAgreement

open BracketedText (Text)
open TaskSpecs TaskRunner TaskOrder List Option

variable {tasks : List TaskSpec} {stack order' order names : List Text} {depth : Nat}
  {taskName hostName : Text} {appendTask : Text → List Text → Except Text (List Text)}

section Plan

/-- What appending a task of whose stack is `stack` does to the order. -/
structure Grown (stack order order' : List Text) : Prop where
  kept : order ⊆ order'
  fresh : ∀ x ∈ order', x ∈ order ∨ x ∉ stack
  nodup : order.Nodup → order'.Nodup

namespace Grown

variable {order'' : List Text}

theorem refl : Grown stack order order := ⟨fun _ h => h, fun _ h => .inl h, id⟩

theorem trans (h : Grown stack order order') (h' : Grown stack order' order'') :
    Grown stack order order'' where
  kept := fun _ hx => h'.kept (h.kept hx)
  fresh := fun x hx => (h'.fresh x hx).elim (h.fresh x) .inr
  nodup := fun hn => h'.nodup (h.nodup hn)

theorem of_push (h : Grown (stack ++ [taskName]) order order') : Grown stack order order' where
  kept := h.kept
  fresh := fun x hx => (h.fresh x hx).imp id fun hout hin => hout (mem_append_left _ hin)
  nodup := h.nodup

theorem emitted (hstack : taskName ∉ stack) :
    Grown stack order (if taskName ∈ order then order else order ++ [taskName]) := by
  by_cases hmem : taskName ∈ order
  · rw [if_pos hmem]
    exact refl
  · rw [if_neg hmem]
    constructor
    · exact subset_append_left _ _
    · intro x hx
      rcases mem_append.1 hx with hx | hx
      · exact .inl hx
      · exact .inr (mem_singleton.1 hx ▸ hstack)
    · intro hn
      exact concat_eq_append ▸ List.Nodup.concat hmem hn

end Grown

theorem appendTaskExecutionOrder_cases
    (h : appendTaskExecutionOrder tasks hostName (depth + 1) taskName stack order = .ok order') :
    (taskName = [] ∧ order' = order) ∨ ∃ task waited, taskName ≠ [] ∧ taskName ∉ stack ∧
    findTaskSpec tasks taskName = some task ∧ hostSupportedByTask task hostName = true ∧
    appendEach (fun name => appendTaskExecutionOrder tasks hostName depth name (stack ++ [taskName]))
    (resolveEffectiveTaskEdges task tasks hostName).dependsOn order = .ok waited ∧
    appendEach (fun name => appendTaskExecutionOrder tasks hostName depth name (stack ++ [taskName]))
    (resolveEffectiveTaskEdges task tasks hostName).next
    (if taskName ∈ waited then waited else waited ++ [taskName]) = .ok order' := by
  rw [appendTaskExecutionOrder] at h
  by_cases hempty : taskName = []
  · rw [if_pos hempty] at h
    exact .inl ⟨hempty, (Except.ok.inj h).symm⟩
  · rw [if_neg hempty] at h
    by_cases hstack : taskName ∈ stack
    · rw [if_pos hstack] at h
      cases h
    · rw [if_neg hstack] at h
      cases hfind : findTaskSpec tasks taskName with
      | none =>
        rw [hfind] at h
        cases h
      | some task =>
        rw [hfind] at h
        dsimp only at h
        by_cases hhost : hostSupportedByTask task hostName = true
        · rw [if_pos hhost] at h
          cases hwaited : appendEach (fun name =>
              appendTaskExecutionOrder tasks hostName depth name (stack ++ [taskName]))
              (resolveEffectiveTaskEdges task tasks hostName).dependsOn order with
          | error message =>
            rw [hwaited] at h
            cases h
          | ok waited =>
            rw [hwaited] at h
            exact .inr ⟨task, waited, hempty, hstack, rfl, hhost, hwaited, h⟩
        · rw [if_neg hhost] at h
          cases h

theorem appendEach_cons {name : Text} {rest : List Text}
    (h : appendEach appendTask (name :: rest) order = .ok order') :
    ∃ order₁, appendTask name order = .ok order₁ ∧ appendEach appendTask rest order₁ = .ok order' := by
  rw [appendEach] at h
  cases hone : appendTask name order with
  | error message =>
    rw [hone] at h
    cases h
  | ok order₁ =>
    rw [hone] at h
    exact ⟨order₁, rfl, h⟩

theorem grown_appendEach
    (hone : ∀ name order order', appendTask name order = .ok order' → Grown stack order order' ∧ (name ≠ [] →
      name ∈ order')) (h : appendEach appendTask names order = .ok order') :
    Grown stack order order' ∧ ∀ name ∈ names, name ≠ [] → name ∈ order' := by
  induction names generalizing order with
  | nil =>
    cases h
    exact ⟨.refl, fun name hname => absurd hname not_mem_nil⟩
  | cons name rest ih =>
    obtain ⟨order₁, hfirst, hrest⟩ := appendEach_cons h
    obtain ⟨hgrown, hmem⟩ := hone name order order₁ hfirst
    obtain ⟨hgrown', hmem'⟩ := ih hrest
    refine ⟨hgrown.trans hgrown', fun x hx hne => ?_⟩
    rcases mem_cons.1 hx with rfl | hx
    · exact hgrown'.kept (hmem hne)
    · exact hmem' x hx hne

theorem grown_append (h : appendTaskExecutionOrder tasks hostName depth taskName stack order = .ok order') :
    Grown stack order order' ∧ (taskName ≠ [] → taskName ∈ order') := by
  induction depth generalizing taskName stack order order' with
  | zero => cases h
  | succ depth ih =>
    rcases appendTaskExecutionOrder_cases h with ⟨rfl, rfl⟩ | ⟨task, waited, -, hstack, -, -, hdeps, hnext⟩
    · exact ⟨.refl, fun hne => absurd rfl hne⟩
    · have hwaited := (grown_appendEach (fun _ _ _ => ih) hdeps).1.of_push
      have hlast := (grown_appendEach (fun _ _ _ => ih) hnext).1.of_push
      refine ⟨(hwaited.trans (.emitted hstack)).trans hlast, fun _ => hlast.kept ?_⟩
      split_ifs with hmem
      · exact hmem
      · exact mem_append_right _ (mem_singleton_self _)

variable (tasks hostName) in
/-- All that `x` waits for or starts is in the order. -/
def Walked (order : List Text) (x : Text) : Prop :=
  ∀ task, findTaskSpec tasks x = some task → ∀ stage : Stage,
    ∀ y ∈ stage.names (resolveEffectiveTaskEdges task tasks hostName), y ≠ [] → y ∈ order

theorem appendEach_fixed
    (hone : ∀ name ∈ names, ∀ order', appendTask name order = .ok order' → order' = order)
    (h : appendEach appendTask names order = .ok order') : order' = order := by
  induction names with
  | nil => exact (Except.ok.inj h).symm
  | cons name rest ih =>
    obtain ⟨order₁, hfirst, hrest⟩ := appendEach_cons h
    obtain rfl := hone name mem_cons_self order₁ hfirst
    exact ih (fun x hx => hone x (mem_cons_of_mem _ hx)) hrest

theorem append_fixed (hwalked : ∀ x ∈ order, x ∉ stack → Walked tasks hostName order x)
    (hmem : taskName = [] ∨ taskName ∈ order)
    (h : appendTaskExecutionOrder tasks hostName depth taskName stack order = .ok order') :
    order' = order := by
  induction depth generalizing taskName stack order' with
  | zero => cases h
  | succ depth ih =>
    rcases appendTaskExecutionOrder_cases h with ⟨-, rfl⟩ | ⟨task, waited, hne, hstack, hfind, -, hdeps, hnext⟩
    · rfl
    · have htask := hmem.resolve_left hne
      have hstage : ∀ stage : Stage,
          ∀ y ∈ stage.names (resolveEffectiveTaskEdges task tasks hostName), ∀ order',
            appendTaskExecutionOrder tasks hostName depth y (stack ++ [taskName]) order =
              .ok order' → order' = order := by
        intro stage y hy order'
        refine ih (fun x hx hout => hwalked x hx fun hin => hout (mem_append_left _ hin)) ?_
        exact or_iff_not_imp_left.2 (hwalked taskName htask hstack task hfind stage y hy)
      obtain rfl := appendEach_fixed (hstage .dependsOn) hdeps
      rw [if_pos htask] at hnext
      exact appendEach_fixed (hstage .next) hnext

end Plan

variable {outcomes : Outcomes} {s : RunState} {runNext : RunState → Option (Int × RunState)} {status : Status}
  {task : TaskSpec} {runTask : Text → RunState → Option (Int × RunState)}

section Execution

/-- While the tasks of `stack` are on their way, the statuses of the run are those of the plan. -/
structure Synced (tasks : List TaskSpec) (hostName : Text) (stack order : List Text)
    (s : RunState) : Prop where
  running : ∀ x ∈ stack, s.taskStates x = .running
  succeeded : ∀ x ∈ order, x ∉ stack → s.taskStates x = .succeeded
  untouched : ∀ x, x ∉ stack → x ∉ order → s.taskStates x = .notStarted
  executed : s.executed = order
  walked : ∀ x ∈ order, x ∉ stack → Walked tasks hostName order x

variable (tasks hostName outcomes) in
/-- The task has no edge without a name, something to run, and all it does turns out well. -/
def Completes (taskName : Text) : Prop :=
  ∀ task, findTaskSpec tasks taskName = some task →
    (∀ stage : Stage, [] ∉ stage.names (resolveEffectiveTaskEdges task tasks hostName)) ∧
      bodyStarts hostName outcomes task = true ∧ bodySucceeds hostName outcomes task = true ∧
      outcomes.signed task.name = 0

variable (tasks hostName) in
def Sequential : Prop :=
  ∀ task ∈ tasks, (resolveEffectiveTaskEdges task tasks hostName).parallel = false

@[simp]
theorem mark_taskStates_self (s : RunState) (taskName : Text) (status : Status) :
    (s.mark taskName status).taskStates taskName = status := by
  simp [RunState.mark]

@[simp]
theorem mark_taskStates_of_ne {x : Text} (hne : x ≠ taskName) :
    (s.mark taskName status).taskStates x = s.taskStates x := by
  simp [RunState.mark, hne]

variable {plan : List Text}

theorem name_of_find (hfind : findTaskSpec tasks taskName = some task) : task.name = taskName := by
  simpa using find?_some hfind

theorem mem_of_find (hfind : findTaskSpec tasks taskName = some task) : task ∈ tasks :=
  mem_of_find?_eq_some hfind

theorem runStage_of_sequential {edges : EffectiveTaskEdges} (hsequential : edges.parallel = false)
    (stage : Stage) (s : RunState) : runStage runTask edges stage s =
    runEach runTask (stage.names edges) s := by
  rw [runStage, if_neg]
  rw [hsequential]
  exact fun h => Bool.false_ne_true h.1

namespace Synced

theorem push (h : Synced tasks hostName stack order s) :
    Synced tasks hostName (stack ++ [taskName]) order (s.mark taskName .running) := by
  have hout : ∀ {x}, x ∉ stack ++ [taskName] → x ∉ stack ∧ x ≠ taskName := fun hx =>
    ⟨fun hin => hx (mem_append_left _ hin), fun heq => hx (mem_append_right _ (mem_singleton.2 heq))⟩
  constructor
  · intro x hx
    by_cases hname : x = taskName
    · rw [hname, mark_taskStates_self]
    · rw [mark_taskStates_of_ne hname]
      exact h.running x ((mem_append.1 hx).resolve_right fun hin =>
        hname (mem_singleton.1 hin))
  · intro x hx hstack
    rw [mark_taskStates_of_ne (hout hstack).2]
    exact h.succeeded x hx (hout hstack).1
  · intro x hstack hx
    rw [mark_taskStates_of_ne (hout hstack).2]
    exact h.untouched x (hout hstack).1 hx
  · exact h.executed
  · exact fun x hx hstack => h.walked x hx (hout hstack).1

theorem emit (h : Synced tasks hostName (stack ++ [taskName]) order s) :
    Synced tasks hostName (stack ++ [taskName]) (order ++ [taskName])
      { s with executed := s.executed ++ [taskName] } := by
  have hold : ∀ {x}, x ∈ order ++ [taskName] → x ∉ stack ++ [taskName] → x ∈ order :=
    fun hx hstack => (mem_append.1 hx).resolve_right fun hin =>
      hstack (mem_append_right _ hin)
  constructor
  · exact h.running
  · exact fun x hx hstack => h.succeeded x (hold hx hstack) hstack
  · exact fun x hstack hx => h.untouched x hstack fun hin => hx (mem_append_left _ hin)
  · exact congrArg (· ++ [taskName]) h.executed
  · intro x hx hstack task hfind stage y hy hne
    exact mem_append_left _ (h.walked x (hold hx hstack) hstack task hfind stage y hy hne)

theorem pop (h : Synced tasks hostName (stack ++ [taskName]) order s) (hstack : taskName ∉ stack)
    (hmem : taskName ∈ order) (hwalked : Walked tasks hostName order taskName) :
    Synced tasks hostName stack order (s.mark taskName .succeeded) := by
  have hout : ∀ {x}, x ∉ stack → x ≠ taskName → x ∉ stack ++ [taskName] := fun hx hne hin =>
    (mem_append.1 hin).elim hx fun hin => hne (mem_singleton.1 hin)
  constructor
  · intro x hx
    rw [mark_taskStates_of_ne fun heq : x = taskName => hstack (heq ▸ hx)]
    exact h.running x (mem_append_left _ hx)
  · intro x hx hxs
    by_cases hname : x = taskName
    · rw [hname, mark_taskStates_self]
    · rw [mark_taskStates_of_ne hname]
      exact h.succeeded x hx (hout hxs hname)
  · intro x hxs hx
    have hname : x ≠ taskName := fun heq => hx (heq ▸ hmem)
    rw [mark_taskStates_of_ne hname]
    exact h.untouched x (hout hxs hname) hx
  · exact h.executed
  · intro x hx hxs
    by_cases hname : x = taskName
    · exact hname ▸ hwalked
    · exact h.walked x hx (hout hxs hname)

end Synced

theorem synced_runEach
    (hgrown : ∀ name order order', appendTask name order = .ok order' → Grown stack order order' ∧ (name ≠ []
      → name ∈ order'))
    (hone : ∀ name ∈ names, ∀ order order' s, order' ⊆ plan → appendTask name order = .ok order' → Synced
      tasks hostName stack order s → ∃ s', runTask name s = some (0, s') ∧ Synced tasks hostName stack order'
      s') (hplan : order' ⊆ plan) (h : appendEach appendTask names order = .ok order')
    (hs : Synced tasks hostName stack order s) :
    ∃ s', runEach runTask names s = some (0, s') ∧ Synced tasks hostName stack order' s' := by
  induction names generalizing order s with
  | nil =>
    cases h
    exact ⟨s, rfl, hs⟩
  | cons name rest ih =>
    obtain ⟨order₁, hfirst, hrest⟩ := appendEach_cons h
    have hplan₁ : order₁ ⊆ plan := fun x hx =>
      hplan ((grown_appendEach hgrown hrest).1.kept hx)
    obtain ⟨s₁, hrun, hs₁⟩ := hone name mem_cons_self order order₁ s hplan₁ hfirst hs
    obtain ⟨s', hrun', hs'⟩ :=
      ih (fun x hx => hone x (mem_cons_of_mem _ hx)) hrest hs₁
    refine ⟨s', ?_, hs'⟩
    rw [runEach, hrun]
    exact hrun'

theorem runBody_of_completes {s' : RunState} (hstarts : bodyStarts hostName outcomes task = true)
    (hsucceeds : bodySucceeds hostName outcomes task = true) (hsigned : outcomes.signed task.name = 0)
    (hnext : runNext { s with executed := s.executed ++ [task.name] } = some (0, s')) :
    runBody hostName outcomes task runNext s = some (0, s'.mark task.name .succeeded) := by
  rw [runBody]
  dsimp only
  rw [if_pos hstarts, if_pos hsucceeds, hnext]
  simp [hsigned]

/-- By induction on the depth: the run does for a task what the plan does for it. -/
theorem synced_run (hsequential : Sequential tasks hostName)
    (hplan : ∀ name ∈ plan, Completes tasks hostName outcomes name) (hname : taskName ≠ [])
    (hsub : order' ⊆ plan)
    (h : appendTaskExecutionOrder tasks hostName depth taskName stack order = .ok order')
    (hs : Synced tasks hostName stack order s) : ∃ s',
    runTaskForManifestImpl tasks hostName outcomes depth taskName stack s = some (0, s') ∧
    Synced tasks hostName stack order' s' := by
  induction depth generalizing taskName stack order order' s with
  | zero => cases h
  | succ depth ih =>
    obtain ⟨task, waited, -, hstack, hfind, hhost, hdeps, hnext⟩ :=
      (appendTaskExecutionOrder_cases h).resolve_left fun h => hname h.1
    rw [runTaskForManifestImpl, if_neg hstack]
    by_cases hmem : taskName ∈ order
    · -- an emitted task is not run again, and the plan adds nothing for it
      rw [hs.succeeded taskName hmem hstack, append_fixed hs.walked (.inr hmem) h]
      exact ⟨s, rfl, hs⟩
    · rw [hs.untouched taskName hstack hmem]
      dsimp only
      rw [hfind]
      dsimp only
      rw [if_pos hhost, runStage_of_sequential (hsequential task (mem_of_find hfind))]
      have hgrown : ∀ name order order',
          appendTaskExecutionOrder tasks hostName depth name (stack ++ [taskName]) order =
            .ok order' →
          Grown (stack ++ [taskName]) order order' ∧ (name ≠ [] → name ∈ order') :=
        fun _ _ _ => grown_append
      have hwaited := grown_appendEach hgrown hdeps
      have hlast := grown_appendEach hgrown hnext
      have hnew : taskName ∉ waited := fun hin =>
        (hwaited.1.fresh taskName hin).elim hmem fun hout =>
          hout (mem_append_right _ (mem_singleton_self _))
      rw [if_neg hnew] at hnext hlast
      have hin : taskName ∈ order' :=
        hlast.1.kept (mem_append_right _ (mem_singleton_self _))
      obtain ⟨hedges, hstarts, hsucceeds, hsigned⟩ := hplan taskName (hsub hin) task hfind
      have hone : ∀ stage : Stage,
          ∀ name ∈ stage.names (resolveEffectiveTaskEdges task tasks hostName),
          ∀ order order' s, order' ⊆ plan →
            appendTaskExecutionOrder tasks hostName depth name (stack ++ [taskName]) order =
              .ok order' →
            Synced tasks hostName (stack ++ [taskName]) order s →
            ∃ s', runTaskForManifestImpl tasks hostName outcomes depth name
                (stack ++ [taskName]) s = some (0, s') ∧
              Synced tasks hostName (stack ++ [taskName]) order' s' :=
        fun stage name hstage order order' s hsub h hs =>
          ih (fun hempty => hedges stage (hempty ▸ hstage)) hsub h hs
      obtain ⟨s₁, hrun₁, hs₁⟩ := synced_runEach hgrown (hone .dependsOn)
        (fun x hx => hsub (hlast.1.kept (mem_append_left _ hx))) hdeps hs.push
      obtain ⟨s₂, hrun₂, hs₂⟩ := synced_runEach hgrown (hone .next) hsub hnext hs₁.emit
      refine ⟨s₂.mark taskName .succeeded, ?_, hs₂.pop hstack hin ?_⟩
      · have hself := name_of_find hfind
        rw [hrun₁]
        dsimp only [bind_some]
        rw [if_neg fun h : (0 : Int) ≠ 0 => h rfl]
        rw [← hself] at hrun₂ ⊢
        refine runBody_of_completes hstarts hsucceeds hsigned ?_
        rw [runStage_of_sequential (hsequential task (mem_of_find hfind))]
        exact hrun₂
      · intro task' hfind' stage y hy hne
        cases hfind.symm.trans hfind'
        cases stage with
        | dependsOn => exact hlast.1.kept (mem_append_left _ (hwaited.2 y hy hne))
        | next => exact hlast.2 y hy hne

end Execution

section Failure

inductive Grounded (tasks : List TaskSpec) (hostName : Text) : Text → Prop
  | intro {taskName : Text} {task : TaskSpec} (found : findTaskSpec tasks taskName = some task)
      (supported : hostSupportedByTask task hostName = true)
      (edges : ∀ stage : Stage,
        ∀ y ∈ stage.names (resolveEffectiveTaskEdges task tasks hostName), Grounded tasks hostName y) :
      Grounded tasks hostName taskName

def Edge (tasks : List TaskSpec) (hostName : Text) (x y : Text) : Prop :=
  ∃ task, findTaskSpec tasks x = some task ∧
    ∃ stage : Stage, y ∈ stage.names (resolveEffectiveTaskEdges task tasks hostName)

theorem Grounded.acyclic (h : Grounded tasks hostName taskName) :
    ¬ Relation.TransGen (Edge tasks hostName) taskName taskName := by
  induction h with
  | @intro taskName task hfind hhost hedges ih =>
    intro hcycle
    obtain ⟨y, hedge, hback⟩ := Relation.TransGen.head'_iff.1 hcycle
    obtain ⟨task', hfind', stage, hy⟩ := id hedge
    cases hfind.symm.trans hfind'
    exact ih stage y hy (.tail' hback hedge)

theorem length_le_of_found (hnodup : stack.Nodup)
    (hfound : ∀ x ∈ stack, ∃ task, findTaskSpec tasks x = some task) : stack.length ≤ tasks.length := by
  have hsub : stack ⊆ tasks.map TaskSpec.name := by
    intro x hx
    obtain ⟨task, hfind⟩ := hfound x hx
    exact mem_map.2 ⟨task, mem_of_find hfind, name_of_find hfind⟩
  simpa using (subperm_of_subset hnodup hsub).length_le

/-- The tasks on their way: none twice, all of them found, and a depth that suffices for the rest. -/
structure Fitting (tasks : List TaskSpec) (depth : Nat) (stack : List Text) : Prop where
  nodup : stack.Nodup
  found : ∀ x ∈ stack, ∃ task, findTaskSpec tasks x = some task
  deep : tasks.length < depth + stack.length

theorem Fitting.depth_ne_zero : ¬ Fitting tasks 0 stack := by
  intro h
  have hlength := length_le_of_found h.nodup h.found
  have hdeep := h.deep
  omega

variable {P : RunState → Prop}

theorem Fitting.push (h : Fitting tasks (depth + 1) stack) (hstack : taskName ∉ stack)
    (hfind : findTaskSpec tasks taskName = some task) : Fitting tasks depth (stack ++ [taskName]) where
  nodup := concat_eq_append ▸ List.Nodup.concat hstack h.nodup
  found := by
    intro x hx
    rcases mem_append.1 hx with hx | hx
    · exact h.found x hx
    · exact ⟨task, mem_singleton.1 hx ▸ hfind⟩
  deep := by
    have hdeep := h.deep
    rw [length_append, length_singleton]
    omega

theorem appendEach_ok (hone : ∀ name ∈ names, ∀ order, ∃ order', appendTask name order = .ok order')
    (order : List Text) : ∃ order', appendEach appendTask names order = .ok order' := by
  induction names generalizing order with
  | nil => exact ⟨order, rfl⟩
  | cons name rest ih =>
    obtain ⟨order₁, hfirst⟩ := hone name mem_cons_self order
    obtain ⟨order', hrest⟩ := ih (fun x hx => hone x (mem_cons_of_mem _ hx)) order₁
    refine ⟨order', ?_⟩
    rw [appendEach, hfirst]
    exact hrest

theorem append_ok (hground : Grounded tasks hostName taskName)
    (hlead : ∀ z ∈ stack, Relation.TransGen (Edge tasks hostName) z taskName)
    (hfit : Fitting tasks depth stack) (order : List Text) :
    ∃ order', appendTaskExecutionOrder tasks hostName depth taskName stack order = .ok order' := by
  induction depth generalizing taskName stack order with
  | zero => exact absurd hfit Fitting.depth_ne_zero
  | succ depth ih =>
    have hstack : taskName ∉ stack := fun hin => hground.acyclic (hlead taskName hin)
    obtain ⟨hfind, hhost, hedges⟩ := id hground
    rename_i task
    have hstage : ∀ stage : Stage,
        ∀ y ∈ stage.names (resolveEffectiveTaskEdges task tasks hostName), ∀ order,
          ∃ order', appendTaskExecutionOrder tasks hostName depth y (stack ++ [taskName]) order =
            .ok order' := by
      intro stage y hy order
      refine ih (hedges stage y hy) (fun z hz => ?_) (hfit.push hstack hfind) order
      have hedge : Edge tasks hostName taskName y := ⟨task, hfind, stage, hy⟩
      rcases mem_append.1 hz with hz | hz
      · exact (hlead z hz).tail hedge
      · exact mem_singleton.1 hz ▸ .single hedge
    by_cases hempty : taskName = []
    · exact ⟨order, by rw [appendTaskExecutionOrder, if_pos hempty]⟩
    · obtain ⟨waited, hdeps⟩ := appendEach_ok (hstage .dependsOn) order
      obtain ⟨order', hnext⟩ := appendEach_ok (hstage .next)
        (if taskName ∈ waited then waited else waited ++ [taskName])
      refine ⟨order', ?_⟩
      rw [appendTaskExecutionOrder, if_neg hempty, if_neg hstack, hfind]
      dsimp only [Stage.names] at hdeps ⊢
      rw [if_pos hhost, hdeps]
      exact hnext

def Earned (tasks : List TaskSpec) (hostName : Text) (s : RunState) : Prop :=
  ∀ x, s.taskStates x = .succeeded → Grounded tasks hostName x

def OnlyRunning (stack : List Text) (s : RunState) : Prop :=
  ∀ x, s.taskStates x = .running → x ∈ stack

theorem Earned.mark (h : Earned tasks hostName s)
    (hstatus : status = .succeeded → Grounded tasks hostName taskName) :
    Earned tasks hostName (s.mark taskName status) := by
  intro x hx
  by_cases hname : x = taskName
  · rw [hname, mark_taskStates_self] at hx
    exact hname ▸ hstatus hx
  · rw [mark_taskStates_of_ne hname] at hx
    exact h x hx

theorem OnlyRunning.mark (h : OnlyRunning (stack ++ [taskName]) s) (hstatus : status ≠ .running) :
    OnlyRunning stack (s.mark taskName status) := by
  intro x hx
  by_cases hname : x = taskName
  · rw [hname, mark_taskStates_self] at hx
    exact absurd hx hstatus
  · rw [mark_taskStates_of_ne hname] at hx
    exact (mem_append.1 (h x hx)).resolve_right fun hin => hname (mem_singleton.1 hin)

theorem OnlyRunning.push (h : OnlyRunning stack s) :
    OnlyRunning (stack ++ [taskName]) (s.mark taskName .running) := by
  intro x hx
  by_cases hname : x = taskName
  · exact mem_append_right _ (mem_singleton.2 hname)
  · rw [mark_taskStates_of_ne hname] at hx
    exact mem_append_left _ (h x hx)

theorem runEach_spec {Q : Text → Prop}
    (hone : ∀ name ∈ names, ∀ s, P s → ∃ code s', runTask name s = some (code, s') ∧ P s' ∧ (code = 0 → Q
      name)) (hs : P s) : ∃ code s', runEach runTask names s = some (code, s') ∧ P s' ∧
    (code = 0 → ∀ name ∈ names, Q name) := by
  induction names generalizing s with
  | nil => exact ⟨0, s, rfl, hs, fun _ name hname => absurd hname not_mem_nil⟩
  | cons name rest ih =>
    obtain ⟨code, s₁, hrun, hs₁, hname⟩ := hone name mem_cons_self s hs
    by_cases hcode : code = 0
    · obtain ⟨code', s', hrun', hs', hrest⟩ :=
        ih (fun x hx => hone x (mem_cons_of_mem _ hx)) hs₁
      refine ⟨code', s', ?_, hs', fun hcode' x hx => ?_⟩
      · rw [runEach, hrun, bind_some, if_pos hcode]
        exact hrun'
      · rcases mem_cons.1 hx with rfl | hx
        · exact hname hcode
        · exact hrest hcode' x hx
    · refine ⟨code, s₁, ?_, hs₁, fun h => absurd h hcode⟩
      rw [runEach, hrun, bind_some, if_neg hcode]

variable (hostName outcomes) in
theorem runBody_spec (task : TaskSpec) {Q : Prop} (hs : P s)
    (hexecuted : P { s with executed := s.executed ++ [task.name] })
    (hnext : ∀ s, P s → ∃ code s', runNext s = some (code, s') ∧ P s' ∧ (code = 0 → Q)) :
    ∃ code s', P s' ∧
      ((code ≠ 0 ∧ runBody hostName outcomes task runNext s = some (code, s'.mark task.name .failed)) ∨
        (code = 0 ∧ Q ∧
          runBody hostName outcomes task runNext s = some (code, s'.mark task.name .succeeded))) := by
  rw [runBody]
  dsimp only
  by_cases hstarts : bodyStarts hostName outcomes task = true
  · rw [if_pos hstarts]
    by_cases hsucceeds : bodySucceeds hostName outcomes task = true
    · rw [if_pos hsucceeds]
      obtain ⟨code, s', hrun, hs', hQ⟩ := hnext _ hexecuted
      rw [hrun, bind_some]
      by_cases hcode : code = 0
      · by_cases hsigned : outcomes.signed task.name = 0
        · refine ⟨0, s', hs', .inr ⟨rfl, hQ hcode, ?_⟩⟩
          simp [hcode, hsigned]
        · refine ⟨outcomes.signed task.name, s', hs', .inl ⟨hsigned, ?_⟩⟩
          simp [hcode, hsigned]
      · refine ⟨1, s', hs', .inl ⟨Int.one_ne_zero, ?_⟩⟩
        simp [hcode]
    · rw [if_neg hsucceeds]
      exact ⟨1, _, hexecuted, .inl ⟨Int.one_ne_zero, rfl⟩⟩
  · rw [if_neg hstarts]
    exact ⟨1, _, hs, .inl ⟨Int.one_ne_zero, rfl⟩⟩

variable (outcomes) in
/-- By induction on the depth: a run returns, and returns 0 only for a grounded task. -/
theorem earned_run (hsequential : Sequential tasks hostName) (taskName : Text)
    (hfit : Fitting tasks depth stack) (hrunning : OnlyRunning stack s) (hearned : Earned tasks hostName s) :
    ∃ code s', runTaskForManifestImpl tasks hostName outcomes depth taskName stack s = some (code, s') ∧
    (OnlyRunning stack s' ∧ Earned tasks hostName s') ∧ (code = 0 → Grounded tasks hostName taskName) := by
  induction depth generalizing taskName stack s with
  | zero => exact absurd hfit Fitting.depth_ne_zero
  | succ depth ih =>
    rw [runTaskForManifestImpl]
    by_cases hstack : taskName ∈ stack
    · exact ⟨1, s, if_pos hstack, ⟨hrunning, hearned⟩, fun h => absurd h Int.one_ne_zero⟩
    rw [if_neg hstack]
    have hfailed : OnlyRunning stack (s.mark taskName .failed) ∧
        Earned tasks hostName (s.mark taskName .failed) := by
      refine ⟨.mark (fun x hx => mem_append_left _ (hrunning x hx)) ?_, hearned.mark ?_⟩
      · exact fun h => nomatch h
      · exact fun h => nomatch h
    cases hstatus : s.taskStates taskName with
    | running => exact absurd (hrunning taskName hstatus) hstack
    | succeeded => exact ⟨0, s, rfl, ⟨hrunning, hearned⟩, fun _ => hearned taskName hstatus⟩
    | failed => exact ⟨1, s, rfl, ⟨hrunning, hearned⟩, fun h => absurd h Int.one_ne_zero⟩
    | notStarted =>
      dsimp only
      cases hfind : findTaskSpec tasks taskName with
      | none => exact ⟨-1, _, rfl, hfailed, fun h => absurd h (by decide)⟩
      | some task =>
        dsimp only
        by_cases hhost : hostSupportedByTask task hostName = true
        · rw [if_pos hhost]
          have hstage : ∀ (stage : Stage) (s : RunState),
              OnlyRunning (stack ++ [taskName]) s ∧ Earned tasks hostName s →
              ∃ code s', runStage (fun name => runTaskForManifestImpl tasks hostName outcomes
                  depth name (stack ++ [taskName]))
                  (resolveEffectiveTaskEdges task tasks hostName) stage s = some (code, s') ∧
                (OnlyRunning (stack ++ [taskName]) s' ∧ Earned tasks hostName s') ∧
                (code = 0 → ∀ y ∈ stage.names (resolveEffectiveTaskEdges task tasks hostName),
                  Grounded tasks hostName y) := by
            intro stage s hs
            rw [runStage_of_sequential (hsequential task (mem_of_find hfind))]
            exact runEach_spec (Q := Grounded tasks hostName)
              (fun name _ s hs => ih name (hfit.push hstack hfind) hs.1 hs.2) hs
          obtain ⟨code, s₁, hdeps, hs₁, hwaited⟩ := hstage .dependsOn (s.mark taskName .running)
            ⟨hrunning.push, hearned.mark fun h => nomatch h⟩
          rw [hdeps, bind_some]
          by_cases hcode : code = 0
          · rw [if_neg (not_not.2 hcode)]
            obtain ⟨code', s₂, hs₂, hbody⟩ := runBody_spec hostName outcomes task
              hs₁ hs₁ (hstage .next)
            rw [name_of_find hfind] at hbody
            rcases hbody with ⟨hcode', hbody⟩ | ⟨hcode', hnext, hbody⟩
            · refine ⟨code', _, hbody, ⟨hs₂.1.mark ?_, hs₂.2.mark ?_⟩, fun h => absurd h hcode'⟩
              · exact fun h => nomatch h
              · exact fun h => nomatch h
            · have hground : Grounded tasks hostName taskName := by
                refine .intro hfind hhost fun stage => ?_
                cases stage with
                | dependsOn => exact hwaited hcode
                | next => exact hnext
              refine ⟨code', _, hbody, ⟨hs₂.1.mark ?_, hs₂.2.mark fun _ => hground⟩, fun _ => hground⟩
              exact fun h => nomatch h
          · rw [if_pos hcode]
            refine ⟨1, _, rfl, ⟨hs₁.1.mark ?_, hs₁.2.mark ?_⟩, fun h => absurd h Int.one_ne_zero⟩
            · exact fun h => nomatch h
            · exact fun h => nomatch h
        · rw [if_neg hhost]
          exact ⟨1, _, rfl, hfailed, fun h => absurd h Int.one_ne_zero⟩

end Failure

/-- A run executes the tasks of the plan in its order, and fails where there is none. -/
theorem executionFollowsPlan (hsequential : Sequential tasks hostName) (root : Text) :
    (∀ order, taskExecutionOrder tasks hostName root = .ok order → root ≠ [] →
      (∀ name ∈ order, Completes tasks hostName outcomes name) →
      order.Nodup ∧ ∃ s, runTaskForManifest tasks hostName outcomes root = some (0, s) ∧
        s.executed = order) ∧
    ∀ message, taskExecutionOrder tasks hostName root = .error message →
      ∃ code s, runTaskForManifest tasks hostName outcomes root = some (code, s) ∧ code ≠ 0 := by
  have hfit : Fitting tasks (tasks.length + 1) [] :=
    ⟨nodup_nil, fun x hx => absurd hx not_mem_nil, by simp⟩
  constructor
  · intro order hplan hroot hcompletes
    have hstart : Synced tasks hostName [] [] ⟨fun _ => .notStarted, []⟩ := by
      constructor
      · exact fun x hx => absurd hx not_mem_nil
      · exact fun x hx => absurd hx not_mem_nil
      · exact fun _ _ _ => rfl
      · rfl
      · exact fun x hx => absurd hx not_mem_nil
    obtain ⟨s, hrun, hs⟩ := synced_run hsequential hcompletes hroot (fun _ hx => hx) hplan hstart
    exact ⟨(grown_append hplan).1.nodup nodup_nil, s, hrun, hs.executed⟩
  · intro message hplan
    have hrunning : OnlyRunning [] ⟨fun _ => .notStarted, []⟩ := fun _ h => nomatch h
    have hearned : Earned tasks hostName ⟨fun _ => .notStarted, []⟩ := fun _ h => nomatch h
    obtain ⟨code, s, hrun, -, hground⟩ := earned_run outcomes hsequential root hfit hrunning hearned
    refine ⟨code, s, hrun, fun hcode => ?_⟩
    obtain ⟨order, hok⟩ := append_ok (hground hcode) (fun z hz => absurd hz not_mem_nil) hfit []
    exact nomatch hplan.symm.trans hok

/-- A task that depends on `dependsOn` and runs `commands`. -/
def simpleTask (name : String) (dependsOn commands : List String) : TaskSpec where
  name := name.toList
  phase := []
  language := []
  chmodMode := []
  parallel := none
  dependsOn := dependsOn.map String.toList
  phaseDependsOn := []
  joinOn := []
  phaseJoinOn := []
  nextTasks := []
  nextPhases := []
  shellLines := []
  commands := commands.map String.toList
  supportedHosts := []
  unsupportedMessage := []
  hostOverrides := []

def allSucceed : Outcomes := ⟨fun _ => 0, fun _ _ => 0, fun _ => 0, fun _ => 0⟩

theorem testAfterBuild_followsPlan :
    (Sequential [simpleTask "test" ["build"] ["ctest"], simpleTask "build" [] ["ninja"]] []) ∧
    ∃ s, runTaskForManifest [simpleTask "test" ["build"] ["ctest"], simpleTask "build" [] ["ninja"]]
        [] allSucceed "test".toList = some (0, s) ∧ s.executed = ["build".toList, "test".toList] := by
  have hsequential : Sequential
      [simpleTask "test" ["build"] ["ctest"], simpleTask "build" [] ["ninja"]] [] := by
    unfold Sequential
    decide
  refine ⟨hsequential, ?_⟩
  refine (((executionFollowsPlan hsequential "test".toList).1
    ["build".toList, "test".toList] (by decide) (by decide) ?_).2)
  intro name hname task hfind
  have hcases : task = simpleTask "test" ["build"] ["ctest"] ∨ task = simpleTask "build" [] ["ninja"] := by
    simpa using mem_of_find hfind
  rcases hcases with rfl | rfl
  · refine ⟨fun stage => ?_, by decide, by decide, rfl⟩
    cases stage <;> decide
  · refine ⟨fun stage => ?_, by decide, by decide, rfl⟩
    cases stage <;> decide

/-- A task without commands is planned but fails, and so is one with an edge without a name. -/
theorem idleTask_plannedNotRun :
    (taskExecutionOrder [simpleTask "all" [] []] [] "all".toList = .ok ["all".toList] ∧
      (runTaskForManifest [simpleTask "all" [] []] [] allSucceed "all".toList).map Prod.fst = some 1) ∧
    taskExecutionOrder [simpleTask "all" [""] ["ninja"]] [] "all".toList = .ok ["all".toList] ∧
      (runTaskForManifest [simpleTask "all" [""] ["ninja"]] [] allSucceed "all".toList).map
        Prod.fst = some 1 := by
  decide

end Mlang.TaskAgreement
