import Mlang.TaskRunner

namespace Mlang.TaskSafety

open BracketedText (Text)
open TaskSpecs TaskRunner List Option

variable {tasks : List TaskSpec} {hostName : Text}

def owns : Point → Bool
  | .entering | .waiting | .returned _ => false
  | _ => true

/-- The status of the task is no longer `running`, or may not be. -/
def settled : Point → Bool
  | .draining _ _ | .leaving _ => true
  | _ => false

def children : Point → List Nat
  | .awaiting _ child _ => [child]
  | .launching _ _ children | .joining _ children | .draining _ children => children
  | _ => []

/-- What a stage has yet to bring. -/
def outstanding : Point → Option (Stage × List Nat × List Text)
  | .calling stage rest => some (stage, [], rest)
  | .awaiting stage child rest => some (stage, [child], rest)
  | .launching stage rest children => some (stage, children, rest)
  | .joining stage children => some (stage, children, [])
  | .preparing | .commanding _ _ => some (.dependsOn, [], [])
  | _ => none

def startedBefore : Point → Option Nat
  | .resolving | .preparing | .calling .dependsOn _ | .awaiting .dependsOn _ _
  | .launching .dependsOn _ _ | .joining .dependsOn _ => some 0
  | .commanding number _ => some number
  | _ => none

variable {a : Invocation} {m : Move} {i : Nat} {s : State} {name : Text}

section Moves

variable (tasks hostName) in
inductive Moves (invocations : List Invocation) (taskStates : Text → Status) (task : Text)
    (taskStack : List Text) : Point → Move → Prop
  | enter (h : task ∉ taskStack) : Moves invocations taskStates task taskStack .entering
      { point := .waiting }
  | decline {p code} (hp : p = .entering ∨ p = .waiting)
      (h : code = 0 → taskStates task = .succeeded) : Moves invocations taskStates task taskStack p
      { point := .returned code }
  | acquire (h : taskStates task = .notStarted) :
      Moves invocations taskStates task taskStack .waiting
      { point := .resolving, marks := some .running }
  | start {p stage} (htask : findTaskSpec tasks task ≠ none)
      (hp : p = .resolving ∧ stage = .dependsOn ∨ p = .permitting ∧ stage = .next) :
      Moves invocations taskStates task taskStack p
      { point := beginStage (edgesOf tasks hostName task) stage }
  | call {stage name rest} : Moves invocations taskStates task taskStack (.calling stage (name :: rest))
      { point := .awaiting stage invocations.length rest, calls := some name }
  | resume {stage child rest} (h : returnedCode invocations child = some 0) :
      Moves invocations taskStates task taskStack (.awaiting stage child rest)
      { point := .calling stage rest }
  | launch {stage name rest children} :
      Moves invocations taskStates task taskStack (.launching stage (name :: rest) children)
      { point := .launching stage rest (children ++ [invocations.length]), calls := some name }
  | launched {stage children} :
      Moves invocations taskStates task taskStack (.launching stage [] children)
      { point := .joining stage children }
  | join {stage child children} (h : returnedCode invocations child = some 0) :
      Moves invocations taskStates task taskStack (.joining stage (child :: children))
      { point := .joining stage children }
  | finish {p stage} (hp : p = .calling stage [] ∨ p = .joining stage []) :
      Moves invocations taskStates task taskStack p { point := afterStage stage }
  | prepare {commands} : Moves invocations taskStates task taskStack .preparing
      { point := .commanding 0 commands }
  | command {number c rest} :
      Moves invocations taskStates task taskStack (.commanding number (c :: rest))
      { point := .commanding (number + 1) rest, starts := some number }
  | permit {number} : Moves invocations taskStates task taskStack (.commanding number [])
      { point := .permitting }
  | fail {p code marks starts} (hp : owns p = true) (hsettled : settled p = false)
      (hchildren : children p = []) (hcode : code ≠ 0) (hmarks : marks = none ∨ marks = some .failed)
      (hstarts : starts = none ∨ ∃ number c rest, p = .commanding number (c :: rest) ∧
        starts = some number) : Moves invocations taskStates task taskStack p
      { point := .leaving code, marks := marks, starts := starts }
  | abandon {p stage child children} (h : (returnedCode invocations child).isSome = true)
      (hp : (∃ rest, p = .awaiting stage child rest ∧ children = []) ∨
        p = .joining stage (child :: children)) : Moves invocations taskStates task taskStack p
      (abandonStage children stage)
  | complete : Moves invocations taskStates task taskStack .signing
      { point := .leaving 0, marks := some .succeeded }
  | drain {code child children} (h : (returnedCode invocations child).isSome = true) :
      Moves invocations taskStates task taskStack (.draining code (child :: children))
      { point := .draining code children }
  | drained {code} : Moves invocations taskStates task taskStack (.draining code [])
      { point := .leaving code }
  | release {code} : Moves invocations taskStates task taskStack (.leaving code)
      { point := .returned code,
        marks := if taskStates task = .running then some .failed else none }

variable {invocations : List Invocation} {taskStates : Text → Status} {rc : Int}

theorem edgesOf_eq {task : TaskSpec} (h : findTaskSpec tasks name = some task) :
    edgesOf tasks hostName name = resolveEffectiveTaskEdges task tasks hostName := by
  rw [edgesOf, h]

theorem moves_of_move (h : move tasks hostName invocations taskStates a rc = some m) :
    Moves tasks hostName invocations taskStates a.task a.taskStack a.point m := by
  unfold move at h
  split at h
  case h_1 hp =>
    cases h
    rw [hp]
    split_ifs with hcycle
    · exact .decline (.inl rfl) fun h => absurd h (by decide)
    · exact .enter hcycle
  case h_2 hp =>
    rw [hp]
    cases hstatus : taskStates a.task with
    | running => rw [hstatus] at h; cases h
    | succeeded =>
      rw [hstatus] at h
      cases h
      exact .decline (.inr rfl) fun _ => hstatus
    | failed =>
      rw [hstatus] at h
      cases h
      exact .decline (.inr rfl) fun h => absurd h (by decide)
    | notStarted =>
      rw [hstatus] at h
      cases h
      exact .acquire hstatus
  case h_3 hp =>
    rw [hp]
    cases htask : findTaskSpec tasks a.task with
    | none =>
      rw [htask] at h
      cases h
      exact .fail rfl rfl rfl (by decide) (.inr rfl) (.inl rfl)
    | some task =>
      rw [htask] at h
      cases h
      split_ifs with hsupported
      · rw [← edgesOf_eq htask]
        exact .start (htask ▸ some_ne_none _) (.inl ⟨rfl, rfl⟩)
      · exact .fail rfl rfl rfl (by decide) (.inl rfl) (.inl rfl)
  case h_4 stage hp =>
    cases h
    exact .finish (.inl hp)
  case h_5 hp =>
    cases h
    rw [hp]
    exact .call
  case h_6 stage child rest hp =>
    rw [hp]
    obtain ⟨code, hcode, rfl⟩ := map_eq_some_iff.1 h
    split_ifs with hzero
    · exact .resume (hzero ▸ hcode)
    · exact .abandon (isSome_iff_exists.2 ⟨code, hcode⟩) (.inl ⟨rest, rfl, rfl⟩)
  case h_7 hp =>
    cases h
    rw [hp]
    exact .launched
  case h_8 hp =>
    cases h
    rw [hp]
    exact .launch
  case h_9 hp =>
    cases h
    exact .finish (.inr hp)
  case h_10 stage child children hp =>
    rw [hp]
    obtain ⟨code, hcode, rfl⟩ := map_eq_some_iff.1 h
    split_ifs with hzero
    · exact .join (hzero ▸ hcode)
    · exact .abandon (isSome_iff_exists.2 ⟨code, hcode⟩) (.inr rfl)
  case h_11 hp =>
    rw [hp]
    obtain ⟨task, -, rfl⟩ := map_eq_some_iff.1 h
    unfold prepareCommands
    split_ifs
    · exact .fail rfl rfl rfl (by decide) (.inl rfl) (.inl rfl)
    · exact .fail rfl rfl rfl (by decide) (.inl rfl) (.inl rfl)
    · exact .prepare
  case h_12 hp =>
    cases h
    rw [hp]
    exact .permit
  case h_13 number c rest hp =>
    cases h
    rw [hp]
    split_ifs
    · exact .command
    · exact .fail rfl rfl rfl (by decide) (.inr rfl) (.inr ⟨number, c, rest, rfl, rfl⟩)
  case h_14 hp =>
    rw [hp]
    obtain ⟨task, htask, rfl⟩ := map_eq_some_iff.1 h
    unfold changePermissions
    split_ifs
    · exact .fail rfl rfl rfl (by decide) (.inr rfl) (.inl rfl)
    · rw [← edgesOf_eq htask]
      exact .start (htask ▸ some_ne_none _) (.inr ⟨rfl, rfl⟩)
  case h_15 hp =>
    cases h
    rw [hp]
    split_ifs with hrc
    · exact .complete
    · exact .fail rfl rfl rfl hrc (.inr rfl) (.inl rfl)
  case h_16 hp =>
    cases h
    rw [hp]
    exact .drained
  case h_17 hp =>
    rw [hp]
    obtain ⟨code, hcode, rfl⟩ := map_eq_some_iff.1 h
    exact .drain (isSome_iff_exists.2 ⟨code, hcode⟩)
  case h_18 hp =>
    cases h
    rw [hp]
    exact .release
  case h_19 => cases h

theorem step_eq_some {s' : State} (h : step tasks hostName s i rc = some s') : ∃ a m,
    s.invocations[i]? = some a ∧ Moves tasks hostName s.invocations s.taskStates a.task a.taskStack a.point m
    ∧ s' = perform s i a m := by
  obtain ⟨a, ha, h⟩ := bind_eq_some_iff.1 h
  obtain ⟨m, hm, rfl⟩ := map_eq_some_iff.1 h
  exact ⟨a, m, ha, moves_of_move hm, rfl⟩

end Moves

def Called (s : State) (child : Nat) (name : Text) : Prop :=
  ∃ inv, s.invocations[child]? = some inv ∧ inv.task = name

/-- Of the tasks of a stage, all have succeeded but those called and not joined, and the rest. -/
def Upheld (s : State) (names : List Text) (children : List Nat) (rest : List Text) : Prop :=
  ∃ done called, names = done ++ called ++ rest ∧ (∀ name ∈ done, s.taskStates name = .succeeded) ∧
    List.Forall₂ (Called s) children called

structure Invariant (tasks : List TaskSpec) (hostName : Text) (s : State) : Prop where
  owner : ∀ (i j : Nat) (a b : Invocation), s.invocations[i]? = some a → s.invocations[j]? = some b → a.task = b.task →
    owns a.point = true → owns b.point = true → i = j
  begun : ∀ a ∈ s.invocations, owns a.point = true → s.taskStates a.task ≠ .notStarted
  running : ∀ a ∈ s.invocations, owns a.point = true → settled a.point = false →
    s.taskStates a.task = .running
  success : ∀ a ∈ s.invocations, a.point = .leaving 0 ∨ a.point = .returned 0 →
    s.taskStates a.task = .succeeded
  drained : ∀ a ∈ s.invocations, ∀ children, a.point ≠ .draining 0 children
  upheld : ∀ a ∈ s.invocations, ∀ stage children rest,
    outstanding a.point = some (stage, children, rest) →
      Upheld s (stage.names (edgesOf tasks hostName a.task)) children rest
  logged : ∀ e ∈ s.started, s.taskStates e.1 ≠ .notStarted
  numbered : ∀ a ∈ s.invocations, ∀ bound, startedBefore a.point = some bound →
    ∀ n, (a.task, n) ∈ s.started → n < bound
  once : s.started.Nodup

theorem invariant_initial (root : Text) : Invariant tasks hostName (initial root) where
  owner := by
    intro i j a b ha hb _ howns
    obtain ⟨rfl, rfl⟩ : i = 0 ∧ a = ⟨root, [], .entering⟩ := by
      cases i with
      | zero => exact ⟨rfl, (some.inj ha).symm⟩
      | succ i => simp [initial] at ha
    exact absurd howns Bool.false_ne_true
  begun := by simp [initial, owns]
  running := by simp [initial, owns]
  success := by simp [initial]
  drained := by simp [initial]
  upheld := by simp [initial, outstanding]
  logged := by simp [initial]
  numbered := by simp [initial]
  once := nodup_nil

variable {b : Invocation} {j : Nat} {e : Text × Nat}

theorem get_perform (ha : s.invocations[i]? = some a) (hb : (perform s i a m).invocations[j]? = some b) :
    (j = i ∧ b = { a with point := m.point }) ∨ (j ≠ i ∧ s.invocations[j]? = some b) ∨
      (j = s.invocations.length ∧ ∃ name, m.calls = some name ∧
        b = ⟨name, a.taskStack ++ [a.task], .entering⟩) := by
  have hlen := (List.getElem?_eq_some_iff.1 ha).1
  simp only [perform] at hb
  rcases lt_trichotomy j s.invocations.length with hj | rfl | hj
  · rw [getElem?_append_left (by simpa using hj), getElem?_set] at hb
    split_ifs at hb with hij
    · exact .inl ⟨hij.symm, (some.inj hb).symm⟩
    · exact .inr (.inl ⟨Ne.symm hij, hb⟩)
  · refine .inr (.inr ⟨rfl, ?_⟩)
    rw [getElem?_append_right (by simp)] at hb
    cases hcalls : m.calls with
    | none => simp [hcalls] at hb
    | some name => exact ⟨name, rfl, by simpa [hcalls, eq_comm] using hb⟩
  · rw [getElem?_eq_none] at hb
    · cases hb
    · cases hcalls : m.calls <;> simp <;> omega

theorem perform_get_self (ha : s.invocations[i]? = some a) :
    (perform s i a m).invocations[i]? = some { a with point := m.point } := by
  have hlen := (List.getElem?_eq_some_iff.1 ha).1
  rw [perform, getElem?_append_left (by simpa using hlen), getElem?_set_self hlen]

theorem perform_get_ne (hb : s.invocations[j]? = some b) (hne : j ≠ i) :
    (perform s i a m).invocations[j]? = some b := by
  have hlen := (List.getElem?_eq_some_iff.1 hb).1
  rw [perform, getElem?_append_left (by simpa using hlen), getElem?_set_ne hne.symm, hb]

theorem perform_get_new (hcalls : m.calls = some name) :
    (perform s i a m).invocations[s.invocations.length]? =
    some ⟨name, a.taskStack ++ [a.task], .entering⟩ := by
  rw [perform, getElem?_append_right (by simp), hcalls]
  simp

theorem perform_taskStates (t : Text) : (perform s i a m).taskStates t =
    if t = a.task then m.marks.getD (s.taskStates t) else s.taskStates t := by
  rw [perform]
  cases m.marks with
  | none => simp
  | some status => simp [Function.update_apply]

theorem mem_perform_started : e ∈ (perform s i a m).started ↔ e ∈ s.started ∨ ∃ n, m.starts = some n ∧
    e = (a.task, n) := by
  rw [perform]
  cases m.starts with
  | none => simp
  | some n => simp

variable {children : List Nat} {rest : List Text} {child : Nat}

variable (hI : Invariant tasks hostName s) (ha : s.invocations[i]? = some a)
  (hm : Moves tasks hostName s.invocations s.taskStates a.task a.taskStack a.point m)

include hm in
theorem owns_cases (howns : owns m.point = true) :
    owns a.point = true ∨ (s.taskStates a.task = .notStarted ∧ m.marks = some .running) := by
  generalize hp : a.point = p at hm
  cases hm with
  | enter | decline | release => cases howns
  | acquire h => exact .inr ⟨h, rfl⟩
  | start _ h => rcases h with ⟨rfl, -⟩ | ⟨rfl, -⟩ <;> exact .inl rfl
  | finish h => rcases h with rfl | rfl <;> exact .inl rfl
  | fail h => exact .inl h
  | abandon _ h => rcases h with ⟨rest, rfl, -⟩ | rfl <;> exact .inl rfl
  | call | resume | launch | launched | join | prepare | command | permit | complete | drain
  | drained => exact .inl rfl

include hI ha hm in
theorem marks_cases {status : Status} (hmarks : m.marks = some status) :
    (s.taskStates a.task = .notStarted ∧ status = .running) ∨
      (owns a.point = true ∧ s.taskStates a.task = .running ∧
        (status = .failed ∨ status = .succeeded)) := by
  have hrunning := hI.running a (mem_of_getElem? ha)
  generalize hp : a.point = p at hm
  rw [hp] at hrunning
  cases hm with
  | acquire h => exact .inl ⟨h, (some.inj hmarks).symm⟩
  | fail hown hsettled _ _ hfail =>
    rcases hfail with rfl | rfl
    · cases hmarks
    · exact .inr ⟨hown, hrunning hown hsettled, .inl (some.inj hmarks).symm⟩
  | @abandon p stage child children _ h =>
    cases stage with
    | dependsOn => cases hmarks
    | next =>
      rcases h with ⟨rest, rfl, -⟩ | rfl <;>
        exact .inr ⟨rfl, hrunning rfl rfl, .inl (some.inj hmarks).symm⟩
  | complete => exact .inr ⟨rfl, hrunning rfl rfl, .inr (some.inj hmarks).symm⟩
  | release =>
    dsimp only at hmarks
    split_ifs at hmarks with h
    exact .inr ⟨rfl, h, .inl (some.inj hmarks).symm⟩
  | enter | decline | start | call | resume | launch | launched | join | finish | prepare
  | command | permit | drain | drained => cases hmarks

include hI ha hm in
theorem stable {t : Text} (h : s.taskStates t = .succeeded) :
    (perform s i a m).taskStates t = .succeeded := by
  rw [perform_taskStates]
  split_ifs with ht
  · subst ht
    cases hmarks : m.marks with
    | none => exact h
    | some status =>
      rcases marks_cases hI ha hm hmarks with ⟨hstatus, -⟩ | ⟨-, hstatus, -⟩ <;>
        rw [h] at hstatus <;> cases hstatus
  · exact h

include hI ha hm in
theorem other_status (hb : s.invocations[j]? = some b) (hne : j ≠ i) (howns : owns b.point = true) :
    (perform s i a m).taskStates b.task = s.taskStates b.task := by
  rw [perform_taskStates]
  split_ifs with ht
  · cases hmarks : m.marks with
    | none => rfl
    | some status =>
      rcases marks_cases hI ha hm hmarks with ⟨hstatus, -⟩ | ⟨hown, -, -⟩
      · exact absurd (ht ▸ hstatus) (hI.begun b (mem_of_getElem? hb) howns)
      · exact absurd (hI.owner j i b a hb ha ht howns hown) hne
  · rfl

theorem self_status : (perform s i a m).taskStates a.task = m.marks.getD (s.taskStates a.task) := by
  rw [perform_taskStates, if_pos rfl]

variable (hb : (perform s i a m).invocations[j]? = some b)
include hb

include hI ha hm in
theorem owner_perform {k : Nat} {c : Invocation} (hc : (perform s i a m).invocations[k]? = some c) (htask : b.task = c.task) (hownb : owns b.point = true)
    (hownc : owns c.point = true) : j = k := by
  have hself : ∀ (l : Nat) (d : Invocation), s.invocations[l]? = some d → l ≠ i →
      d.task = a.task → owns d.point = true → owns m.point = true → False := by
    intro l d hd hne ht hown hmown
    rcases owns_cases hm hmown with howna | ⟨hstatus, -⟩
    · exact hne (hI.owner l i d a hd ha ht hown howna)
    · exact hI.begun d (mem_of_getElem? hd) hown (ht ▸ hstatus)
  rcases get_perform ha hb with ⟨rfl, rfl⟩ | ⟨hj, hb'⟩ | ⟨-, name, -, rfl⟩
  · rcases get_perform ha hc with ⟨rfl, rfl⟩ | ⟨hk, hc'⟩ | ⟨-, name, -, rfl⟩
    · rfl
    · exact (hself k c hc' hk htask.symm hownc hownb).elim
    · cases hownc
  · rcases get_perform ha hc with ⟨rfl, rfl⟩ | ⟨hk, hc'⟩ | ⟨-, name, -, rfl⟩
    · exact (hself j b hb' hj htask hownb hownc).elim
    · exact hI.owner j k b c hb' hc' htask hownb hownc
    · cases hownc
  · cases hownb

include hI ha hm in
theorem begun_perform (howns : owns b.point = true) :
    (perform s i a m).taskStates b.task ≠ .notStarted := by
  rcases get_perform ha hb with ⟨rfl, rfl⟩ | ⟨hj, hb'⟩ | ⟨-, name, -, rfl⟩
  · rw [self_status]
    cases hmarks : m.marks with
    | none =>
      rcases owns_cases hm howns with howna | ⟨-, hmark⟩
      · exact hI.begun a (mem_of_getElem? ha) howna
      · rw [hmarks] at hmark; cases hmark
    | some status =>
      rcases marks_cases hI ha hm hmarks with ⟨-, rfl⟩ | ⟨-, -, rfl | rfl⟩ <;>
        exact Status.noConfusion
  · rw [other_status hI ha hm hb' hj howns]
    exact hI.begun b (mem_of_getElem? hb') howns
  · cases howns

include hI ha hm in
theorem running_perform (howns : owns b.point = true)
    (hsettled : settled b.point = false) : (perform s i a m).taskStates b.task = .running := by
  rcases get_perform ha hb with ⟨rfl, rfl⟩ | ⟨hj, hb'⟩ | ⟨-, name, -, rfl⟩
  · rw [self_status]
    have hrunning := hI.running a (mem_of_getElem? ha)
    dsimp only at howns hsettled
    generalize hp : a.point = p at hm
    rw [hp] at hrunning
    cases hm with
    | enter | decline | release => cases howns
    | acquire => rfl
    | start _ h => rcases h with ⟨rfl, -⟩ | ⟨rfl, -⟩ <;> exact hrunning rfl rfl
    | finish h => rcases h with rfl | rfl <;> exact hrunning rfl rfl
    | fail => cases hsettled
    | @abandon p stage => cases stage <;> cases hsettled
    | call | resume | launch | launched | join | prepare | command | permit =>
      exact hrunning rfl rfl
    | complete | drain | drained => cases hsettled
  · rw [other_status hI ha hm hb' hj howns]
    exact hI.running b (mem_of_getElem? hb') howns hsettled
  · cases howns

include hI ha hm in
theorem success_perform (hpoint : b.point = .leaving 0 ∨ b.point = .returned 0) :
    (perform s i a m).taskStates b.task = .succeeded := by
  rcases get_perform ha hb with ⟨rfl, rfl⟩ | ⟨hj, hb'⟩ | ⟨-, name, -, rfl⟩
  · have hmem := mem_of_getElem? ha
    have hsuccess := hI.success a hmem
    have hdrained := hI.drained a hmem
    rw [self_status]
    dsimp only at hpoint
    generalize hp : a.point = p at hm
    rw [hp] at hsuccess hdrained
    cases hm with
    | decline _ h =>
      rcases hpoint with hpoint | hpoint
      · cases hpoint
      · exact h (Point.returned.inj hpoint)
    | complete => rfl
    | fail _ _ _ hcode =>
      rcases hpoint with hpoint | hpoint
      · exact absurd (Point.leaving.inj hpoint) hcode
      · cases hpoint
    | @abandon p stage =>
      rcases hpoint with hpoint | hpoint <;> cases stage <;> cases hpoint
    | drained =>
      rcases hpoint with hpoint | hpoint
      · obtain rfl := Point.leaving.inj hpoint
        exact absurd rfl (hdrained [])
      · cases hpoint
    | release =>
      rcases hpoint with hpoint | hpoint
      · cases hpoint
      · obtain rfl := Point.returned.inj hpoint
        have hstatus := hsuccess (.inl rfl)
        simp [hstatus]
    | start _ h => rcases hpoint with hpoint | hpoint <;> unfold beginStage at hpoint <;>
        split_ifs at hpoint
    | @finish p stage h =>
      rcases hpoint with hpoint | hpoint <;> cases stage <;> cases hpoint
    | enter | acquire | call | resume | launch | launched | join | prepare | command | permit
    | drain => rcases hpoint with hpoint | hpoint <;> cases hpoint
  · exact stable hI ha hm (hI.success b (mem_of_getElem? hb') hpoint)
  · rcases hpoint with hpoint | hpoint <;> cases hpoint

include hI ha hm in
theorem drained_perform (children : List Nat) :
    b.point ≠ .draining 0 children := by
  rcases get_perform ha hb with ⟨rfl, rfl⟩ | ⟨hj, hb'⟩ | ⟨-, name, -, rfl⟩
  · have hdrained := hI.drained a (mem_of_getElem? ha)
    intro hpoint
    dsimp only at hpoint
    generalize hp : a.point = p at hm
    rw [hp] at hdrained
    cases hm with
    | fail => cases hpoint
    | @abandon p stage => cases stage <;> cases hpoint
    | drain =>
      obtain ⟨rfl, -⟩ := Point.draining.inj hpoint
      exact hdrained _ rfl
    | start _ h => unfold beginStage at hpoint; split_ifs at hpoint
    | @finish p stage h => cases stage <;> cases hpoint
    | enter | decline | acquire | call | resume | launch | launched | join | prepare | command
    | permit | complete | drained | release => cases hpoint
  · exact hI.drained b (mem_of_getElem? hb') children
  · exact Point.noConfusion

omit hb

variable {n bound : Nat} {edges : EffectiveTaskEdges} {stage : Stage}

theorem called_perform (ha : s.invocations[i]? = some a) (h : Called s child name) :
    Called (perform s i a m) child name := by
  obtain ⟨b, hb, rfl⟩ := h
  by_cases hi : child = i
  · subst hi
    obtain rfl := some.inj (ha.symm.trans hb)
    exact ⟨_, perform_get_self ha, rfl⟩
  · exact ⟨b, perform_get_ne hb hi, rfl⟩

theorem called_new (hcalls : m.calls = some name) : Called (perform s i a m) s.invocations.length name :=
  ⟨_, perform_get_new hcalls, rfl⟩

theorem called_returned (hI : Invariant tasks hostName s) (h : Called s child name)
    (hcode : returnedCode s.invocations child = some 0) : s.taskStates name = .succeeded := by
  obtain ⟨b, hb, rfl⟩ := h
  obtain ⟨task, taskStack, point⟩ := b
  simp only [returnedCode, hb] at hcode
  split at hcode
  · rename_i heq
    obtain ⟨-, -, rfl⟩ := Invocation.mk.inj (some.inj heq)
    cases hcode
    exact hI.success _ (mem_of_getElem? hb) (.inr rfl)
  · cases hcode

namespace Upheld

theorem begin (s : State) (names : List Text) : Upheld s names [] names :=
  ⟨[], [], rfl, by simp, .nil⟩

variable {names : List Text}

theorem call (h : Upheld s names children (name :: rest)) (hcalled : Called s child name) :
    Upheld s names (children ++ [child]) rest := by
  obtain ⟨done, called, rfl, hdone, hall⟩ := h
  exact ⟨done, called ++ [name], by simp, hdone, rel_append hall (.cons hcalled .nil)⟩

theorem join (h : Upheld s names (child :: children) rest) (hI : Invariant tasks hostName s)
    (hcode : returnedCode s.invocations child = some 0) : Upheld s names children rest := by
  obtain ⟨done, called, rfl, hdone, hall⟩ := h
  cases hall with
  | @cons _ name _ called hcalled hall =>
    refine ⟨done ++ [name], called, by simp, fun n hn => ?_, hall⟩
    rcases mem_append.1 hn with hn | hn
    · exact hdone n hn
    · exact mem_singleton.1 hn ▸ called_returned hI hcalled hcode

theorem called (h : Upheld s names children rest) (hchild : child ∈ children) :
    ∃ name ∈ names, Called s child name := by
  obtain ⟨done, called, rfl, -, hall⟩ := h
  suffices hmem : ∃ name ∈ called, Called s child name by
    obtain ⟨name, hname, hcalled⟩ := hmem
    exact ⟨name, mem_append_left _ (mem_append_right _ hname), hcalled⟩
  induction hall with
  | nil => cases hchild
  | cons hcalled _ ih =>
    rcases mem_cons.1 hchild with rfl | hchild
    · exact ⟨_, mem_cons_self, hcalled⟩
    · obtain ⟨name, hname, hcalled⟩ := ih hchild
      exact ⟨name, mem_cons_of_mem _ hname, hcalled⟩

theorem all (h : Upheld s names [] []) : ∀ name ∈ names, s.taskStates name = .succeeded := by
  obtain ⟨done, called, rfl, hdone, hall⟩ := h
  cases hall
  simpa using hdone

theorem perform (h : Upheld s names children rest) (hI : Invariant tasks hostName s)
    (ha : s.invocations[i]? = some a)
    (hm : Moves tasks hostName s.invocations s.taskStates a.task a.taskStack a.point m) :
    Upheld (perform s i a m) names children rest := by
  obtain ⟨done, called, hnames, hdone, hall⟩ := h
  exact ⟨done, called, hnames, fun n hn => stable hI ha hm (hdone n hn),
    hall.imp fun _ _ => called_perform ha⟩

end Upheld

theorem outstanding_beginStage {stage' : Stage}
    (h : outstanding (beginStage edges stage) = some (stage', children, rest)) :
    stage = stage' ∧ children = [] ∧ rest = stage.names edges := by
  unfold beginStage at h
  split_ifs at h <;> cases h <;> exact ⟨rfl, rfl, rfl⟩

include hI ha hm in
theorem upheld_perform (hb : (perform s i a m).invocations[j]? = some b)
    (hout : outstanding b.point = some (stage, children, rest)) :
    Upheld (perform s i a m) (stage.names (edgesOf tasks hostName b.task)) children rest := by
  rcases get_perform ha hb with ⟨rfl, rfl⟩ | ⟨hj, hb'⟩ | ⟨-, name, -, rfl⟩
  · have hkeep := fun {names children rest} (h : Upheld s names children rest) =>
      h.perform hI ha hm
    have hupheld := hI.upheld a (mem_of_getElem? ha)
    dsimp only at hout ⊢
    generalize hp : a.point = p at hm
    rw [hp] at hupheld
    cases hm with
    | enter | decline | acquire | permit | complete | drain | drained | release => cases hout
    | start =>
      obtain ⟨rfl, rfl, rfl⟩ := outstanding_beginStage hout
      exact .begin _ _
    | call =>
      cases hout
      exact (hkeep (hupheld _ _ _ rfl)).call (called_new rfl)
    | launch =>
      cases hout
      exact (hkeep (hupheld _ _ _ rfl)).call (called_new rfl)
    | resume hcode =>
      cases hout
      exact hkeep ((hupheld _ _ _ rfl).join hI hcode)
    | join hcode =>
      cases hout
      exact hkeep ((hupheld _ _ _ rfl).join hI hcode)
    | launched =>
      cases hout
      exact hkeep (hupheld _ _ _ rfl)
    | @finish p stage h =>
      cases stage with
      | next => cases hout
      | dependsOn =>
        cases hout
        rcases h with rfl | rfl <;> exact hkeep (hupheld _ _ _ rfl)
    | prepare | command =>
      cases hout
      exact hkeep (hupheld _ _ _ rfl)
    | fail => cases hout
    | @abandon p stage => cases stage <;> cases hout
  · exact (hI.upheld b (mem_of_getElem? hb') _ _ _ hout).perform hI ha hm
  · cases hout

include hm in
theorem starts_cases (hstarts : m.starts = some n) : ∃ c rest, a.point = .commanding n (c :: rest) := by
  generalize hp : a.point = p at hm
  cases hm with
  | command =>
    cases hstarts
    exact ⟨_, _, rfl⟩
  | fail _ _ _ _ _ h =>
    rcases h with rfl | ⟨number, c, rest, rfl, rfl⟩
    · cases hstarts
    · cases hstarts
      exact ⟨c, rest, rfl⟩
  | @abandon p stage => cases stage <;> cases hstarts
  | enter | decline | acquire | start | call | resume | launch | launched | join | finish | prepare
  | permit | complete | drain | drained | release => cases hstarts

theorem startedBefore_beginStage (h : startedBefore (beginStage edges stage) = some bound) :
    stage = .dependsOn ∧ bound = 0 := by
  unfold beginStage at h
  cases stage with
  | dependsOn => split_ifs at h <;> exact ⟨rfl, (some.inj h).symm⟩
  | next => split_ifs at h <;> cases h

include hm in
theorem startedBefore_cases (hbound : startedBefore m.point = some bound) :
    (m.starts = none ∧ startedBefore a.point = some bound) ∨
    (s.taskStates a.task = .notStarted ∧ m.starts = none) ∨
    (∃ n, m.starts = some n ∧ startedBefore a.point = some n ∧ bound = n + 1) := by
  generalize hp : a.point = p at hm
  cases hm with
  | acquire h => exact .inr (.inl ⟨h, rfl⟩)
  | start _ h =>
    obtain ⟨rfl, rfl⟩ := startedBefore_beginStage hbound
    rcases h with ⟨rfl, -⟩ | ⟨-, h⟩
    · exact .inl ⟨rfl, rfl⟩
    · cases h
  | @finish p stage h =>
    cases stage with
    | next => cases hbound
    | dependsOn => rcases h with rfl | rfl <;> exact .inl ⟨rfl, hbound⟩
  | command =>
    cases hbound
    exact .inr (.inr ⟨_, rfl, rfl, rfl⟩)
  | @call stage | @resume stage | @launch stage | @launched stage | @join stage =>
    cases stage with
    | next => cases hbound
    | dependsOn => exact .inl ⟨rfl, hbound⟩
  | prepare => exact .inl ⟨rfl, hbound⟩
  | fail => cases hbound
  | @abandon p stage => cases stage <;> cases hbound
  | enter | decline | permit | complete | drain | drained | release => cases hbound

include hI ha hm in
theorem logged_perform (he : e ∈ (perform s i a m).started) :
    (perform s i a m).taskStates e.1 ≠ .notStarted := by
  have hkeep : ∀ t, s.taskStates t ≠ .notStarted →
      (perform s i a m).taskStates t ≠ .notStarted := by
    intro t ht
    rw [perform_taskStates]
    split_ifs with heq
    · cases hmarks : m.marks with
      | none => exact ht
      | some status =>
        rcases marks_cases hI ha hm hmarks with ⟨-, rfl⟩ | ⟨-, -, rfl | rfl⟩ <;>
          exact Status.noConfusion
    · exact ht
  rcases mem_perform_started.1 he with he | ⟨n, hn, rfl⟩
  · exact hkeep _ (hI.logged e he)
  · obtain ⟨c, rest, hp⟩ := starts_cases hm hn
    exact hkeep _ (hI.begun a (mem_of_getElem? ha) (by rw [hp]; rfl))

theorem owns_of_startedBefore {p : Point} (h : startedBefore p = some bound) : owns p = true := by
  cases p with
  | entering | waiting | returned => cases h
  | resolving | calling | awaiting | launching | joining | preparing | commanding | permitting
  | signing | draining | leaving => rfl

include hI ha hm in
theorem numbered_perform (hb : (perform s i a m).invocations[j]? = some b)
    (hbound : startedBefore b.point = some bound) (hn : (b.task, n) ∈ (perform s i a m).started) :
    n < bound := by
  have hmem := mem_of_getElem? ha
  rcases get_perform ha hb with ⟨rfl, rfl⟩ | ⟨hj, hb'⟩ | ⟨-, name, -, rfl⟩
  · rcases startedBefore_cases hm hbound with ⟨hstarts, hbefore⟩ | ⟨hstatus, hstarts⟩ |
      ⟨k, hstarts, hbefore, rfl⟩
    · rcases mem_perform_started.1 hn with hn | ⟨k, hk, -⟩
      · exact hI.numbered a hmem bound hbefore n hn
      · rw [hstarts] at hk; cases hk
    · rcases mem_perform_started.1 hn with hn | ⟨k, hk, -⟩
      · exact absurd hstatus (hI.logged _ hn)
      · rw [hstarts] at hk; cases hk
    · rcases mem_perform_started.1 hn with hn | ⟨k', hk, heq⟩
      · exact Nat.lt_succ_of_lt (hI.numbered a hmem k hbefore n hn)
      · obtain rfl := some.inj (hstarts.symm.trans hk)
        obtain rfl := (Prod.mk.inj heq).2
        exact Nat.lt_succ_self _
  · rcases mem_perform_started.1 hn with hn | ⟨k, hk, heq⟩
    · exact hI.numbered b (mem_of_getElem? hb') bound hbound n hn
    · obtain ⟨c, rest, hp⟩ := starts_cases hm hk
      exact absurd (hI.owner j i b a hb' ha (Prod.mk.inj heq).1 (owns_of_startedBefore hbound)
        (by rw [hp]; rfl)) hj
  · cases hbound

include hI ha hm in
theorem once_perform : (perform s i a m).started.Nodup := by
  cases hstarts : m.starts with
  | none => simpa [perform, hstarts] using hI.once
  | some n =>
    have hlist : (perform s i a m).started = s.started ++ [(a.task, n)] := by
      simp [perform, hstarts]
    rw [hlist, nodup_append]
    refine ⟨hI.once, by simp, fun e he e' he' heq => ?_⟩
    obtain rfl := mem_singleton.1 he'
    subst heq
    obtain ⟨c, rest, hp⟩ := starts_cases hm hstarts
    have hlt := hI.numbered a (mem_of_getElem? ha) n (by rw [hp]; rfl) n he
    exact Nat.lt_irrefl n hlt

include hI ha hm in
theorem invariant_perform : Invariant tasks hostName (perform s i a m) where
  owner _ _ _ _ hb hc htask hownb hownc := owner_perform hI ha hm hb hc htask hownb hownc
  begun b hb howns := by
    obtain ⟨j, hj⟩ := mem_iff_getElem?.1 hb
    exact begun_perform hI ha hm hj howns
  running b hb howns hsettled := by
    obtain ⟨j, hj⟩ := mem_iff_getElem?.1 hb
    exact running_perform hI ha hm hj howns hsettled
  success b hb hpoint := by
    obtain ⟨j, hj⟩ := mem_iff_getElem?.1 hb
    exact success_perform hI ha hm hj hpoint
  drained b hb children := by
    obtain ⟨j, hj⟩ := mem_iff_getElem?.1 hb
    exact drained_perform hI ha hm hj children
  upheld b hb _ _ _ hout := by
    obtain ⟨j, hj⟩ := mem_iff_getElem?.1 hb
    exact upheld_perform hI ha hm hj hout
  logged _ he := logged_perform hI ha hm he
  numbered b hb _ hbound _ hn := by
    obtain ⟨j, hj⟩ := mem_iff_getElem?.1 hb
    exact numbered_perform hI ha hm hj hbound hn
  once := once_perform hI ha hm

variable {root : Text} {s' : State}

theorem invariant_steps (hI : Invariant tasks hostName s) (h : Steps tasks hostName s s') :
    Invariant tasks hostName s' := by
  obtain ⟨i, rc, h⟩ := h
  obtain ⟨a, m, ha, hm, rfl⟩ := step_eq_some h
  exact invariant_perform hI ha hm

theorem invariant_reachable (h : Reachable tasks hostName root s) : Invariant tasks hostName s := by
  induction h with
  | refl => exact invariant_initial root
  | tail _ h ih => exact invariant_steps ih h

/-- In any order of the steps, each command of a task is started at most once, and only when all the
tasks that its task depends on have succeeded. -/
theorem commandsStarted_once_afterDependencies (hs : Reachable tasks hostName root s) :
    s.started.Nodup ∧
      ∀ i rc s', step tasks hostName s i rc = some s' → ∀ e ∈ s'.started, e ∉ s.started →
        ∀ task, findTaskSpec tasks e.1 = some task →
          ∀ name ∈ (resolveEffectiveTaskEdges task tasks hostName).dependsOn,
            s.taskStates name = .succeeded := by
  have hI := invariant_reachable hs
  refine ⟨hI.once, fun i rc s' h e he hnew task htask name hname => ?_⟩
  obtain ⟨a, m, ha, hm, rfl⟩ := step_eq_some h
  obtain ⟨n, hn, rfl⟩ := (mem_perform_started.1 he).resolve_left hnew
  obtain ⟨c, rest, hp⟩ := starts_cases hm hn
  have hupheld := hI.upheld a (mem_of_getElem? ha) .dependsOn [] [] (by rw [hp]; rfl)
  rw [edgesOf_eq htask] at hupheld
  exact hupheld.all name hname

def compileAndTest : List TaskSpec :=
  let plain : HostOverride := ⟨[], [], [], none, [], [], [], [], [], [], [], ["cc".toList]⟩
  [⟨plain, "compile".toList, [], [], []⟩,
    ⟨{ plain with dependsOn := ["compile".toList] }, "test".toList, [], [], []⟩]

def compileFirst : List (Nat × Int) :=
  (List.replicate 4 0 ++ List.replicate 11 1 ++ List.replicate 3 0).map fun i => (i, 0)

theorem compileAndTest_startedOnce : ∃ s s',
    run compileAndTest [] compileFirst (initial "test".toList) = some s ∧
    step compileAndTest [] s 0 0 = some s' ∧ ("test".toList, 0) ∈ s'.started ∧
    s.started.Nodup ∧ s.taskStates "compile".toList = .succeeded := by
  have hrun : ((run compileAndTest [] compileFirst (initial "test".toList)).bind fun s =>
      (step compileAndTest [] s 0 0).map fun s' => (s.started, s'.started)) =
      some ([("compile".toList, 0)], [("compile".toList, 0), ("test".toList, 0)]) := by decide
  obtain ⟨s, hs, hrun⟩ := bind_eq_some_iff.1 hrun
  obtain ⟨s', hs', hstarted⟩ := map_eq_some_iff.1 hrun
  obtain ⟨hbefore, hafter⟩ := Prod.mk.inj hstarted
  obtain ⟨honce, hready⟩ := commandsStarted_once_afterDependencies (reachable_run .refl hs)
  have hmem : ("test".toList, 0) ∈ s'.started := by rw [hafter]; decide
  have hnew : ("test".toList, 0) ∉ s.started := by rw [hbefore]; decide
  exact ⟨s, s', hs, hs', hmem, honce, hready 0 0 s' hs' _ hmem hnew
    (compileAndTest.get ⟨1, by decide⟩) (by decide) _ (by decide)⟩

end Mlang.TaskSafety
