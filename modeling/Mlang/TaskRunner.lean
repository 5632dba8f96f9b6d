import Mathlib
import Mlang.BracketedText

namespace Mlang.TaskSpecs

open BracketedText (Text)

structure HostOverride where
  phase : Text
  language : Text
  chmodMode : Text
  parallel : Option Bool
  dependsOn : List Text
  phaseDependsOn : List Text
  joinOn : List Text
  phaseJoinOn : List Text
  nextTasks : List Text
  nextPhases : List Text
  shellLines : List Text
  commands : List Text
  deriving DecidableEq

structure TaskSpec extends HostOverride where
  name : Text
  supportedHosts : List Text
  unsupportedMessage : Text
  hostOverrides : List (Text × HostOverride)
  deriving DecidableEq

def findTaskSpec (tasks : List TaskSpec) (taskName : Text) : Option TaskSpec :=
  tasks.find? fun task => task.name = taskName

def hostSupportedByTask (task : TaskSpec) (hostName : Text) : Bool :=
  task.supportedHosts.isEmpty || task.supportedHosts.contains hostName

def taskUnsupportedHostMessage (task : TaskSpec) (hostName : Text) : Text :=
  if task.unsupportedMessage ≠ [] then task.unsupportedMessage
  else
    "Task '".toList ++ task.name ++ "' does not support host '".toList ++ hostName ++ "'".toList ++
      if task.supportedHosts = [] then []
      else " (supported: ".toList ++ ", ".toList.intercalate task.supportedHosts ++ ")".toList

def TaskSpec.hostOverride (task : TaskSpec) (hostName : Text) : Option HostOverride :=
  task.hostOverrides.lookup hostName

def TaskSpec.extended (task : TaskSpec) (hostName : Text) (field : HostOverride → List Text) :
    List Text :=
  field task.toHostOverride ++ ((task.hostOverride hostName).map field).getD []

def TaskSpec.replaced {α : Type} [DecidableEq α] (task : TaskSpec) (hostName : Text) (unset : α)
    (field : HostOverride → α) : α :=
  match task.hostOverride hostName with
  | none => field task.toHostOverride
  | some override =>
    if field override = unset then field task.toHostOverride else field override

def appendUniqueStrings (dst src : List Text) : List Text :=
  src.foldl (fun dst value => if value = [] ∨ value ∈ dst then dst else dst ++ [value]) dst

abbrev TaskSpec.inPhases (task : TaskSpec) (phases : List Text) (hostName : Text) : Prop :=
  task.replaced hostName [] HostOverride.phase ≠ [] ∧
    task.replaced hostName [] HostOverride.phase ∈ phases

def taskNamesForPhases (tasks : List TaskSpec) (phases : List Text) (hostName : Text) : List Text :=
  tasks.foldl (fun names task =>
    if task.inPhases phases hostName ∧ task.name ∉ names then names ++ [task.name] else names) []

structure EffectiveTaskEdges where
  dependsOn : List Text
  next : List Text
  parallel : Bool
  deriving DecidableEq

def resolveEffectiveTaskEdges (task : TaskSpec) (tasks : List TaskSpec) (hostName : Text) :
    EffectiveTaskEdges :=
  let inPhases := fun phases => taskNamesForPhases tasks phases hostName
  let dependsOn := appendUniqueStrings (task.extended hostName HostOverride.dependsOn)
    (inPhases (task.extended hostName HostOverride.phaseDependsOn))
  let joinOn := appendUniqueStrings (task.extended hostName HostOverride.joinOn)
    (inPhases (task.extended hostName HostOverride.phaseJoinOn))
  { dependsOn := appendUniqueStrings dependsOn joinOn
    next := appendUniqueStrings (task.extended hostName HostOverride.nextTasks)
      (inPhases (task.extended hostName HostOverride.nextPhases))
    parallel := (task.replaced hostName none HostOverride.parallel).getD false }

end Mlang.TaskSpecs

namespace Mlang.TaskRunner

open BracketedText (Text)
open TaskSpecs

section Commands

inductive Command
  | generated
  | script
  | text (command : Text)
  deriving DecidableEq

variable (task : TaskSpec) (hostName : Text)

def effectiveShell : List Text := task.replaced hostName [] HostOverride.shellLines

def effectiveLanguage : Text := task.replaced hostName [] HostOverride.language

/-- The commands of a task: what its language and its script are turned into comes first. -/
def effectiveCommands : List Command :=
  (if effectiveLanguage task hostName = [] then [] else [.generated]) ++
    (if effectiveShell task hostName = [] then [] else [.script]) ++
    (task.replaced hostName [] HostOverride.commands).map .text

def preparesCommands : Bool :=
  effectiveShell task hostName ≠ [] || effectiveLanguage task hostName ≠ []

def changesPermissions : Bool := task.replaced hostName [] HostOverride.chmodMode ≠ []

end Commands

inductive Status
  | notStarted | running | succeeded | failed
  deriving DecidableEq

inductive Stage
  | dependsOn | next
  deriving DecidableEq

def Stage.names (edges : EffectiveTaskEdges) : Stage → List Text
  | .dependsOn => edges.dependsOn
  | .next => edges.next

/-- Where an invocation of `run_task_for_manifest_impl` stands. -/
inductive Point
  | entering
  | waiting
  | resolving
  | calling (stage : Stage) (rest : List Text)
  | awaiting (stage : Stage) (child : Nat) (rest : List Text)
  | launching (stage : Stage) (rest : List Text) (children : List Nat)
  | joining (stage : Stage) (children : List Nat)
  | preparing
  | commanding (number : Nat) (rest : List Command)
  | permitting
  | signing
  | draining (code : Int) (children : List Nat)
  | leaving (code : Int)
  | returned (code : Int)
  deriving DecidableEq

structure Invocation where
  task : Text
  taskStack : List Text
  point : Point
  deriving DecidableEq

/-- The invocations begun so far, the shared map, and each command started, with its task and its
place among the commands of the task. -/
structure State where
  invocations : List Invocation
  taskStates : Text → Status
  started : List (Text × Nat)

variable (tasks : List TaskSpec) (hostName : Text)

def edgesOf (name : Text) : EffectiveTaskEdges :=
  match findTaskSpec tasks name with
  | none => ⟨[], [], false⟩
  | some task => resolveEffectiveTaskEdges task tasks hostName

/-- What one step of an invocation does. -/
structure Move where
  point : Point
  marks : Option Status := none
  calls : Option Text := none
  starts : Option Nat := none

def beginStage (edges : EffectiveTaskEdges) (stage : Stage) : Point :=
  if edges.parallel = true ∧ 1 < (stage.names edges).length then
    .launching stage (stage.names edges) []
  else .calling stage (stage.names edges)

def afterStage : Stage → Point
  | .dependsOn => .preparing
  | .next => .signing

/-- A failed task of a stage; only a failed next task is recorded before the others are drained. -/
def abandonStage (children : List Nat) : Stage → Move
  | .dependsOn => { point := .draining 1 children }
  | .next => { point := .draining 1 children, marks := some .failed }

def returnedCode (invocations : List Invocation) (child : Nat) : Option Int :=
  match invocations[child]? with
  | some ⟨_, _, .returned code⟩ => some code
  | _ => none

def prepareCommands (task : TaskSpec) (rc : Int) : Move :=
  if preparesCommands task hostName = true ∧ rc ≠ 0 then { point := .leaving 1 }
  else if effectiveCommands task hostName = [] then { point := .leaving 1 }
  else { point := .commanding 0 (effectiveCommands task hostName) }

def changePermissions (task : TaskSpec) (edges : EffectiveTaskEdges) (rc : Int) : Move :=
  if changesPermissions task hostName = true ∧ rc ≠ 0 then
    { point := .leaving 1, marks := some .failed }
  else { point := beginStage edges .next }

/-- The next step of an invocation, where it is not blocked. `rc` is how the script, the command,
the permissions or the signature of the step turn out. -/
def move (invocations : List Invocation) (taskStates : Text → Status) (inv : Invocation)
    (rc : Int) : Option Move :=
  match inv.point with
  | .entering => some { point := if inv.task ∈ inv.taskStack then .returned 1 else .waiting }
  | .waiting =>
    match taskStates inv.task with
    | .running => none
    | .succeeded => some { point := .returned 0 }
    | .failed => some { point := .returned 1 }
    | .notStarted => some { point := .resolving, marks := some .running }
  | .resolving =>
    match findTaskSpec tasks inv.task with
    | none => some { point := .leaving (-1), marks := some .failed }
    | some task =>
      some { point := if hostSupportedByTask task hostName then
        beginStage (resolveEffectiveTaskEdges task tasks hostName) .dependsOn else .leaving 1 }
  | .calling stage [] => some { point := afterStage stage }
  | .calling stage (name :: rest) =>
    some { point := .awaiting stage invocations.length rest, calls := some name }
  | .awaiting stage child rest =>
    (returnedCode invocations child).map fun code =>
      if code = 0 then { point := .calling stage rest } else abandonStage [] stage
  | .launching stage [] children => some { point := .joining stage children }
  | .launching stage (name :: rest) children =>
    some { point := .launching stage rest (children ++ [invocations.length]), calls := some name }
  | .joining stage [] => some { point := afterStage stage }
  | .joining stage (child :: children) =>
    (returnedCode invocations child).map fun code =>
      if code = 0 then { point := .joining stage children } else abandonStage children stage
  | .preparing =>
    (findTaskSpec tasks inv.task).map fun task => prepareCommands hostName task rc
  | .commanding _ [] => some { point := .permitting }
  | .commanding number (_ :: rest) =>
    some (if rc = 0 then { point := .commanding (number + 1) rest, starts := some number }
      else { point := .leaving 1, marks := some .failed, starts := some number })
  | .permitting =>
    (findTaskSpec tasks inv.task).map fun task =>
      changePermissions hostName task (resolveEffectiveTaskEdges task tasks hostName) rc
  | .signing =>
    some (if rc = 0 then { point := .leaving 0, marks := some .succeeded }
      else { point := .leaving rc, marks := some .failed })
  | .draining code [] => some { point := .leaving code }
  | .draining code (child :: children) =>
    (returnedCode invocations child).map fun _ => { point := .draining code children }
  | .leaving code =>
    some { point := .returned code,
           marks := if taskStates inv.task = .running then some .failed else none }
  | .returned _ => none

def perform (s : State) (i : Nat) (inv : Invocation) (m : Move) : State where
  invocations := s.invocations.set i { inv with point := m.point } ++
    (m.calls.map fun name => ⟨name, inv.taskStack ++ [inv.task], .entering⟩).toList
  taskStates :=
    match m.marks with
    | none => s.taskStates
    | some status => Function.update s.taskStates inv.task status
  started := s.started ++ (m.starts.map fun number => (inv.task, number)).toList

/-- Invocation `i` takes a step. -/
def step (s : State) (i : Nat) (rc : Int) : Option State :=
  (s.invocations[i]?).bind fun inv =>
    (move tasks hostName s.invocations s.taskStates inv rc).map (perform s i inv)

def initial (root : Text) : State := ⟨[⟨root, [], .entering⟩], fun _ => .notStarted, []⟩

def Steps (s s' : State) : Prop := ∃ i rc, step tasks hostName s i rc = some s'

def Reachable (root : Text) : State → Prop :=
  Relation.ReflTransGen (Steps tasks hostName) (initial root)

def run : List (Nat × Int) → State → Option State
  | [], s => some s
  | (i, rc) :: schedule, s => (step tasks hostName s i rc).bind (run schedule)

variable {tasks hostName}

theorem reachable_run {root : Text} {s s' : State} {schedule : List (Nat × Int)}
    (hs : Reachable tasks hostName root s) (h : run tasks hostName schedule s = some s') :
    Reachable tasks hostName root s' := by
  induction schedule generalizing s with
  | nil => exact Option.some.inj h ▸ hs
  | cons e schedule ih =>
    obtain ⟨t, ht, h⟩ := Option.bind_eq_some_iff.1 h
    exact ih (hs.tail ⟨e.1, e.2, ht⟩) h

end Mlang.TaskRunner
