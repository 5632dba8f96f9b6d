import Mlang.TaskRunner

namespace Mlang.TaskOrder

open BracketedText (Text)
open TaskSpecs TaskRunner

variable (tasks : List TaskSpec) (hostName : Text)

def appendEach (appendTask : Text → List Text → Except Text (List Text)) :
    List Text → List Text → Except Text (List Text)
  | [], order => .ok order
  | name :: rest, order => (appendTask name order).bind (appendEach appendTask rest)

/-- The tasks of `order` are those emitted so far. The first argument bounds the depth. -/
def appendTaskExecutionOrder : Nat → Text → List Text → List Text → Except Text (List Text)
  | 0, taskName, _, _ =>
    .error ("Detected cyclic task dependency while expanding '".toList ++ taskName ++ "'".toList)
  | depth + 1, taskName, stack, order =>
    if taskName = [] then .ok order
    else if taskName ∈ stack then
      .error ("Detected cyclic task dependency while expanding '".toList ++ taskName ++ "'".toList)
    else
      match findTaskSpec tasks taskName with
      | none => .error ("Task not found: ".toList ++ taskName)
      | some task =>
        if hostSupportedByTask task hostName then
          let edges := resolveEffectiveTaskEdges task tasks hostName
          let appendAll := appendEach fun name =>
            appendTaskExecutionOrder depth name (stack ++ [taskName])
          (appendAll edges.dependsOn order).bind fun order =>
            appendAll edges.next (if taskName ∈ order then order else order ++ [taskName])
        else .error (taskUnsupportedHostMessage task hostName)

def taskExecutionOrder (root : Text) : Except Text (List Text) :=
  appendTaskExecutionOrder tasks hostName (tasks.length + 1) root [] []

structure Outcomes where
  prepared : Text → Int
  command : Text → Command → Int
  permissions : Text → Int
  signed : Text → Int

structure RunState where
  taskStates : Text → Status
  executed : List Text

def RunState.mark (s : RunState) (taskName : Text) (status : Status) : RunState :=
  { s with taskStates := Function.update s.taskStates taskName status }

variable (outcomes : Outcomes)

def bodyStarts (task : TaskSpec) : Bool :=
  (!preparesCommands task hostName || outcomes.prepared task.name = 0) &&
    effectiveCommands task hostName ≠ []

def bodySucceeds (task : TaskSpec) : Bool :=
  (effectiveCommands task hostName).all (fun command => outcomes.command task.name command = 0) &&
    (!changesPermissions task hostName || outcomes.permissions task.name = 0)

def runEach (runTask : Text → RunState → Option (Int × RunState)) :
    List Text → RunState → Option (Int × RunState)
  | [], s => some (0, s)
  | name :: rest, s =>
    (runTask name s).bind fun result =>
      if result.1 = 0 then runEach runTask rest result.2 else some result

def runStage (runTask : Text → RunState → Option (Int × RunState)) (edges : EffectiveTaskEdges)
    (stage : Stage) (s : RunState) : Option (Int × RunState) :=
  if edges.parallel = true ∧ 1 < (stage.names edges).length then none
  else runEach runTask (stage.names edges) s

/-- What a task does after the tasks it depends on, where `runNext` runs those that follow it. -/
def runBody (task : TaskSpec) (runNext : RunState → Option (Int × RunState)) (s : RunState) :
    Option (Int × RunState) :=
  let failing := fun (s : RunState) code => some (code, s.mark task.name .failed)
  if bodyStarts hostName outcomes task then
    let s := { s with executed := s.executed ++ [task.name] }
    if bodySucceeds hostName outcomes task then
      (runNext s).bind fun result =>
        if result.1 ≠ 0 then failing result.2 1
        else if outcomes.signed task.name ≠ 0 then failing result.2 (outcomes.signed task.name)
        else some (0, result.2.mark task.name .succeeded)
    else failing s 1
  else failing s 1

/-- `run_task_for_manifest_impl`, one invocation at a time: no result where it waits for a task that
nobody finishes. The first argument bounds the depth. -/
def runTaskForManifestImpl : Nat → Text → List Text → RunState → Option (Int × RunState)
  | 0, _, _, _ => none
  | depth + 1, taskName, taskStack, s =>
    if taskName ∈ taskStack then some (1, s)
    else
      match s.taskStates taskName with
      | .running => none
      | .succeeded => some (0, s)
      | .failed => some (1, s)
      | .notStarted =>
        match findTaskSpec tasks taskName with
        | none => some (-1, s.mark taskName .failed)
        | some task =>
          if hostSupportedByTask task hostName then
            let edges := resolveEffectiveTaskEdges task tasks hostName
            let runAll := runStage (fun name =>
              runTaskForManifestImpl depth name (taskStack ++ [taskName])) edges
            (runAll .dependsOn (s.mark taskName .running)).bind fun result =>
              if result.1 ≠ 0 then some (1, result.2.mark taskName .failed)
              else runBody hostName outcomes task (runAll .next) result.2
          else some (1, s.mark taskName .failed)

def runTaskForManifest (root : Text) : Option (Int × RunState) :=
  runTaskForManifestImpl tasks hostName outcomes (tasks.length + 1) root []
    ⟨fun _ => .notStarted, []⟩

end Mlang.TaskOrder
