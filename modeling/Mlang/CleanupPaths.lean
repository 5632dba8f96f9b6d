import Mlang.Statements
import Mlang.StructuredPaths

namespace Mlang.CleanupScopes

open Statements

/-- A registered cleanup. Every cleanup of a function has a drop flag, which stands for the slot
it cleans as well. -/
structure ScopeCleanup where
  varName : Name
  dropFlag : Nat
  deriving DecidableEq

/-- `runCleanup` tests the flag and, where it is set, clears it and calls the cleanup. -/
inductive Instruction
  | storeFlag (flag : Nat) (initialized : Bool)
  | runCleanup (flag : Nat)
  deriving DecidableEq

/-- What the emission of cleanups reads and writes, innermost scope and latest registration
first. `terminated` says that the block instructions are inserted in ends with a jump or a
return. -/
structure CodeGenerator where
  cleanupScopes : List (List ScopeCleanup)
  nextFlag : Nat
  terminated : Bool
  deriving DecidableEq

namespace CodeGenerator

def emitScopeCleanup (cleanup : ScopeCleanup) : Instruction := .runCleanup cleanup.dropFlag

def enterCleanupScope (g : CodeGenerator) : CodeGenerator :=
  { g with cleanupScopes := [] :: g.cleanupScopes }

def exitCleanupScope (g : CodeGenerator) : CodeGenerator :=
  { g with cleanupScopes := g.cleanupScopes.tail }

/-- The instructions `exitCleanupScope` inserts. -/
def emitScopeExit (g : CodeGenerator) : List Instruction :=
  if g.terminated then [] else (g.cleanupScopes.headD []).map emitScopeCleanup

def emitAllActiveCleanups (g : CodeGenerator) : List Instruction :=
  if g.terminated then [] else g.cleanupScopes.flatten.map emitScopeCleanup

def findActiveDropFlag (g : CodeGenerator) (varName : Name) : Option Nat :=
  (g.cleanupScopes.flatten.find? (fun cleanup => cleanup.varName = varName)).map
    ScopeCleanup.dropFlag

def setActiveDropFlag (g : CodeGenerator) (varName : Name) (initialized : Bool) :
    List Instruction :=
  match g.findActiveDropFlag varName with
  | some flag => [.storeFlag flag initialized]
  | none => []

def emitAssignmentCleanup (g : CodeGenerator) (varName : Name) : List Instruction :=
  match g.findActiveDropFlag varName with
  | some flag => [.runCleanup flag]
  | none => []

def registerStructCleanup (g : CodeGenerator) (varName : Name) : CodeGenerator :=
  match g.cleanupScopes with
  | [] => g
  | scope :: scopes =>
    { g with
      cleanupScopes := (⟨varName, g.nextFlag⟩ :: scope) :: scopes
      nextFlag := g.nextFlag + 1 }

def registerStructCleanupIfNeeded (g : CodeGenerator) (varName : Name) (hasCleanup : Bool) :
    CodeGenerator :=
  if hasCleanup then g.registerStructCleanup varName else g

end CodeGenerator

/-- A `let` without a type takes over the struct type of the variable its initializer names, and
then the type of the initializer as an lvalue. The second is found where the variable is still
accessible: it is not moved, or it has the name of the new one, whose moved mark is cleared. -/
def inheritsTypeTwice (name : Name) (isTyped : Bool) : ExpressionNode → Bool
  | .identifier source isMoveOnly => !isTyped && (source = name || !isMoveOnly)
  | _ => false

/-- Each time the type is set its cleanup is registered. -/
def CodeGenerator.registerLetCleanup (g : CodeGenerator) (name : Name) (isTyped hasCleanup : Bool)
    (expression : ExpressionNode) : CodeGenerator :=
  if inheritsTypeTwice name isTyped expression then
    (g.registerStructCleanupIfNeeded name hasCleanup).registerStructCleanupIfNeeded name hasCleanup
  else g.registerStructCleanupIfNeeded name hasCleanup

/-- The locals `consumeMoveFromExpression` moves, both arms of a ternary included. -/
def consumedNames : ExpressionNode → List Name
  | .intLiteral _ => []
  | .opaqueValue => []
  | .identifier name isMoveOnly => if isMoveOnly then [name] else []
  | .addressOf _ => []
  | .functionCall _ => []
  | .binaryOp left right => consumedNames left ++ consumedNames right
  | .logicalOp left right => consumedNames left ++ consumedNames right
  | .ternary condition trueExpr falseExpr =>
    consumedNames condition ++ consumedNames trueExpr ++ consumedNames falseExpr

def emitMoves (g : CodeGenerator) (e : ExpressionNode) : List Instruction :=
  (consumedNames e).flatMap (fun name => g.setActiveDropFlag name false)

def leaveControlFlow (g : CodeGenerator) : CodeGenerator := { g with terminated := false }

/-- A branch of an `if`. -/
def generateBranch (statements : CodeGenerator → CodeGenerator) (g : CodeGenerator) :
    CodeGenerator :=
  (statements (leaveControlFlow g).enterCleanupScope).exitCleanupScope

mutual

def generateStatement : StatementNode → CodeGenerator → CodeGenerator
  | .letDecl name isTyped hasCleanup expression, g =>
    { g.registerLetCleanup name isTyped hasCleanup expression with terminated := false }
  | .varDecl name hasCleanup _, g =>
    { g.registerStructCleanupIfNeeded name hasCleanup with terminated := false }
  | .assignment _ _, g => { g with terminated := false }
  | .expressionStatement e, g => { g with terminated := g.terminated && !emitsInstructions e }
  | .returnStatement _, g => { g with terminated := true }
  | .breakStatement, g => { g with terminated := true }
  | .continueStatement, g => { g with terminated := true }
  | .block statements, g => (generateStatements statements g.enterCleanupScope).exitCleanupScope
  | .ifStatement node, g => generateIfStatement node none g
  | .whileStatement _ body, g =>
    leaveControlFlow
      (generateLoopBody body (leaveControlFlow g).enterCleanupScope).exitCleanupScope
  | .forStatement _ _ _ _ body, g =>
    leaveControlFlow
      (generateLoopBody body (leaveControlFlow g).enterCleanupScope).exitCleanupScope

def generateStatements : StatementListNode → CodeGenerator → CodeGenerator
  | .nil, g => g
  | .cons statement statements, g => generateStatements statements (generateStatement statement g)

def generateLoopBody : StatementListNode → CodeGenerator → CodeGenerator
  | .nil, g => g
  | .cons statement statements, g =>
    if (generateStatement statement g).terminated then generateStatement statement g
    else generateLoopBody statements (generateStatement statement g)

/-- `inheritedElse` is a final `else` of the chain the node stands in, which the source attaches
to the last `if` of the chain when that has none. -/
def generateIfStatement : IfNode → Option (CodeGenerator → CodeGenerator) →
    CodeGenerator → CodeGenerator
  | .plain _ thenBranch elseBranch, inheritedElse, g =>
    let thenEnd := generateBranch (generateStatements thenBranch) g
    leaveControlFlow (match (generateElse elseBranch).or inheritedElse with
      | some statements => generateBranch statements thenEnd
      | none => thenEnd)
  | .chain _ thenBranch elseIfBranch elseBranch, inheritedElse, g =>
    let thenEnd := generateBranch (generateStatements thenBranch) g
    leaveControlFlow (generateIfStatement elseIfBranch
      (inheritedElse.or (generateElse elseBranch)) (leaveControlFlow thenEnd))

def generateElse : ElseNode → Option (CodeGenerator → CodeGenerator)
  | .none => none
  | .some statements => some (generateStatements statements)

end

end Mlang.CleanupScopes

namespace Mlang.CleanupPaths

open StructuredPaths Statements CleanupScopes
open CodeGenerator (emitScopeCleanup)

/-- A local of a path, with the flag of its cleanup where one is registered. -/
structure Local where
  name : Name
  cleanup : Option Nat
  isLive : Bool
  deriving DecidableEq

/-- The drop flags of the emitted code, beside the locals of the program, innermost first. -/
structure Machine where
  flags : Nat → Bool
  locals : List Local

def execute : List Instruction → (Nat → Bool) → List Nat × (Nat → Bool)
  | [], flags => ([], flags)
  | .storeFlag flag initialized :: is, flags =>
    execute is (Function.update flags flag initialized)
  | .runCleanup flag :: is, flags =>
    if flags flag then
      (flag :: (execute is (Function.update flags flag false)).1,
        (execute is (Function.update flags flag false)).2)
    else execute is flags

def findLocal (name : Name) (locals : List Local) : Option Local :=
  locals.find? (fun l => l.name = name)

def setLive (name : Name) (isLive : Bool) : List Local → List Local
  | [] => []
  | l :: ls => if l.name = name then { l with isLive := isLive } :: ls else l :: setLive name isLive ls

def moveAll : List Name → List Local → List Local
  | [], ls => ls
  | name :: names, ls => moveAll names (setLive name false ls)

def liveCleanup (l : Local) : Option Nat := if l.isLive then l.cleanup else none

def liveCleanups (locals : List Local) : List Nat := locals.filterMap liveCleanup

def inner (n : Nat) (locals : List Local) : List Local := locals.take (locals.length - n)

def outer (n : Nat) (locals : List Local) : List Local := locals.drop (locals.length - n)

def HidesCleanup (name : Name) (locals : List Local) : Prop :=
  ∃ l, findLocal name locals = some l ∧ l.cleanup = none ∧
    ∃ l' ∈ locals, l'.name = name ∧ l'.cleanup ≠ none

def IsLiveWithCleanup (name : Name) (locals : List Local) : Prop :=
  ∃ l, findLocal name locals = some l ∧ (liveCleanup l).isSome

/- With `tracked`, only the steps are taken at which the drop flags follow the locals; without it,
every step. -/
variable (tracked : Bool)

/-- The value of an expression is made of `names`, which are moved. -/
def consume (g : CodeGenerator) (e : ExpressionNode) (names : List Name) : Paths Machine Unit := do
  Paths.provided tracked (fun s => ∀ name ∈ consumedNames e,
    ¬ HidesCleanup name s.locals ∧ (name ∉ names → ¬ IsLiveWithCleanup name s.locals))
  Paths.modify (fun s =>
    { s with flags := (execute (emitMoves g e) s.flags).2, locals := moveAll names s.locals })

/-- The arguments of a call are moved when all of them have been evaluated. -/
def consumeArguments (g : CodeGenerator) : ArgumentListNode → List (List Name) → Paths Machine Unit
  | .cons true argument arguments, names :: values => do
    consume tracked g argument names
    consumeArguments g arguments values
  | .cons false _ arguments, _ :: values => consumeArguments g arguments values
  | _, _ => pure ()

mutual

def evaluate (g : CodeGenerator) : ExpressionNode → Paths Machine (List Name)
  | .intLiteral _ => pure []
  | .opaqueValue => pure []
  | .identifier name isMoveOnly => pure (if isMoveOnly then [name] else [])
  | .addressOf _ => pure []
  | .functionCall arguments => do
    let values ← evaluateArguments g arguments
    consumeArguments tracked g arguments values
    pure []
  | .binaryOp left right => do
    let names ← evaluate g left
    let names' ← evaluate g right
    pure (names ++ names')
  | .logicalOp left right => do
    let names ← evaluate g left
    Paths.choose (pure names) (do
      let names' ← evaluate g right
      pure (names ++ names'))
  | .ternary condition trueExpr falseExpr => do
    let _ ← evaluate g condition
    Paths.choose (evaluate g trueExpr) (evaluate g falseExpr)

def evaluateArguments (g : CodeGenerator) : ArgumentListNode → Paths Machine (List (List Name))
  | .nil => pure []
  | .cons _ argument arguments => do
    let names ← evaluate g argument
    let values ← evaluateArguments g arguments
    pure (names :: values)

end

/-- Nothing in an expression reads a flag, so that the flags of the value of a `var`, which are
cleared before it is evaluated, may as well be cleared behind it. -/
def evaluateAndConsume (g : CodeGenerator) (e : ExpressionNode) : Paths Machine Unit := do
  let names ← evaluate tracked g e
  consume tracked g e names

def declare (g : CodeGenerator) (name : Name) (hasCleanup : Bool) (s : Machine) : Machine :=
  if hasCleanup then
    { flags := Function.update s.flags g.nextFlag true
      locals := ⟨name, some g.nextFlag, true⟩ :: s.locals }
  else { s with locals := ⟨name, none, true⟩ :: s.locals }

/-- The cleanup of the innermost local is registered again, with a flag of its own. -/
def declareAgain (g : CodeGenerator) (hasCleanup : Bool) (s : Machine) : Machine :=
  match hasCleanup, s.locals with
  | true, l :: ls =>
    { flags := Function.update s.flags g.nextFlag true
      locals := { l with cleanup := some g.nextFlag } :: ls }
  | _, _ => s

def declareLet (g : CodeGenerator) (name : Name) (isTyped hasCleanup : Bool)
    (expression : ExpressionNode) (s : Machine) : Machine :=
  if inheritsTypeTwice name isTyped expression then
    declareAgain (g.registerStructCleanupIfNeeded name hasCleanup) hasCleanup
      (declare g name hasCleanup s)
  else declare g name hasCleanup s

def replace (g : CodeGenerator) (name : Name) (s : Machine) : Option Machine :=
  let cleaned := execute (g.emitAssignmentCleanup name) s.flags
  if cleaned.1 = ((findLocal name s.locals).bind liveCleanup).toList then
    some
      { flags := (execute (g.setActiveDropFlag name true) cleaned.2).2
        locals := setLive name true s.locals }
  else none

/-- The locals beyond the first `n` go out of scope. -/
def leave (is : List Instruction) (n : Nat) (s : Machine) : Option Machine :=
  let cleaned := execute is s.flags
  if cleaned.1 = liveCleanups (inner n s.locals) then some { s with flags := cleaned.2 } else none

def scope (is : List Instruction) (p : Paths Machine Unit) : Paths Machine Unit := do
  let before ← Paths.get
  p
  Paths.attempt (leave is before.locals.length)
  Paths.modify (fun s => { s with locals := outer before.locals.length s.locals })

def jump (loop : Option Nat) : Paths Machine Unit :=
  match loop with
  | none => Paths.require (fun _ => False)
  | some n => do
    Paths.provided tracked (fun s => liveCleanups (inner n s.locals) = [])
    Paths.attempt (leave [] n)

def loopBody (before : Machine) (p : Paths Machine Unit) : Paths Machine Unit :=
  Paths.leaving (fun t s => s = t)
    (fun t s => s = { t with locals := outer before.locals.length t.locals }) p

structure GeneratedStatements where
  generate : CodeGenerator → CodeGenerator
  paths : CodeGenerator → Paths Machine Unit

def branch (statements : GeneratedStatements) (g : CodeGenerator) : Paths Machine Unit :=
  scope (statements.generate (leaveControlFlow g).enterCleanupScope).emitScopeExit
    (statements.paths (leaveControlFlow g).enterCleanupScope)

def loopHead (condition : Paths Machine Unit) : Paths Machine Bool := do
  condition
  Paths.choose (pure true) (pure false)

mutual

/-- The paths through the code emitted for a statement. `loop` is the number of locals outside
the innermost loop. -/
def run : StatementNode → Option Nat → CodeGenerator → Paths Machine Unit
  | .letDecl name isTyped hasCleanup expression, _, g => do
    evaluateAndConsume tracked g expression
    Paths.provided tracked (fun _ => hasCleanup → ¬ inheritsTypeTwice name isTyped expression)
    Paths.modify (declareLet g name isTyped hasCleanup expression)
  | .varDecl name hasCleanup initExpr, _, g => do
    evaluateAndConsume tracked g (initExpr.getD (.intLiteral 0))
    Paths.modify (declare g name hasCleanup)
  | .assignment name expression, _, g => do
    evaluateAndConsume tracked g expression
    Paths.provided tracked (fun s => ¬ HidesCleanup name s.locals)
    Paths.attempt (replace g name)
  | .expressionStatement expression, _, g => do
    let _ ← evaluate tracked g expression
    pure ()
  | .returnStatement expression, _, g => do
    evaluateAndConsume tracked g expression
    Paths.attempt (leave g.emitAllActiveCleanups 0)
    Paths.exitBy .returned
  | .breakStatement, loop, _ => do
    jump tracked loop
    Paths.exitBy .broke
  | .continueStatement, loop, _ => do
    jump tracked loop
    Paths.exitBy .continued
  | .block statements, loop, g =>
    scope (generateStatements statements g.enterCleanupScope).emitScopeExit
      (runList statements loop g.enterCleanupScope)
  | .ifStatement node, loop, g => runIf node loop none g
  | .whileStatement condition body, _, g => do
    let before ← Paths.get
    Paths.loop (fun _ => loopHead (do let _ ← evaluate tracked g condition; pure ()))
      (loopBody before
        (scope (generateLoopBody body (leaveControlFlow g).enterCleanupScope).emitScopeExit
          (runList body before.locals.length (leaveControlFlow g).enterCleanupScope)))
  | .forStatement varName start stop _ body, _, g => do
    let _ ← evaluate tracked g start
    let _ ← evaluate tracked g stop
    Paths.modify (declare g varName false)
    let before ← Paths.get
    Paths.loop (fun _ => loopHead (pure ()))
      (loopBody before
        (scope (generateLoopBody body (leaveControlFlow g).enterCleanupScope).emitScopeExit
          (runList body before.locals.length (leaveControlFlow g).enterCleanupScope)))
    Paths.modify (fun s => { s with locals := s.locals.tail })

def runList : StatementListNode → Option Nat → CodeGenerator → Paths Machine Unit
  | .nil, _, _ => pure ()
  | .cons statement statements, loop, g => do
    run statement loop g
    runList statements loop (generateStatement statement g)

def runIf : IfNode → Option Nat → Option GeneratedStatements → CodeGenerator → Paths Machine Unit
  | .plain condition thenBranch elseBranch, loop, inheritedElse, g => do
    let _ ← evaluate tracked g condition
    Paths.choose (branch ⟨generateStatements thenBranch, runList thenBranch loop⟩ g)
      (match (runElse elseBranch loop).or inheritedElse with
        | some statements => branch statements (generateBranch (generateStatements thenBranch) g)
        | none => pure ())
  | .chain condition thenBranch elseIfBranch elseBranch, loop, inheritedElse, g => do
    let _ ← evaluate tracked g condition
    Paths.choose (branch ⟨generateStatements thenBranch, runList thenBranch loop⟩ g)
      (runIf elseIfBranch loop (inheritedElse.or (runElse elseBranch loop))
        (leaveControlFlow (generateBranch (generateStatements thenBranch) g)))

def runElse : ElseNode → Option Nat → Option GeneratedStatements
  | .none, _ => none
  | .some statements, loop => some ⟨generateStatements statements, runList statements loop⟩

end

def startFunction : CodeGenerator := ⟨[[]], 0, false⟩

def startCall (parameters : List Name) : Machine :=
  ⟨fun _ => false, parameters.map (fun name => ⟨name, none, true⟩)⟩

def runFunction (body : StatementListNode) : Paths Machine Unit :=
  scope (generateStatements body startFunction).emitScopeExit
    (runList tracked body none startFunction)

end Mlang.CleanupPaths
