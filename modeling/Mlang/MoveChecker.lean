import Mlang.Statements
import Mlang.StructuredPaths

namespace Mlang.MoveChecker

open Statements

abbrev MovedVariables := Name → Bool

abbrev ScopeDepths := Name → Option Nat

def MovedVariables.union (m m' : MovedVariables) : MovedVariables := fun x => m x || m' x

structure VariableScopeDepthEntry where
  varName : Name
  previousDepth : Option Nat
  previousMoved : Bool

structure LoopExitState where
  variableScopeDepth : ScopeDepths
  movedVariables : MovedVariables

/-- The top of `loopBreakBorrowStates` and of `loopContinueBorrowStates`. -/
structure LoopStates where
  breakStates : List LoopExitState
  continueStates : List LoopExitState

/-- What the move checks read and write. `terminated` says that the block instructions are
inserted in ends with a jump or a return. -/
structure CodeGenerator where
  movedVariables : MovedVariables
  variableScopeDepth : ScopeDepths
  variableScopeDepthScopes : List (List VariableScopeDepthEntry)
  loops : List LoopStates
  terminated : Bool

namespace CodeGenerator

def currentScopeDepth (g : CodeGenerator) : Nat := g.variableScopeDepthScopes.length

def isVariableCurrentlyVisible (g : CodeGenerator) (name : Name) : Bool :=
  match g.variableScopeDepth name with
  | some depth => depth ≤ g.currentScopeDepth
  | none => false

def setMoved (g : CodeGenerator) (m : MovedVariables) : CodeGenerator :=
  { g with movedVariables := m }

def clearMovedVariable (g : CodeGenerator) (name : Name) : CodeGenerator :=
  g.setMoved (Function.update g.movedVariables name false)

def recordVariableScopeDepth (g : CodeGenerator) (varName : Name) : CodeGenerator :=
  match g.variableScopeDepthScopes with
  | [] => g
  | scope :: scopes =>
    { g with
      variableScopeDepth := Function.update g.variableScopeDepth varName (some g.currentScopeDepth)
      variableScopeDepthScopes :=
        (⟨varName, g.variableScopeDepth varName, g.movedVariables varName⟩ :: scope) :: scopes }

def enterCleanupScope (g : CodeGenerator) : CodeGenerator :=
  { g with variableScopeDepthScopes := [] :: g.variableScopeDepthScopes }

def restoreMoved : List VariableScopeDepthEntry → MovedVariables → MovedVariables
  | [], m => m
  | e :: es, m => restoreMoved es (Function.update m e.varName e.previousMoved)

def restoreDepths : List VariableScopeDepthEntry → ScopeDepths → ScopeDepths
  | [], d => d
  | e :: es, d => restoreDepths es (Function.update d e.varName e.previousDepth)

def exitCleanupScope (g : CodeGenerator) : CodeGenerator :=
  match g.variableScopeDepthScopes with
  | [] => g
  | depthEntries :: scopes =>
    { g with
      movedVariables := restoreMoved depthEntries g.movedVariables
      variableScopeDepth := restoreDepths depthEntries g.variableScopeDepth
      variableScopeDepthScopes := scopes }

end CodeGenerator

/-- `none` is a diagnostic: the body is rejected. -/
def validateVariableAccessible (isVisible : Name → Bool) (name : Name) (m : MovedVariables) :
    Option MovedVariables :=
  if m name || !isVisible name then none else some m

def consumeMoveFromExpression : ExpressionNode → MovedVariables → Option MovedVariables
  | .intLiteral _, m => some m
  | .opaqueValue, m => some m
  | .identifier name isMoveOnly, m =>
    if m name then none else if isMoveOnly then some (Function.update m name true) else some m
  | .addressOf name, m => if m name then none else some m
  | .functionCall _, m => some m
  | .binaryOp left right, m => do
    let m ← consumeMoveFromExpression left m
    consumeMoveFromExpression right m
  | .logicalOp left right, m => do
    let m ← consumeMoveFromExpression left m
    consumeMoveFromExpression right m
  | .ternary condition trueExpr falseExpr, m => do
    let incomingMoved ← consumeMoveFromExpression condition m
    let thenMoved ← consumeMoveFromExpression trueExpr incomingMoved
    let elseMoved ← consumeMoveFromExpression falseExpr incomingMoved
    return thenMoved.union elseMoved

def consumeArgument (shouldConsume : Bool) (argument : ExpressionNode) (m : MovedVariables) :
    Option MovedVariables :=
  if shouldConsume then consumeMoveFromExpression argument m else some m

def consumeArguments : ArgumentListNode → MovedVariables → Option MovedVariables
  | .nil, m => some m
  | .cons shouldConsume argument arguments, m => do
    let m ← consumeArgument shouldConsume argument m
    consumeArguments arguments m

variable (isVisible : Name → Bool)

mutual

/-- The moves of evaluating an expression. -/
def generateExpression : ExpressionNode → MovedVariables → Option MovedVariables
  | .intLiteral _, m => some m
  | .opaqueValue, m => some m
  | .identifier name _, m => validateVariableAccessible isVisible name m
  | .addressOf name, m => validateVariableAccessible isVisible name m
  | .functionCall arguments, m => do
    let m ← generateArguments arguments m
    consumeArguments arguments m
  | .binaryOp left right, m => do
    let m ← generateExpression left m
    generateExpression right m
  | .logicalOp left right, m => do
    let incomingMoved ← generateExpression left m
    let m ← generateExpression right incomingMoved
    return m.union incomingMoved
  | .ternary condition trueExpr falseExpr, incomingMoved => do
    let _ ← generateExpression condition incomingMoved
    let thenMoved ← generateExpression trueExpr incomingMoved
    let elseMoved ← generateExpression falseExpr incomingMoved
    return thenMoved.union elseMoved

def generateArguments : ArgumentListNode → MovedVariables → Option MovedVariables
  | .nil, m => some m
  | .cons _ argument arguments, m => do
    let m ← generateExpression argument m
    generateArguments arguments m

end

/-- What finding the type of an lvalue asks of the locals. -/
def getLValueType : ExpressionNode → MovedVariables → Option MovedVariables
  | .identifier name _, m => validateVariableAccessible isVisible name m
  | _, m => some m

def generateValue (e : ExpressionNode) (m : MovedVariables) : Option MovedVariables := do
  let m ← generateExpression isVisible e m
  consumeMoveFromExpression e m

/- The instruction builder folds the bounds of a range where they are constants. -/
variable (constantValue : ExpressionNode → Option Int)

def rangeNeverExecutes (start stop : ExpressionNode) (inclusive : Bool) : Bool :=
  match constantValue start, constantValue stop with
  | some startInt, some endInt => if inclusive then startInt > endInt else startInt ≥ endInt
  | _, _ => false

namespace CodeGenerator

def evaluate (g : CodeGenerator)
    (f : (Name → Bool) → ExpressionNode → MovedVariables → Option MovedVariables)
    (e : ExpressionNode) : Option CodeGenerator :=
  (f g.isVariableCurrentlyVisible e g.movedVariables).map g.setMoved

/-- Without a declared type the type is that of the initializer, which is looked up behind its
move. -/
def inferType (g : CodeGenerator) (isTyped : Bool) (expression : ExpressionNode) :
    Option CodeGenerator :=
  if isTyped then some g else g.evaluate getLValueType expression

def exitState (g : CodeGenerator) : LoopExitState := ⟨g.variableScopeDepth, g.movedVariables⟩

def generateBreakStatement (g : CodeGenerator) : Option CodeGenerator :=
  match g.loops with
  | [] => none
  | l :: ls => some
      { g with loops := { l with breakStates := l.breakStates ++ [g.exitState] } :: ls
               terminated := true }

def generateContinueStatement (g : CodeGenerator) : Option CodeGenerator :=
  match g.loops with
  | [] => none
  | l :: ls => some
      { g with loops := { l with continueStates := l.continueStates ++ [g.exitState] } :: ls
               terminated := true }

def enterLoop (g : CodeGenerator) : CodeGenerator :=
  { g with loops := ⟨[], []⟩ :: g.loops, terminated := false }

def exitStates (g : CodeGenerator) : List LoopExitState :=
  match g.loops with
  | [] => []
  | l :: _ => l.breakStates ++ l.continueStates

def leaveLoop (g : CodeGenerator) : CodeGenerator :=
  { g with loops := g.loops.tail, terminated := false }

def mergeExitStates (survives : LoopExitState → Name → Bool) :
    List LoopExitState → MovedVariables → MovedVariables
  | [], m => m
  | state :: states, m => mergeExitStates survives states
      (fun x => m x || (state.movedVariables x && survives state x))

def survivesLoopScope (loopScopeDepth : Nat) (loopVariable : Name) (state : LoopExitState)
    (name : Name) : Bool :=
  name != loopVariable &&
    match state.variableScopeDepth name with
    | some depth => depth ≤ loopScopeDepth
    | none => true

end CodeGenerator

/-- The moved set after an `if`, from the two branches that reach its end. -/
def mergeBranches (incomingMoved : MovedVariables) (thenEnd elseEnd : CodeGenerator) :
    MovedVariables :=
  if !thenEnd.terminated && !elseEnd.terminated then
    thenEnd.movedVariables.union elseEnd.movedVariables
  else if !thenEnd.terminated then
    thenEnd.movedVariables
  else if !elseEnd.terminated then
    elseEnd.movedVariables
  else
    incomingMoved

/-- A branch of an `if`, of which nothing is left but the moved set and the recorded jumps. -/
def generateBranch (incomingMoved : MovedVariables)
    (statements : CodeGenerator → Option CodeGenerator) (g : CodeGenerator) :
    Option CodeGenerator := do
  let g ← statements { (g.setMoved incomingMoved).enterCleanupScope with terminated := false }
  return g.exitCleanupScope

def generateElseBranch (incomingMoved : MovedVariables)
    (elseBranch : Option (CodeGenerator → Option CodeGenerator)) (g : CodeGenerator) :
    Option CodeGenerator :=
  match elseBranch with
  | some statements => generateBranch incomingMoved statements g
  | none => some { g.setMoved incomingMoved with terminated := false }

def leaveIf (incomingMoved : MovedVariables) (thenEnd elseEnd : CodeGenerator) : CodeGenerator :=
  { elseEnd.setMoved (mergeBranches incomingMoved thenEnd elseEnd) with terminated := false }

def leaveWhile (incomingMoved : MovedVariables) (bodyEnd : CodeGenerator) : CodeGenerator :=
  let m := if !bodyEnd.terminated then incomingMoved.union bodyEnd.movedVariables
    else incomingMoved
  (bodyEnd.setMoved (CodeGenerator.mergeExitStates (fun _ _ => true) bodyEnd.exitStates m)).leaveLoop

def enterFor (varName : Name) (g : CodeGenerator) : CodeGenerator :=
  (g.clearMovedVariable varName).recordVariableScopeDepth varName

/-- `beforeLoop` is the state in which the range has been evaluated. -/
def leaveFor (varName : Name) (neverExecutes : Bool) (beforeLoop bodyEnd : CodeGenerator) :
    CodeGenerator :=
  let m := if neverExecutes then beforeLoop.movedVariables
    else Function.update bodyEnd.movedVariables varName (beforeLoop.movedVariables varName)
  let survives := CodeGenerator.survivesLoopScope beforeLoop.currentScopeDepth varName
  ({ bodyEnd with
    variableScopeDepth := Function.update bodyEnd.variableScopeDepth varName
      (beforeLoop.variableScopeDepth varName)
    movedVariables := CodeGenerator.mergeExitStates survives bodyEnd.exitStates m }).leaveLoop

mutual

def generateStatement : StatementNode → CodeGenerator → Option CodeGenerator
  | .letDecl name isTyped _ expression, g => do
    let g ← g.evaluate generateValue expression
    let g ← ((g.recordVariableScopeDepth name).clearMovedVariable name).inferType isTyped expression
    return { g with terminated := false }
  | .varDecl name _ initExpr, g => do
    -- The initializer is consumed first and generated last. Its names are still looked up as
    -- before the declaration, which has no slot until then.
    let g ← g.evaluate (fun _ => consumeMoveFromExpression) (initExpr.getD (.intLiteral 0))
    let declared := (g.clearMovedVariable name).recordVariableScopeDepth name
    let m ← generateExpression g.isVariableCurrentlyVisible (initExpr.getD (.intLiteral 0))
      declared.movedVariables
    return { declared.setMoved m with terminated := false }
  | .assignment name expression, g => do
    let g ← g.evaluate generateValue expression
    return { g.clearMovedVariable name with terminated := false }
  | .expressionStatement expression, g => do
    let g ← g.evaluate generateExpression expression
    return { g with terminated := g.terminated && !emitsInstructions expression }
  | .returnStatement expression, g => do
    let g ← g.evaluate generateValue expression
    return { g with terminated := true }
  | .breakStatement, g => g.generateBreakStatement
  | .continueStatement, g => g.generateContinueStatement
  | .block statements, g => do
    let g ← generateStatements statements g.enterCleanupScope
    return g.exitCleanupScope
  | .ifStatement node, g => generateIfStatement node none g
  | .whileStatement condition body, beforeLoop => do
    let g ← beforeLoop.evaluate generateExpression condition
    let g ← generateLoopBody body g.enterLoop.enterCleanupScope
    return leaveWhile beforeLoop.movedVariables g.exitCleanupScope
  | .forStatement varName start stop inclusive body, g => do
    let g ← g.evaluate generateExpression start
    let beforeLoop ← g.evaluate generateExpression stop
    let g ← generateLoopBody body (enterFor varName beforeLoop).enterLoop.enterCleanupScope
    return leaveFor varName (rangeNeverExecutes constantValue start stop inclusive) beforeLoop
      g.exitCleanupScope

def generateStatements : StatementListNode → CodeGenerator → Option CodeGenerator
  | .nil, g => some g
  | .cons statement statements, g => do
    let g ← generateStatement statement g
    generateStatements statements g

def generateLoopBody : StatementListNode → CodeGenerator → Option CodeGenerator
  | .nil, g => some g
  | .cons statement statements, g => do
    let g ← generateStatement statement g
    if g.terminated then some g else generateLoopBody statements g

/-- `inheritedElse` is a final `else` of the chain the node stands in, which the source attaches
to the last `if` of the chain when that has none. -/
def generateIfStatement : IfNode → Option (CodeGenerator → Option CodeGenerator) →
    CodeGenerator → Option CodeGenerator
  | .plain condition thenBranch elseBranch, inheritedElse, beforeIf => do
    let incomingMoved := beforeIf.movedVariables
    let g ← beforeIf.evaluate generateExpression condition
    let thenEnd ← generateBranch incomingMoved (generateStatements thenBranch) g
    let elseEnd ← generateElseBranch incomingMoved
      ((generateElse elseBranch).or inheritedElse) thenEnd
    return leaveIf incomingMoved thenEnd elseEnd
  | .chain condition thenBranch elseIfBranch elseBranch, inheritedElse, beforeIf => do
    let incomingMoved := beforeIf.movedVariables
    let g ← beforeIf.evaluate generateExpression condition
    let thenEnd ← generateBranch incomingMoved (generateStatements thenBranch) g
    let elseEnd ← generateIfStatement elseIfBranch
      (inheritedElse.or (generateElse elseBranch))
        { thenEnd.setMoved incomingMoved with terminated := false }
    return leaveIf incomingMoved thenEnd elseEnd

def generateElse : ElseNode → Option (CodeGenerator → Option CodeGenerator)
  | .none => none
  | .some statements => some (generateStatements statements)

end

def startFunction (parameters : List Name) : CodeGenerator :=
  parameters.foldl CodeGenerator.recordVariableScopeDepth
    ⟨fun _ => false, fun _ => none, [[]], [], false⟩

def accepts (parameters : List Name) (body : StatementListNode) : Bool :=
  (generateStatements constantValue body (startFunction parameters)).isSome

end Mlang.MoveChecker
