import Mlang.MoveChecker

namespace Mlang.MovePaths

open StructuredPaths Statements MoveChecker

inductive Status
  | live | moved | ended
  deriving DecidableEq

structure Binding where
  name : Name
  status : Status
  deriving DecidableEq

/-- The bindings of a path, innermost first. A loop variable whose loop is over stays in its
scope as `ended` and is no longer found. -/
abbrev Store := List Binding

def find (name : Name) : Store → Option Bool
  | [] => none
  | b :: s => if b.name = name ∧ b.status ≠ .ended then some (b.status = .moved) else find name s

def setMoved (name : Name) (isMoved : Bool) : Store → Store
  | [] => []
  | b :: s =>
    if b.name = name ∧ b.status ≠ .ended then
      { b with status := if isMoved then .moved else .live } :: s
    else b :: setMoved name isMoved s

def IsMoved (s : Store) (name : Name) : Prop := find name s = some true

instance (s : Store) (name : Name) : Decidable (IsMoved s name) := by
  unfold IsMoved
  infer_instance

def declare (name : Name) (s : Store) : Store := ⟨name, .live⟩ :: s

/-- The bindings that are left of `s` outside a scope entered with `n` bindings. -/
def outer (n : Nat) (s : Store) : Store := s.drop (s.length - n)

def inner (n : Nat) (s : Store) : Store := s.take (s.length - n)

def endLoopVariable : Store → Store
  | [] => []
  | b :: s => { b with status := .ended } :: s

def MovesNothing (before after : Store) : Prop := ∀ name, IsMoved after name → IsMoved before name

/-- The jump leaves no binding behind that is hidden inside the loop and moved, but for the
names in `known`. -/
def HidesNoMove (n : Nat) (known : Name → Prop) (s : Store) : Prop :=
  ∀ name, (find name (inner n s)).isSome → IsMoved (outer n s) name → known name

def mentionsLocal : ExpressionNode → Bool
  | .intLiteral _ => false
  | .opaqueValue => false
  | .identifier _ _ => true
  | .addressOf _ => true
  | .functionCall arguments => argumentsMentionLocal arguments
  | .binaryOp left right => mentionsLocal left || mentionsLocal right
  | .logicalOp left right => mentionsLocal left || mentionsLocal right
  | .ternary condition trueExpr falseExpr =>
    mentionsLocal condition || mentionsLocal trueExpr || mentionsLocal falseExpr
where
  argumentsMentionLocal : ArgumentListNode → Bool
  | .nil => false
  | .cons _ argument arguments => mentionsLocal argument || argumentsMentionLocal arguments

mutual

/-- The names a statement assigns, declares with `var` or runs a range loop over. -/
def assigns (name : Name) : StatementNode → Bool
  | .varDecl x _ _ => x = name
  | .assignment x _ => x = name
  | .block statements => listAssigns name statements
  | .ifStatement node => ifAssigns name node
  | .whileStatement _ body => listAssigns name body
  | .forStatement x _ _ _ body => x = name || listAssigns name body
  | _ => false

def listAssigns (name : Name) : StatementListNode → Bool
  | .nil => false
  | .cons statement statements => assigns name statement || listAssigns name statements

def ifAssigns (name : Name) : IfNode → Bool
  | .plain _ thenBranch elseBranch => listAssigns name thenBranch || elseAssigns name elseBranch
  | .chain _ thenBranch elseIfBranch elseBranch =>
    listAssigns name thenBranch || ifAssigns name elseIfBranch || elseAssigns name elseBranch

def elseAssigns (name : Name) : ElseNode → Bool
  | .none => false
  | .some statements => listAssigns name statements

end

/- With `remembers`, only the steps are taken at which the move analysis forgets no move; without
it, every step. -/
variable (remembers : Bool)

def useLocal (name : Name) : Paths Store Unit :=
  Paths.attempt (fun s => if IsMoved s name then none else some s)

def moveLocal (name : Name) : Paths Store Unit :=
  Paths.attempt (fun s => if IsMoved s name then none else some (setMoved name true s))

def consume : List Name → Paths Store Unit
  | [] => pure ()
  | name :: names => do moveLocal name; consume names

def consumeWhere (shouldConsume : Bool) (names : List Name) : Paths Store Unit :=
  if shouldConsume then consume names else pure ()

/-- The arguments of a call are moved when all of them have been evaluated. -/
def consumeArguments : ArgumentListNode → List (List Name) → Paths Store Unit
  | .cons shouldConsume _ arguments, names :: values => do
    consumeWhere shouldConsume names
    consumeArguments arguments values
  | _, _ => pure ()

/-- A condition is to move nothing. -/
def undisturbed {α : Type} (p : Paths Store α) : Paths Store Unit := do
  let before ← Paths.get
  let _ ← p
  Paths.provided remembers (fun s => s = before)

mutual

/-- Evaluating an expression yields the move-only locals its value is made of, which are moved
when the value is consumed. -/
def evaluate : ExpressionNode → Paths Store (List Name)
  | .intLiteral _ => pure []
  | .opaqueValue => pure []
  | .identifier name isMoveOnly => do
    useLocal name
    pure (if isMoveOnly then [name] else [])
  | .addressOf name => do
    useLocal name
    pure []
  | .functionCall arguments => do
    let values ← evaluateArguments arguments
    consumeArguments arguments values
    pure []
  | .binaryOp left right => do
    let names ← evaluate left
    let names' ← evaluate right
    pure (names ++ names')
  | .logicalOp left right => do
    let names ← evaluate left
    Paths.choose (pure names) (do
      let names' ← evaluate right
      pure (names ++ names'))
  | .ternary condition trueExpr falseExpr => do
    undisturbed remembers (evaluate condition)
    Paths.choose (evaluate trueExpr) (evaluate falseExpr)

def evaluateArguments : ArgumentListNode → Paths Store (List (List Name))
  | .nil => pure []
  | .cons _ argument arguments => do
    let names ← evaluate argument
    let values ← evaluateArguments arguments
    pure (names :: values)

end

def evaluateAndConsume (e : ExpressionNode) : Paths Store Unit := do
  let names ← evaluate remembers e
  consume names

def scope (p : Paths Store Unit) : Paths Store Unit := do
  let before ← Paths.get
  Paths.leaving (fun t s => s = outer before.length t) (fun t s => s = t) p

def loopScope (known : Store → Name → Prop) (before : Store) (p : Paths Store Unit) :
    Paths Store Unit :=
  Paths.leaving (fun t s => s = outer before.length t)
    (fun t s => (remembers → HidesNoMove before.length (known before) t) ∧ s = outer before.length t) p

variable (constantValue : ExpressionNode → Option Int)

def whileHead (condition : ExpressionNode) (before : Store) : Paths Store Bool := do
  let s ← Paths.get
  Paths.provided remembers (fun _ => mentionsLocal condition → MovesNothing before s)
  let _ ← evaluate remembers condition
  Paths.choose
    (do Paths.provided remembers (fun _ => MovesNothing before s); pure true)
    (do Paths.provided remembers (fun s' => s' = s); pure false)

/-- A range that is empty is left at once, which the analysis allows for only where the body
assigns nothing that is moved. -/
def forHead (neverExecutes : Bool) (body : StatementListNode) (before : Store) (n : Nat) :
    Paths Store Bool := do
  let s ← Paths.get
  Paths.choose
    (do Paths.require (fun _ => !neverExecutes)
        Paths.provided remembers (fun _ => MovesNothing before s)
        pure true)
    (do Paths.provided remembers (fun _ => n = 0 → neverExecutes ∨
          ∀ name, IsMoved before name → listAssigns name body = false)
        pure false)

mutual

def run : StatementNode → Paths Store Unit
  | .letDecl name _ _ expression => do
    evaluateAndConsume remembers expression
    Paths.modify (declare name)
  | .varDecl name _ initExpr => do
    Paths.provided remembers (fun s => ¬ IsMoved s name)
    let names ← evaluate remembers (initExpr.getD (.intLiteral 0))
    Paths.provided remembers (fun s => ¬ IsMoved s name ∧ name ∉ names)
    consume names
    Paths.modify (declare name)
  | .assignment name expression => do
    evaluateAndConsume remembers expression
    Paths.modify (setMoved name false)
  | .expressionStatement expression => do
    let _ ← evaluate remembers expression
    pure ()
  | .returnStatement expression => do
    evaluateAndConsume remembers expression
    Paths.exitBy .returned
  | .breakStatement => Paths.exitBy .broke
  | .continueStatement => Paths.exitBy .continued
  | .block statements => scope (runList statements)
  | .ifStatement node => runIf node none
  | .whileStatement condition body => do
    let before ← Paths.get
    Paths.loop (fun _ => whileHead remembers condition before)
      (loopScope remembers IsMoved before (runList body))
  | .forStatement varName start stop inclusive body => do
    let _ ← evaluate remembers start
    let _ ← evaluate remembers stop
    Paths.provided remembers (fun s => find varName s = none)
    Paths.modify (declare varName)
    let before ← Paths.get
    Paths.loop
      (forHead remembers (rangeNeverExecutes constantValue start stop inclusive) body before)
      (loopScope remembers (fun _ _ => False) before (runList body))
    Paths.modify endLoopVariable

def runList : StatementListNode → Paths Store Unit
  | .nil => pure ()
  | .cons statement statements => do
    run statement
    runList statements

def runIf : IfNode → Option (Paths Store Unit) → Paths Store Unit
  | .plain condition thenBranch elseBranch, inheritedElse => do
    undisturbed remembers (evaluate remembers condition)
    Paths.choose (scope (runList thenBranch))
      (match (runElse elseBranch).or inheritedElse with
        | some statements => scope statements
        | none => pure ())
  | .chain condition thenBranch elseIfBranch elseBranch, inheritedElse => do
    undisturbed remembers (evaluate remembers condition)
    Paths.choose (scope (runList thenBranch))
      (runIf elseIfBranch (inheritedElse.or (runElse elseBranch)))

def runElse : ElseNode → Option (Paths Store Unit)
  | .none => none
  | .some statements => some (runList statements)

end

def startCall (parameters : List Name) : Store :=
  parameters.foldl (fun s name => declare name s) []

end Mlang.MovePaths
