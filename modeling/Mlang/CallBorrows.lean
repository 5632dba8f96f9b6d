import Mlang.PointerBorrows

namespace Mlang.CallBorrows

open Mangling (Name)
open OrderedTables PointerBorrows

inductive UnaryOp
  | addr
  | addrMut
  | deref
  | neg
  | bitnot
  | not
  deriving DecidableEq

inductive BinaryOp
  | plus
  | minus
  | multiply
  | divide
  | modulo
  | other
  deriving DecidableEq

/-- The expressions that the check of a call tells apart; `other` is any other. -/
inductive ExpressionNode
  | identifier (name : Name)
  | intLiteral (value : Int)
  | stringLiteral (value : List UInt8)
  | cexpr (expression : ExpressionNode)
  | unary (op : UnaryOp) (operand : ExpressionNode)
  | binary (op : BinaryOp) (left right : ExpressionNode)
  | field (object : ExpressionNode) (fieldName : Name)
  | staticField (structName fieldName : Name)
  | index (base index : ExpressionNode)
  | tupleAccess (tuple : ExpressionNode) (index : Nat)
  | castExpression (expression : ExpressionNode)
  | tryExpression (expression : ExpressionNode)
  | ternary (condition trueExpr falseExpr : ExpressionNode)
  | listLiteral (elements : List ExpressionNode)
  | mapLiteral (keys values : List ExpressionNode)
  | tupleLiteral (elements : List ExpressionNode)
  | structLiteral (names : List Name) (values : List ExpressionNode)
  | other

structure Context where
  borrows : BorrowState
  movedVariables : List Place
  isGlobal : Place → Bool
  isMoveOnlyVariable : Place → Bool
  isPointer : Name → Bool
  constant : Name → Option Int

variable (ctx : Context)

def inInt64 (v : Int) : Option Int := if -2 ^ 63 ≤ v ∧ v < 2 ^ 63 then some v else none

def constantInteger : ExpressionNode → Option Int
  | .intLiteral value => some value
  | .cexpr expression => constantInteger expression
  | .identifier name => ctx.constant name
  | .unary op operand =>
    (constantInteger operand).bind fun v =>
      match op with
      | .neg => if v = -2 ^ 63 then none else some (-v)
      | .bitnot => some (-v - 1)
      | _ => none
  | .binary op left right =>
    (constantInteger left).bind fun l => (constantInteger right).bind fun r =>
      match op with
      | .plus => inInt64 (l + r)
      | .minus => inInt64 (l - r)
      | .multiply => inInt64 (l * r)
      | .divide => if r = 0 ∨ (l = -2 ^ 63 ∧ r = -1) then none else some (l.tdiv r)
      | .modulo => if r = 0 ∨ (l = -2 ^ 63 ∧ r = -1) then none else some (l.tmod r)
      | .other => none
  | _ => none

def hexDigit (n : Nat) : Char := Nat.digitChar n

def borrowMapKeyPath (value : List UInt8) : Segment :=
  .index ('s' :: ':' :: value.flatMap fun byte => [hexDigit (byte.toNat / 16), hexDigit (byte.toNat % 16)])

def indexSegment : ExpressionNode → Segment
  | .stringLiteral value => borrowMapKeyPath value
  | e =>
    match constantInteger ctx e with
    | some v => .index (toString v).toList
    | none => .index ['*']

def resolveBorrowOwnerFromLValue : ExpressionNode → Option Place
  | .identifier name => some (.whole name)
  | .field object _ => resolveBorrowOwnerFromLValue object
  | .staticField structName _ => some (.whole structName)
  | .index base _ => resolveBorrowOwnerFromLValue base
  | .tupleAccess tuple _ => resolveBorrowOwnerFromLValue tuple
  | .unary .deref (.identifier name) =>
    some ((find ctx.borrows.pointerBorrowTarget name).getD (.whole name))
  | .unary _ operand => resolveBorrowOwnerFromLValue operand
  | _ => none

def resolveBorrowPlaceFromLValue : ExpressionNode → Option Place
  | .identifier name => some (.whole name)
  | .field object fieldName =>
    (resolveBorrowPlaceFromLValue object).map fun base => base.extend [.field fieldName]
  | .staticField structName fieldName => some ⟨structName, [.field fieldName]⟩
  | .index base index =>
    (resolveBorrowPlaceFromLValue base).map fun place => place.extend [indexSegment ctx index]
  | .tupleAccess tuple index =>
    (resolveBorrowPlaceFromLValue tuple).map fun base =>
      base.extend [.field (toString index).toList]
  | .unary .deref (.identifier name) =>
    some ((find ctx.borrows.pointerBorrowPlace name).getD (.whole name))
  | .unary _ operand => resolveBorrowPlaceFromLValue operand
  | _ => none

/-- The rest of a place behind its owner. -/
def pathBelow (owner place : Place) : List Segment :=
  if place.owner = owner.owner ∧ owner.path <+: place.path then place.path.drop owner.path.length
  else .field place.owner :: place.path

def describeBorrowPath (e : ExpressionNode) : Option (Place × List Segment) :=
  (resolveBorrowOwnerFromLValue ctx e).map fun owner =>
    match resolveBorrowPlaceFromLValue ctx e with
    | some place => (owner, pathBelow owner place)
    | none => (owner, [])

mutual

/-- The move-only locals that an expression moves. -/
def collectMovedOwners : ExpressionNode → Bool → List Name
  | .identifier name, borrowed =>
    if ctx.isGlobal (.whole name) then []
    else if !borrowed && ctx.isMoveOnlyVariable (.whole name) then [name]
    else []
  | .unary .addr operand, _ => collectMovedOwners operand true
  | .unary .addrMut operand, _ => collectMovedOwners operand true
  | .unary _ operand, borrowed => collectMovedOwners operand borrowed
  | .binary _ left right, _ => collectMovedOwners left false ++ collectMovedOwners right false
  | .field object _, _ => collectMovedOwners object true
  | .index base index, _ => collectMovedOwners base true ++ collectMovedOwners index false
  | .castExpression expression, _ => collectMovedOwners expression false
  | .tryExpression expression, _ => collectMovedOwners expression false
  | .ternary condition trueExpr falseExpr, _ =>
    collectMovedOwners condition false ++ collectMovedOwners trueExpr false ++
      collectMovedOwners falseExpr false
  | .listLiteral elements, _ => collectAllMoved elements
  | .mapLiteral keys values, _ => collectAllMoved keys ++ collectAllMoved values
  | .tupleLiteral elements, _ => collectAllMoved elements
  | .structLiteral _ values, _ => collectAllMoved values
  | _, _ => []

def collectAllMoved : List ExpressionNode → List Name
  | [] => []
  | e :: es => collectMovedOwners e false ++ collectAllMoved es

end

structure InCall where
  wholeOwners : List Place := []
  subpaths : List (Place × List Segment) := []
  exclusiveWholeOwners : List Place := []
  exclusiveSubpaths : List (Place × List Segment) := []
  movedOwners : List Name := []

structure ArgumentBorrow where
  owner : Place
  path : List Segment
  isExclusive : Bool
  deriving DecidableEq

def hasPath (paths : List (Place × List Segment)) (owner : Place) : Bool :=
  paths.any fun e => e.1 == owner

def hasOverlap (paths : List (Place × List Segment)) (owner : Place) (path : List Segment) : Bool :=
  paths.any fun e => e.1 == owner && pathsOverlap e.2 path

def registerBorrowInCall (s : InCall) (b : ArgumentBorrow) : Option InCall :=
  if b.path = [] then
    let overlaps := s.wholeOwners.contains b.owner || hasPath s.subpaths b.owner
    let overlapsExclusive :=
      s.exclusiveWholeOwners.contains b.owner || hasPath s.exclusiveSubpaths b.owner
    if overlaps && (b.isExclusive || overlapsExclusive) then none
    else
      some { s with
        wholeOwners := b.owner :: s.wholeOwners
        exclusiveWholeOwners :=
          if b.isExclusive then b.owner :: s.exclusiveWholeOwners else s.exclusiveWholeOwners }
  else if s.wholeOwners.contains b.owner &&
      (b.isExclusive || s.exclusiveWholeOwners.contains b.owner) then none
  else
    let overlaps := hasOverlap s.subpaths b.owner b.path
    let overlapsExclusive := hasOverlap s.exclusiveSubpaths b.owner b.path
    if overlaps && (b.isExclusive || overlapsExclusive) then none
    else
      some { s with
        subpaths := (b.owner, b.path) :: s.subpaths
        exclusiveSubpaths :=
          if b.isExclusive then (b.owner, b.path) :: s.exclusiveSubpaths else s.exclusiveSubpaths }

def borrowsMoved (owner : Place) (operand : ExpressionNode) : Bool :=
  !ctx.isGlobal owner && ctx.movedVariables.any fun moved =>
    borrowPlacesOverlap ((resolveBorrowPlaceFromLValue ctx operand).getD owner) moved

def exclusiveReborrowParent (isMutable : Bool) : ExpressionNode → Option Name
  | .unary .deref (.identifier name) =>
    if isMutable && isMutBorrower ctx.borrows name then some name else none
  | _ => none

def overlapsActiveBorrower (owner : Place) (path : List Segment) (borrower : Name) : Bool :=
  match find ctx.borrows.pointerBorrowTarget borrower with
  | some target =>
    decide (target = owner) && borrowerPlaceOverlaps ctx.borrows borrower owner (owner.extend path)
  | none => borrowerPlaceOverlaps ctx.borrows borrower owner (owner.extend path)

def overlapsShared (owner : Place) (path : List Segment) : Bool :=
  ctx.borrows.activeBorrowers.any fun borrower =>
    borrower.1 == owner && overlapsActiveBorrower ctx owner path borrower.2

def overlapsMutable (owner : Place) (path : List Segment) (parent : Option Name) : Bool :=
  ctx.borrows.activeMutBorrower.any fun borrow =>
    !isReborrowAncestor ctx.borrows parent borrow.2 && overlapsActiveBorrower ctx owner path borrow.2

def activeConflict (isMutable sharedReference : Bool) (operand : ExpressionNode) (owner : Place)
    (path : List Segment) : Bool :=
  let mutable := overlapsMutable ctx owner path (exclusiveReborrowParent ctx isMutable operand)
  if isMutable then overlapsShared ctx owner path || mutable
  else mutable || (!sharedReference && overlapsShared ctx owner path)

def validateAddress (s : InCall) (isMutable sharedReference : Bool) (operand : ExpressionNode) :
    Option InCall :=
  match describeBorrowPath ctx operand with
  | none => some s
  | some (owner, path) =>
    if borrowsMoved ctx owner operand then none
    else if activeConflict ctx isMutable sharedReference operand owner path then none
    else registerBorrowInCall s ⟨owner, path, !sharedReference⟩

/-- A pointer local counts where it is declared as a pointer and what it points to is move-only. -/
def validatePointer (s : InCall) (name : Name) (target : Place) : Option InCall :=
  if !ctx.isPointer name then some s
  else if !ctx.isMoveOnlyVariable target then some s
  else
    let path :=
      match find ctx.borrows.pointerBorrowPlace name with
      | some place => pathBelow target place
      | none => []
    registerBorrowInCall s ⟨target, path, true⟩

def validateArgument (s : InCall) (sharedReference : Bool) (arg : ExpressionNode) : Option InCall :=
  let s := { s with movedOwners := collectMovedOwners ctx arg false ++ s.movedOwners }
  match arg with
  | .identifier name =>
    match find ctx.borrows.pointerBorrowTarget name with
    | some target => validatePointer ctx s name target
    | none => some s
  | .unary .addr operand => validateAddress ctx s false sharedReference operand
  | .unary .addrMut operand => validateAddress ctx s true sharedReference operand
  | _ => some s

def validateArguments (s : InCall) : List ExpressionNode → List Bool → Option InCall
  | [], _ => some s
  | arg :: args, shared =>
    (validateArgument ctx s (shared.headD false) arg).bind fun s =>
      validateArguments s args shared.tail

def implicitBorrow (implicitWholeOwner : Option Place) : InCall :=
  match implicitWholeOwner with
  | none => {}
  | some owner => { wholeOwners := [owner], exclusiveWholeOwners := [owner] }

def validateTemporaryBorrowArguments (args : List ExpressionNode) (implicitWholeOwner : Option Place)
    (sharedReferenceParameters : List Bool) : Bool :=
  match validateArguments ctx (implicitBorrow implicitWholeOwner) args sharedReferenceParameters with
  | none => false
  | some s =>
    !s.movedOwners.any fun name =>
      s.wholeOwners.contains (.whole name) || hasPath s.subpaths (.whole name)

end Mlang.CallBorrows
