namespace Mlang.Statements

abbrev Name := String

mutual

/-- An identifier carries whether it names a local of a move-only type, which a use of its value
moves; `opaqueValue` stands for an expression that mentions no local. -/
inductive ExpressionNode
  | intLiteral (value : Int)
  | opaqueValue
  | identifier (name : Name) (isMoveOnly : Bool)
  | addressOf (name : Name)
  | functionCall (arguments : ArgumentListNode)
  | binaryOp (left right : ExpressionNode)
  | logicalOp (left right : ExpressionNode)
  | ternary (condition trueExpr falseExpr : ExpressionNode)

inductive ArgumentListNode
  | nil
  | cons (shouldConsume : Bool) (argument : ExpressionNode) (arguments : ArgumentListNode)

end

def emitsInstructions : ExpressionNode → Bool
  | .intLiteral _ => false
  | .addressOf _ => false
  | .binaryOp left right => emitsInstructions left || emitsInstructions right
  | _ => true

mutual

inductive StatementNode
  | letDecl (name : Name) (isTyped hasCleanup : Bool) (expression : ExpressionNode)
  | varDecl (name : Name) (hasCleanup : Bool) (initExpr : Option ExpressionNode)
  | assignment (name : Name) (expression : ExpressionNode)
  | expressionStatement (expression : ExpressionNode)
  | returnStatement (expression : ExpressionNode)
  | breakStatement
  | continueStatement
  | block (statements : StatementListNode)
  | ifStatement (node : IfNode)
  | whileStatement (condition : ExpressionNode) (body : StatementListNode)
  | forStatement (varName : Name) (start stop : ExpressionNode) (inclusive : Bool)
      (body : StatementListNode)

inductive StatementListNode
  | nil
  | cons (statement : StatementNode) (statements : StatementListNode)

/-- A final `else` is stored where the parser puts it, which is on the first `if` of a chain. -/
inductive IfNode
  | plain (condition : ExpressionNode) (thenBranch : StatementListNode) (elseBranch : ElseNode)
  | chain (condition : ExpressionNode) (thenBranch : StatementListNode) (elseIfBranch : IfNode)
      (elseBranch : ElseNode)

inductive ElseNode
  | none
  | some (statements : StatementListNode)

end

end Mlang.Statements
