import Mlang.Mangling

namespace Mlang.AstAnalysis

open Mangling (Name TypeNode)

structure ParameterNode where
  name : Name
  type : TypeNode

/-- The nodes of expressions and statements. A literal stands for all nodes without children that are
evaluated: those of numbers, texts and enumerators, and the compile-time ones of concepts and
requirements. The default arm of a match has no literal. -/
inductive Node
  | literal
  | identifier (name : Name)
  | binaryOp (shortCircuits : Bool) (left right : Node)
  | foldExpression (packExpr : Node)
  | unaryOp (operand : Node)
  | updateExpression (operand : Node)
  | ternary (condition trueExpr falseExpr : Node)
  | matchExpression (target : Node) (arms : List Node)
  | matchArm (literal : Option Node) (binding : Name) (expression : Node)
  | functionCall (name : Name) (arguments : List Node)
  | callableInvoke (callable : Node) (arguments : List Node)
  | inlineAsm (arguments : List Node)
  | closure (parameters : List ParameterNode) (body : List Node)
  | methodCall (object : Node) (methodName : Name) (arguments : List Node)
  | fieldAccess (structName : Name) (object : Option Node)
  | tupleAccess (tuple : Node)
  | mapIterator (mapExpr : Node)
  | rangeExpression (start stop : Node)
  | listLiteral (elements : List Node)
  | mapLiteral (entries : List Node)
  | mapEntry (key value : Node)
  | arrayFill (value count : Node)
  | tupleLiteral (elements : List Node)
  | structLiteral (structName : Name) (fields : List Node)
  | indexExpression (base index : Node)
  | castExpression (expression : Node)
  | tryExpression (expression : Node)
  | sizeofExpression (expressionTarget : Option Node)
  | cexprExpression (expression : Node)
  | format (formatString : List Char) (arguments namedArguments : List Node)
  | namedArgument (name : Name) (value : Node)
  | expressionStatement (expression : Node)
  | returnStatement (expression : Option Node)
  | breakStatement
  | continueStatement
  | throwStatement (expression : Node)
  | letDecl (type : Option TypeNode) (name : Name) (expression : Node)
  | cexprDecl (name : Name) (expression : Node)
  | varDecl (type : Option TypeNode) (name : Name) (initExpr : Option Node)
  | assignment (name : Name) (expression : Node)
  | fieldAssignment (structName : Name) (target : Option Node) (expression : Node)
  | derefAssignment (pointerExpr value : Node)
  | print (formatString : List Char) (arguments namedArguments : List Node)
  | assertEq (left right : Node)
  | assert (condition : Node)
  | staticAssert (condition : Node)
  | structInit (varName : Name)
  | typeDeclaration
  | statementList (statements : List Node)
  | ifStatement (conditionInit : Option Node) (condition : Node) (thenBranch : List Node)
      (elseIfBranch elseBranch : Option Node)
  | cexprIf (condition : Node) (thenBranch : List Node) (elseIfBranch elseBranch : Option Node)
  | forStatement (varName indexVarName : Name) (iterable : Node) (body : List Node)
  | whileStatement (condition : Node) (body : List Node)
  | block (statements : List Node)
  | tryCatch (tryBlock : List Node) (catchName : Name) (catchBlock : List Node)

mutual

def collectUsedIdents : Node → List Name
  | .identifier name => [name]
  | .binaryOp _ left right => collectUsedIdents left ++ collectUsedIdents right
  | .unaryOp operand => collectUsedIdents operand
  | .updateExpression operand => collectUsedIdents operand
  | .foldExpression packExpr => collectUsedIdents packExpr
  | .ternary condition trueExpr falseExpr =>
    collectUsedIdents condition ++ collectUsedIdents trueExpr ++ collectUsedIdents falseExpr
  | .matchExpression target arms => collectUsedIdents target ++ collectAll arms
  | .matchArm literal _ expression => collectOptional literal ++ collectUsedIdents expression
  | .functionCall name arguments => name :: collectAll arguments
  | .callableInvoke callable arguments => collectUsedIdents callable ++ collectAll arguments
  | .inlineAsm arguments => collectAll arguments
  | .closure _ body => collectAll body
  | .methodCall object _ arguments => collectUsedIdents object ++ collectAll arguments
  | .fieldAccess structName object =>
    (if structName ≠ [] then [structName] else []) ++ collectOptional object
  | .tupleAccess tuple => collectUsedIdents tuple
  | .mapIterator mapExpr => collectUsedIdents mapExpr
  | .rangeExpression start stop => collectUsedIdents start ++ collectUsedIdents stop
  | .listLiteral elements => collectAll elements
  | .mapLiteral entries => collectAll entries
  | .mapEntry key value => collectUsedIdents key ++ collectUsedIdents value
  | .arrayFill value count => collectUsedIdents value ++ collectUsedIdents count
  | .tupleLiteral elements => collectAll elements
  | .structLiteral _ fields => collectAll fields
  | .indexExpression base index => collectUsedIdents base ++ collectUsedIdents index
  | .castExpression expression => collectUsedIdents expression
  | .tryExpression expression => collectUsedIdents expression
  | .sizeofExpression expressionTarget => collectOptional expressionTarget
  | .cexprExpression expression => collectUsedIdents expression
  | .format _ arguments namedArguments => collectAll arguments ++ collectAll namedArguments
  | .namedArgument _ value => collectUsedIdents value
  | .expressionStatement expression => collectUsedIdents expression
  | .returnStatement expression => collectOptional expression
  | .throwStatement expression => collectUsedIdents expression
  | .letDecl _ _ expression => collectUsedIdents expression
  | .cexprDecl _ expression => collectUsedIdents expression
  | .varDecl _ _ initExpr => collectOptional initExpr
  | .assignment name expression => name :: collectUsedIdents expression
  | .fieldAssignment structName target expression =>
    (if structName ≠ [] then [structName] else []) ++ collectOptional target ++
      collectUsedIdents expression
  | .derefAssignment pointerExpr value => collectUsedIdents pointerExpr ++ collectUsedIdents value
  | .print _ arguments namedArguments => collectAll arguments ++ collectAll namedArguments
  | .assertEq left right => collectUsedIdents left ++ collectUsedIdents right
  | .assert condition => collectUsedIdents condition
  | .statementList statements => collectAll statements
  | .ifStatement conditionInit condition thenBranch elseIfBranch elseBranch =>
    collectOptional conditionInit ++ collectUsedIdents condition ++ collectAll thenBranch ++
      collectOptional elseIfBranch ++ collectOptional elseBranch
  | .forStatement _ _ iterable body => collectUsedIdents iterable ++ collectAll body
  | .whileStatement condition body => collectUsedIdents condition ++ collectAll body
  | .block statements => collectAll statements
  | .tryCatch tryBlock _ catchBlock => collectAll tryBlock ++ collectAll catchBlock
  | .literal => []
  | .breakStatement => []
  | .continueStatement => []
  | .staticAssert _ => []
  | .structInit _ => []
  | .typeDeclaration => []
  | .cexprIf _ _ _ _ => []

def collectAll : List Node → List Name
  | [] => []
  | node :: nodes => collectUsedIdents node ++ collectAll nodes

def collectOptional : Option Node → List Name
  | none => []
  | some node => collectUsedIdents node

end

def isSpace (c : Char) : Bool := c == ' ' || (9 ≤ c.toNat && c.toNat ≤ 13)

def trim (s : List Char) : List Char := ((s.dropWhile isSpace).reverse.dropWhile isSpace).reverse

/-- The texts between the braces of a format string. -/
def placeholders : List Char → Option (List Char) → List (List Char)
  | [], _ => []
  | c :: cs, some inside =>
    if c = '\x7d' then trim inside.reverse :: placeholders cs none
    else placeholders cs (some (c :: inside))
  | '\x7b' :: '\x7b' :: cs, none => placeholders cs none
  | c :: cs, none =>
    if c = '\x7b' ∧ '\x7d' ∈ cs then placeholders cs (some []) else placeholders cs none

def dynamicWidth (spec : List Char) : Option Name :=
  match spec with
  | c :: widthSpec =>
    if c = '<' ∨ c = '>' ∨ c = '^' then
      match (trim widthSpec).reverse with
      | '$' :: width =>
        let name := trim width.reverse
        if name ≠ [] ∧ name.all (fun c => c.isAlphanum || c == '_') = true then some name
        else none
      | _ => none
    else none
  | [] => none

structure Placeholder where
  name : Name
  width : Option Name

def parsePlaceholder (inside : List Char) : Placeholder :=
  if ':' ∈ inside then
    ⟨trim (inside.takeWhile (· ≠ ':')), dynamicWidth (trim ((inside.dropWhile (· ≠ ':')).drop 1))⟩
  else if inside = ['?'] ∨ inside = ['#', '?'] then ⟨[], none⟩
  else ⟨inside, none⟩

def findNamedArgument {α : Type} (identifier : Name → α) (named : List (Name × α)) (name : Name) : α :=
  match named.find? fun argument => decide (argument.1 = name) with
  | some argument => argument.2
  | none => identifier name

/-- What `convertFormatString` generates, in order. -/
def formatOperands {α : Type} (identifier : Name → α) (named : List (Name × α)) :
    List α → List Placeholder → List α
  | _, [] => []
  | arguments, p :: rest =>
    let width := (p.width.map (findNamedArgument identifier named)).toList
    if p.name ≠ [] then
      findNamedArgument identifier named p.name ::
        (width ++ formatOperands identifier named arguments rest)
    else
      match arguments with
      | [] => formatOperands identifier named [] rest
      | argument :: later => argument :: (width ++ formatOperands identifier named later rest)

def convertFormatString {α : Type} (identifier : Name → α) (formatString : List Char)
    (arguments : List α) (named : List (Name × α)) : List α :=
  formatOperands identifier named arguments ((placeholders formatString none).map parsePlaceholder)

end Mlang.AstAnalysis
