import Mathlib
import Mlang.AstAnalysis
import Mlang.ControlFlows

namespace Mlang.IdentUses

open Mangling (Name)
open AstAnalysis ControlFlows List

inductive Origin
  | direct
  | formatText
  | compileTimeIf
  deriving DecidableEq

/-- What an execution does with variables. -/
inductive Event
  | use (name holder : Name) (origin : Origin)
  | assign (name : Name) (origin : Origin)
  | declare (name : Name)
  deriving DecidableEq

def Event.within (origin : Origin) : Event → Event
  | .use name holder _ => .use name holder origin
  | .assign name _ => .assign name origin
  | .declare name => .declare name

def outside : List Name → List Event → List Event
  | _, [] => []
  | locals, .declare name :: t => outside (name :: locals) t
  | locals, .use name holder origin :: t =>
    if holder ∈ locals then outside locals t else .use name holder origin :: outside locals t
  | locals, .assign name origin :: t =>
    if name ∈ locals then outside locals t else .assign name origin :: outside locals t

theorem mem_outside (locals : List Name) (t : List Event) : ∀ e ∈ outside locals t, e ∈ t := by
  induction t generalizing locals with
  | nil => exact fun e he => he
  | cons x t ih =>
    intro e he
    cases x with
    | declare name => exact mem_cons_of_mem _ (ih _ e he)
    | use name holder origin =>
      unfold outside at he
      split_ifs at he
      · exact mem_cons_of_mem _ (ih _ e he)
      · exact (mem_cons.1 he).elim (fun h => h ▸ mem_cons_self)
          fun h => mem_cons_of_mem _ (ih _ e h)
    | assign name origin =>
      unfold outside at he
      split_ifs at he
      · exact mem_cons_of_mem _ (ih _ e he)
      · exact (mem_cons.1 he).elim (fun h => h ▸ mem_cons_self)
          fun h => mem_cons_of_mem _ (ih _ e h)

/-- What executions depend on besides the syntax. -/
structure Surroundings where
  holds : Name → Name → Prop
  isTrue : Node → Bool

def scope (a : Flow Event) : Flow Event := .filtered (outside []) (mem_outside []) a

def declares (name : Name) : Flow Event := .event (· = .declare name)

def assigns (name : Name) : Flow Event := .event (· = .assign name .direct)

variable (env : Surroundings)

def mentions (name : Name) : Flow Event :=
  .seq (.event (· = .use name name .direct))
    (.star (.event fun e => ∃ used, env.holds name used ∧ e = .use used name .direct))

def calls (name : Name) : Flow Event := .seq (mentions env name) (.maybe (.exit .thrown))

def leavesBody : Exit → Exit
  | .thrown => .thrown
  | _ => .normal

mutual

/-- The executions of a node. `otherwise` is what follows the last `else if` of a chain. -/
def flow (otherwise : Flow Event) : Node → Flow Event
  | .literal => .skip
  | .identifier name => mentions env name
  | .binaryOp shortCircuits left right =>
    .seq (flow .skip left) (if shortCircuits then .maybe (flow .skip right) else flow .skip right)
  | .foldExpression packExpr => flow .skip packExpr
  | .unaryOp operand => flow .skip operand
  | .updateExpression operand => flow .skip operand
  | .ternary condition trueExpr falseExpr =>
    .seq (flow .skip condition) (.either (flow .skip trueExpr) (flow .skip falseExpr))
  | .matchExpression target arms => .seq (flow .skip target) (flowArms arms)
  | .matchArm _ _ expression => flow .skip expression
  | .functionCall name arguments => .seq (flowAll arguments) (calls env name)
  | .callableInvoke callable arguments =>
    .seq (flow .skip callable) (.seq (flowAll arguments) (.maybe (.exit .thrown)))
  | .inlineAsm arguments => flowAll arguments
  | .closure parameters body =>
    .star (scope (.seq (.seqs (parameters.map fun parameter => declares parameter.name))
      (.exits leavesBody (flowAll body))))
  | .methodCall object _ arguments =>
    .seq (flow .skip object) (.seq (flowAll arguments) (.maybe (.exit .thrown)))
  | .fieldAccess structName object =>
    .seq (if structName ≠ [] then mentions env structName else .skip) (flowOptional .skip object)
  | .tupleAccess tuple => flow .skip tuple
  | .mapIterator mapExpr => flow .skip mapExpr
  | .rangeExpression start stop => .seq (flow .skip start) (flow .skip stop)
  | .listLiteral elements => flowAll elements
  | .mapLiteral entries => flowAll entries
  | .mapEntry key value => .seq (flow .skip key) (flow .skip value)
  | .arrayFill value count => .seq (flow .skip value) (flow .skip count)
  | .tupleLiteral elements => flowAll elements
  | .structLiteral _ fields => flowAll fields
  | .indexExpression base index => .seq (flow .skip base) (flow .skip index)
  | .castExpression expression => flow .skip expression
  | .tryExpression expression => .seq (flow .skip expression) (.maybe (.exit .returned))
  | .sizeofExpression _ => .skip
  | .cexprExpression _ => .skip
  | .format formatString arguments namedArguments =>
    .seqs (convertFormatString (fun name => .renamed (Event.within .formatText) (mentions env name))
      formatString (flows arguments) (namedFlows namedArguments))
  | .namedArgument _ value => flow .skip value
  | .expressionStatement expression => flow .skip expression
  | .returnStatement expression => .seq (flowOptional .skip expression) (.exit .returned)
  | .breakStatement => .exit .broke
  | .continueStatement => .exit .continued
  | .throwStatement expression => .seq (flow .skip expression) (.exit .thrown)
  | .letDecl _ name expression => .seq (flow .skip expression) (declares name)
  | .cexprDecl name _ => declares name
  | .varDecl _ name initExpr => .seq (flowOptional .skip initExpr) (declares name)
  | .assignment name expression => .seq (flow .skip expression) (assigns name)
  | .fieldAssignment structName target expression =>
    .seq (flow .skip expression)
      (.seq (if structName ≠ [] then mentions env structName else .skip)
        (flowOptional .skip target))
  | .derefAssignment pointerExpr value => .seq (flow .skip value) (flow .skip pointerExpr)
  | .print formatString arguments namedArguments =>
    .seqs (convertFormatString (fun name => .renamed (Event.within .formatText) (mentions env name))
      formatString (flows arguments) (namedFlows namedArguments))
  | .assertEq left right => .seq (flow .skip left) (flow .skip right)
  | .assert condition => flow .skip condition
  | .staticAssert _ => .skip
  | .structInit varName => declares varName
  | .typeDeclaration => .skip
  | .statementList statements => scope (flowAll statements)
  | .ifStatement conditionInit condition thenBranch elseIfBranch elseBranch =>
    scope (.seq (flowOptional .skip conditionInit) (.seq (flow .skip condition)
      (.either (scope (flowAll thenBranch))
        (flowOptional (flowOptional otherwise elseBranch) elseIfBranch))))
  | .cexprIf condition thenBranch elseIfBranch elseBranch =>
    .renamed (Event.within .compileTimeIf)
      (if env.isTrue condition then scope (flowAll thenBranch)
      else flowOptional (flowOptional otherwise elseBranch) elseIfBranch)
  | .forStatement varName indexVarName iterable body =>
    .seq (flow .skip iterable) (.whileLoop .skip
      (scope (.seq (declares varName) (.seq (declares indexVarName) (flowAll body)))))
  | .whileStatement condition body => .whileLoop (flow .skip condition) (scope (flowAll body))
  | .block statements => scope (flowAll statements)
  | .tryCatch tryBlock catchName catchBlock =>
    .handled (scope (flowAll tryBlock)) (scope (.seq (declares catchName) (flowAll catchBlock)))

def flowAll : List Node → Flow Event
  | [] => .skip
  | node :: nodes => .seq (flow .skip node) (flowAll nodes)

def flowOptional (otherwise : Flow Event) : Option Node → Flow Event
  | none => otherwise
  | some node => flow otherwise node

def flowArms : List Node → Flow Event
  | [] => .skip
  | .matchArm literal binding expression :: arms =>
    .seq (flowOptional .skip literal)
      (.either (scope (.seq (declares binding) (flow .skip expression))) (flowArms arms))
  | _ :: arms => flowArms arms

def flows : List Node → List (Flow Event)
  | [] => []
  | node :: nodes => flow .skip node :: flows nodes

def namedFlows : List Node → List (Name × Flow Event)
  | [] => []
  | .namedArgument name value :: nodes => (name, flow .skip value) :: namedFlows nodes
  | _ :: nodes => namedFlows nodes

end

variable {S : List Name}

/-- An event that comes from an identifier of the syntax has its name among the collected ones. -/
def Covered (S : List Name) : Event → Prop
  | .use _ holder origin => origin = .direct → holder ∈ S
  | .assign name origin => origin = .direct → name ∈ S
  | .declare _ => True

theorem covered_within {origin : Origin} (h : origin ≠ .direct) (e : Event) :
    Covered S (e.within origin) := by
  cases e with
  | use name holder _ => exact fun hdirect => absurd hdirect h
  | assign name _ => exact fun hdirect => absurd hdirect h
  | declare name => trivial

theorem all_of_forall {E : Type} {P : E → Prop} (a : Flow E) (h : ∀ e, P e) : a.All P := by
  induction a generalizing P with
  | skip | exit => trivial
  | event p => exact fun e _ => h e
  | seq a b iha ihb => exact ⟨iha h, ihb h⟩
  | either a b iha ihb => exact ⟨iha h, ihb h⟩
  | loop a iha => exact iha h
  | handled a handler iha ihhandler => exact ⟨iha h, ihhandler h⟩
  | exits g a iha => exact iha h
  | renamed r a iha => exact iha fun e => h (r e)
  | filtered f hf a iha => exact iha h

theorem covered_renamed {origin : Origin} (h : origin ≠ .direct) (a : Flow Event) :
    (Flow.renamed (Event.within origin) a).All (Covered S) :=
  all_of_forall a (covered_within h)

theorem covered_mentions {name : Name} (h : name ∈ S) : (mentions env name).All (Covered S) := by
  refine ⟨?_, (Flow.all_star _).2 ?_⟩
  · rintro _ rfl
    exact fun _ => h
  · rintro _ ⟨used, -, rfl⟩
    exact fun _ => h

theorem covered_calls {name : Name} (h : name ∈ S) : (calls env name).All (Covered S) :=
  ⟨covered_mentions env h, (Flow.all_maybe _).2 trivial⟩

theorem covered_declares (name : Name) : (declares name).All (Covered S) := by
  rintro _ rfl
  trivial

theorem covered_assigns {name : Name} (h : name ∈ S) : (assigns name).All (Covered S) := by
  rintro _ rfl
  exact fun _ => h

theorem covered_ownName (structName : Name)
    (h : ∀ x ∈ (if structName ≠ [] then [structName] else []), x ∈ S) :
    (if structName ≠ [] then mentions env structName else Flow.skip).All (Covered S) := by
  split_ifs at h ⊢
  · exact covered_mentions env (h structName (mem_singleton.2 rfl))
  · trivial

theorem covered_formatOperands (named : List (Name × Flow Event))
    (hnamed : ∀ argument ∈ named, argument.2.All (Covered S)) (arguments : List (Flow Event))
    (harguments : ∀ argument ∈ arguments, argument.All (Covered S)) (ps : List Placeholder) :
    ∀ a ∈ formatOperands (fun name => .renamed (Event.within .formatText) (mentions env name)) named
      arguments ps, a.All (Covered S) := by
  have hfind : ∀ name, (findNamedArgument (fun name =>
      .renamed (Event.within .formatText) (mentions env name)) named name).All (Covered S) := by
    intro name
    unfold findNamedArgument
    split
    · rename_i argument hargument
      exact hnamed argument (mem_of_find?_eq_some hargument)
    · exact covered_renamed (by decide) _
  induction ps generalizing arguments with
  | nil => cases arguments <;> exact fun a ha => absurd ha not_mem_nil
  | cons p ps ih =>
    have hwidth : ∀ a ∈ (p.width.map (findNamedArgument (fun name =>
        .renamed (Event.within .formatText) (mentions env name)) named)).toList,
        a.All (Covered S) := by
      intro a ha
      obtain ⟨name, -, rfl⟩ := Option.map_eq_some_iff.1 (Option.mem_toList.1 ha)
      exact hfind name
    unfold formatOperands
    dsimp only
    split
    · refine forall_mem_cons.2 ⟨hfind p.name, forall_mem_append.2 ⟨hwidth, ?_⟩⟩
      exact ih arguments harguments
    · split
      · exact ih [] fun a ha => absurd ha not_mem_nil
      · rename_i argument later
        obtain ⟨hargument, hlater⟩ := forall_mem_cons.1 harguments
        exact forall_mem_cons.2 ⟨hargument, forall_mem_append.2 ⟨hwidth, ih later hlater⟩⟩

theorem covered_convertFormatString (formatString : List Char) {arguments : List (Flow Event)}
    (harguments : ∀ argument ∈ arguments, argument.All (Covered S)) {named : List (Name × Flow Event)}
    (hnamed : ∀ argument ∈ named, argument.2.All (Covered S)) :
    (Flow.seqs (convertFormatString (fun name =>
      .renamed (Event.within .formatText) (mentions env name)) formatString arguments named)).All
        (Covered S) :=
  (Flow.all_seqs _).2 (covered_formatOperands env named hnamed arguments harguments _)

mutual

theorem covered_flow : ∀ (node : Node) (otherwise : Flow Event), otherwise.All (Covered S) →
    (∀ x ∈ collectUsedIdents node, x ∈ S) → (flow env otherwise node).All (Covered S)
  | .literal, _, _, _ => trivial
  | .identifier name, _, _, h => covered_mentions env (h name (mem_singleton.2 rfl))
  | .binaryOp shortCircuits left right, _, _, h => by
    obtain ⟨hleft, hright⟩ := forall_mem_append.1 h
    refine ⟨covered_flow left _ trivial hleft, ?_⟩
    have hflow := covered_flow right .skip trivial hright
    split_ifs
    · exact (Flow.all_maybe _).2 hflow
    · exact hflow
  | .foldExpression packExpr, _, _, h => covered_flow packExpr _ trivial h
  | .unaryOp operand, _, _, h => covered_flow operand _ trivial h
  | .updateExpression operand, _, _, h => covered_flow operand _ trivial h
  | .ternary condition trueExpr falseExpr, _, _, h => by
    obtain ⟨hboth, hfalse⟩ := forall_mem_append.1 h
    obtain ⟨hcondition, htrue⟩ := forall_mem_append.1 hboth
    exact ⟨covered_flow condition _ trivial hcondition, covered_flow trueExpr _ trivial htrue,
      covered_flow falseExpr _ trivial hfalse⟩
  | .matchExpression target arms, _, _, h => by
    obtain ⟨htarget, harms⟩ := forall_mem_append.1 h
    exact ⟨covered_flow target _ trivial htarget, covered_flowArms arms harms⟩
  | .matchArm literal binding expression, _, _, h =>
    covered_flow expression _ trivial (forall_mem_append.1 h).2
  | .functionCall name arguments, _, _, h => by
    obtain ⟨hname, harguments⟩ := forall_mem_cons.1 h
    exact ⟨covered_flowAll arguments harguments, covered_calls env hname⟩
  | .callableInvoke callable arguments, _, _, h => by
    obtain ⟨hcallable, harguments⟩ := forall_mem_append.1 h
    exact ⟨covered_flow callable _ trivial hcallable, covered_flowAll arguments harguments,
      (Flow.all_maybe _).2 trivial⟩
  | .inlineAsm arguments, _, _, h => covered_flowAll arguments h
  | .closure parameters body, _, _, h => by
    refine (Flow.all_star _).2 ⟨(Flow.all_seqs _).2 fun a ha => ?_, covered_flowAll body h⟩
    obtain ⟨parameter, -, rfl⟩ := mem_map.1 ha
    exact covered_declares parameter.name
  | .methodCall object _ arguments, _, _, h => by
    obtain ⟨hobject, harguments⟩ := forall_mem_append.1 h
    exact ⟨covered_flow object _ trivial hobject, covered_flowAll arguments harguments,
      (Flow.all_maybe _).2 trivial⟩
  | .fieldAccess structName object, _, _, h => by
    obtain ⟨hname, hobject⟩ := forall_mem_append.1 h
    exact ⟨covered_ownName env structName hname, covered_flowOptional object _ trivial hobject⟩
  | .tupleAccess tuple, _, _, h => covered_flow tuple _ trivial h
  | .mapIterator mapExpr, _, _, h => covered_flow mapExpr _ trivial h
  | .rangeExpression start stop, _, _, h => by
    obtain ⟨hstart, hstop⟩ := forall_mem_append.1 h
    exact ⟨covered_flow start _ trivial hstart, covered_flow stop _ trivial hstop⟩
  | .listLiteral elements, _, _, h => covered_flowAll elements h
  | .mapLiteral entries, _, _, h => covered_flowAll entries h
  | .mapEntry key value, _, _, h => by
    obtain ⟨hkey, hvalue⟩ := forall_mem_append.1 h
    exact ⟨covered_flow key _ trivial hkey, covered_flow value _ trivial hvalue⟩
  | .arrayFill value count, _, _, h => by
    obtain ⟨hvalue, hcount⟩ := forall_mem_append.1 h
    exact ⟨covered_flow value _ trivial hvalue, covered_flow count _ trivial hcount⟩
  | .tupleLiteral elements, _, _, h => covered_flowAll elements h
  | .structLiteral _ fields, _, _, h => covered_flowAll fields h
  | .indexExpression base index, _, _, h => by
    obtain ⟨hbase, hindex⟩ := forall_mem_append.1 h
    exact ⟨covered_flow base _ trivial hbase, covered_flow index _ trivial hindex⟩
  | .castExpression expression, _, _, h => covered_flow expression _ trivial h
  | .tryExpression expression, _, _, h =>
    ⟨covered_flow expression _ trivial h, (Flow.all_maybe _).2 trivial⟩
  | .sizeofExpression _, _, _, _ => trivial
  | .cexprExpression _, _, _, _ => trivial
  | .format formatString arguments namedArguments, _, _, h => by
    obtain ⟨harguments, hnamed⟩ := forall_mem_append.1 h
    exact covered_convertFormatString env formatString (covered_flows arguments harguments)
      (covered_namedFlows namedArguments hnamed)
  | .namedArgument _ value, _, _, h => covered_flow value _ trivial h
  | .expressionStatement expression, _, _, h => covered_flow expression _ trivial h
  | .returnStatement expression, _, _, h => ⟨covered_flowOptional expression _ trivial h, trivial⟩
  | .breakStatement, _, _, _ => trivial
  | .continueStatement, _, _, _ => trivial
  | .throwStatement expression, _, _, h => ⟨covered_flow expression _ trivial h, trivial⟩
  | .letDecl _ name expression, _, _, h =>
    ⟨covered_flow expression _ trivial h, covered_declares name⟩
  | .cexprDecl name _, _, _, _ => covered_declares name
  | .varDecl _ name initExpr, _, _, h =>
    ⟨covered_flowOptional initExpr _ trivial h, covered_declares name⟩
  | .assignment name expression, _, _, h => by
    obtain ⟨hname, hexpression⟩ := forall_mem_cons.1 h
    exact ⟨covered_flow expression _ trivial hexpression, covered_assigns hname⟩
  | .fieldAssignment structName target expression, _, _, h => by
    obtain ⟨hboth, hexpression⟩ := forall_mem_append.1 h
    obtain ⟨hname, htarget⟩ := forall_mem_append.1 hboth
    exact ⟨covered_flow expression _ trivial hexpression, covered_ownName env structName hname,
      covered_flowOptional target _ trivial htarget⟩
  | .derefAssignment pointerExpr value, _, _, h => by
    obtain ⟨hpointer, hvalue⟩ := forall_mem_append.1 h
    exact ⟨covered_flow value _ trivial hvalue, covered_flow pointerExpr _ trivial hpointer⟩
  | .print formatString arguments namedArguments, _, _, h => by
    obtain ⟨harguments, hnamed⟩ := forall_mem_append.1 h
    exact covered_convertFormatString env formatString (covered_flows arguments harguments)
      (covered_namedFlows namedArguments hnamed)
  | .assertEq left right, _, _, h => by
    obtain ⟨hleft, hright⟩ := forall_mem_append.1 h
    exact ⟨covered_flow left _ trivial hleft, covered_flow right _ trivial hright⟩
  | .assert condition, _, _, h => covered_flow condition _ trivial h
  | .staticAssert _, _, _, _ => trivial
  | .structInit varName, _, _, _ => covered_declares varName
  | .typeDeclaration, _, _, _ => trivial
  | .statementList statements, _, _, h => covered_flowAll statements h
  | .ifStatement conditionInit condition thenBranch elseIfBranch elseBranch, otherwise, ho, h => by
    obtain ⟨h, helse⟩ := forall_mem_append.1 h
    obtain ⟨h, helseIf⟩ := forall_mem_append.1 h
    obtain ⟨h, hthen⟩ := forall_mem_append.1 h
    obtain ⟨hinit, hcondition⟩ := forall_mem_append.1 h
    exact ⟨covered_flowOptional conditionInit _ trivial hinit,
      covered_flow condition _ trivial hcondition, covered_flowAll thenBranch hthen,
      covered_flowOptional elseIfBranch _ (covered_flowOptional elseBranch _ ho helse) helseIf⟩
  | .cexprIf _ _ _ _, _, _, _ => covered_renamed (by decide) _
  | .forStatement varName indexVarName iterable body, _, _, h => by
    obtain ⟨hiterable, hbody⟩ := forall_mem_append.1 h
    exact ⟨covered_flow iterable _ trivial hiterable, (Flow.all_whileLoop _ _).2 ⟨trivial,
      covered_declares varName, covered_declares indexVarName, covered_flowAll body hbody⟩⟩
  | .whileStatement condition body, _, _, h => by
    obtain ⟨hcondition, hbody⟩ := forall_mem_append.1 h
    exact (Flow.all_whileLoop _ _).2
      ⟨covered_flow condition _ trivial hcondition, covered_flowAll body hbody⟩
  | .block statements, _, _, h => covered_flowAll statements h
  | .tryCatch tryBlock catchName catchBlock, _, _, h => by
    obtain ⟨htry, hcatch⟩ := forall_mem_append.1 h
    exact ⟨covered_flowAll tryBlock htry, covered_declares catchName, covered_flowAll catchBlock hcatch⟩

theorem covered_flowAll : ∀ nodes : List Node, (∀ x ∈ collectAll nodes, x ∈ S) →
    (flowAll env nodes).All (Covered S)
  | [], _ => trivial
  | node :: nodes, h => by
    obtain ⟨hnode, hnodes⟩ := forall_mem_append.1 h
    exact ⟨covered_flow node _ trivial hnode, covered_flowAll nodes hnodes⟩

theorem covered_flowOptional : ∀ (node : Option Node) (otherwise : Flow Event),
    otherwise.All (Covered S) → (∀ x ∈ collectOptional node, x ∈ S) →
      (flowOptional env otherwise node).All (Covered S)
  | none, _, ho, _ => ho
  | some node, _, ho, h => covered_flow node _ ho h

theorem covered_flowArms : ∀ arms : List Node, (∀ x ∈ collectAll arms, x ∈ S) →
    (flowArms env arms).All (Covered S)
  | [], _ => trivial
  | arm :: arms, h => by
    obtain ⟨harm, harms⟩ := forall_mem_append.1 h
    have hrest := covered_flowArms arms harms
    cases arm with
    | matchArm literal binding expression =>
      obtain ⟨hliteral, hexpression⟩ := forall_mem_append.1 harm
      exact ⟨covered_flowOptional literal _ trivial hliteral,
        ⟨covered_declares binding, covered_flow expression _ trivial hexpression⟩, hrest⟩
    | _ => exact hrest

theorem covered_flows : ∀ nodes : List Node, (∀ x ∈ collectAll nodes, x ∈ S) →
    ∀ a ∈ flows env nodes, a.All (Covered S)
  | [], _ => fun a ha => absurd ha not_mem_nil
  | node :: nodes, h => by
    obtain ⟨hnode, hnodes⟩ := forall_mem_append.1 h
    exact forall_mem_cons.2
      ⟨covered_flow node _ trivial hnode, covered_flows nodes hnodes⟩

theorem covered_namedFlows : ∀ nodes : List Node, (∀ x ∈ collectAll nodes, x ∈ S) →
    ∀ argument ∈ namedFlows env nodes, argument.2.All (Covered S)
  | [], _ => fun a ha => absurd ha not_mem_nil
  | node :: nodes, h => by
    obtain ⟨hnode, hnodes⟩ := forall_mem_append.1 h
    have hrest := covered_namedFlows nodes hnodes
    cases node with
    | namedArgument name value =>
      exact forall_mem_cons.2 ⟨covered_flow value _ trivial hnode, hrest⟩
    | _ => exact hrest

end

end Mlang.IdentUses
