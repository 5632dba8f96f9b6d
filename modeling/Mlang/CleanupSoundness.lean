import Mlang.DropFlags
import Mlang.ScopeStack

namespace Mlang.CleanupSoundness

open StructuredPaths ScopeStack Statements CleanupScopes CleanupPaths DropFlags Option
open CodeGenerator (emitScopeCleanup)

variable {g : CodeGenerator} {new : List ScopeCleanup}

structure Extends (new : List ScopeCleanup) (g g' : CodeGenerator) : Prop where
  scopes : g'.cleanupScopes = grow new g.cleanupScopes
  nextFlag : g.nextFlag ≤ g'.nextFlag

theorem Extends.of_same {g' : CodeGenerator} (hscopes : g'.cleanupScopes = g.cleanupScopes)
    (hnext : g.nextFlag ≤ g'.nextFlag) : Extends [] g g' where
  scopes := by rw [hscopes, grow_nil]
  nextFlag := hnext

theorem Extends.trans {new' : List ScopeCleanup} {g₁ g' : CodeGenerator} (h : Extends new g g₁)
    (h' : Extends new' g₁ g') : Extends (new' ++ new) g g' where
  scopes := by rw [h'.scopes, h.scopes, grow_grow]
  nextFlag := Nat.le_trans h.nextFlag h'.nextFlag

theorem Extends.inside {g' : CodeGenerator} (h : Extends new g.enterCleanupScope g') :
    g'.cleanupScopes = new :: g.cleanupScopes := by
  rw [h.scopes, CodeGenerator.enterCleanupScope, grow, List.append_nil]

theorem Extends.exit {g' : CodeGenerator} (h : Extends new g.enterCleanupScope g') :
    Extends [] g g'.exitCleanupScope := by
  refine Extends.of_same ?_ h.nextFlag
  rw [CodeGenerator.exitCleanupScope, h.inside]
  rfl

theorem extends_registerStructCleanupIfNeeded (g : CodeGenerator) (name : Name)
    (hasCleanup : Bool) : ∃ new, Extends new g (g.registerStructCleanupIfNeeded name hasCleanup) := by
  unfold CodeGenerator.registerStructCleanupIfNeeded
  cases hasCleanup with
  | false => exact ⟨[], Extends.of_same rfl (Nat.le_refl _)⟩
  | true =>
    unfold CodeGenerator.registerStructCleanup
    cases hg : g.cleanupScopes with
    | nil =>
      simp only [if_true]
      exact ⟨[], Extends.of_same rfl (Nat.le_refl _)⟩
    | cons scope scopes =>
      simp only [if_true]
      refine ⟨[⟨name, g.nextFlag⟩], ?_, Nat.le_succ _⟩
      rw [hg]
      rfl

theorem extends_registerLetCleanup (g : CodeGenerator) (name : Name) (isTyped hasCleanup : Bool)
    (e : ExpressionNode) :
    ∃ new, Extends new g (g.registerLetCleanup name isTyped hasCleanup e) := by
  obtain ⟨new, hnew⟩ := extends_registerStructCleanupIfNeeded g name hasCleanup
  rw [CodeGenerator.registerLetCleanup]
  split
  · obtain ⟨new', hnew'⟩ := extends_registerStructCleanupIfNeeded
      (g.registerStructCleanupIfNeeded name hasCleanup) name hasCleanup
    exact ⟨new' ++ new, hnew.trans hnew'⟩
  · exact ⟨new, hnew⟩

theorem extends_generateBranch {statements : CodeGenerator → CodeGenerator}
    (h : ∀ g, ∃ new, Extends new g (statements g)) (g : CodeGenerator) :
    Extends [] g (generateBranch statements g) := by
  obtain ⟨new, hnew⟩ := h (leaveControlFlow g).enterCleanupScope
  obtain ⟨hscopes, hnext⟩ := hnew.exit
  exact ⟨hscopes, hnext⟩

mutual

theorem extends_generateStatement : ∀ (statement : StatementNode) (g : CodeGenerator),
    ∃ new, Extends new g (generateStatement statement g)
  | .letDecl name isTyped hasCleanup e, g => by
    obtain ⟨new, hscopes, hnext⟩ := extends_registerLetCleanup g name isTyped hasCleanup e
    exact ⟨new, hscopes, hnext⟩
  | .varDecl name hasCleanup _, g => by
    obtain ⟨new, hscopes, hnext⟩ := extends_registerStructCleanupIfNeeded g name hasCleanup
    exact ⟨new, hscopes, hnext⟩
  | .assignment _ _, _ => ⟨[], Extends.of_same rfl (Nat.le_refl _)⟩
  | .expressionStatement _, _ => ⟨[], Extends.of_same rfl (Nat.le_refl _)⟩
  | .returnStatement _, _ => ⟨[], Extends.of_same rfl (Nat.le_refl _)⟩
  | .breakStatement, _ => ⟨[], Extends.of_same rfl (Nat.le_refl _)⟩
  | .continueStatement, _ => ⟨[], Extends.of_same rfl (Nat.le_refl _)⟩
  | .block statements, g => by
    obtain ⟨new, hnew⟩ := extends_generateStatements statements g.enterCleanupScope
    exact ⟨[], hnew.exit⟩
  | .ifStatement node, g => ⟨[], extends_generateIfStatement node none nofun g⟩
  | .whileStatement _ body, g => ⟨[], extends_loop body g⟩
  | .forStatement _ _ _ _ body, g => ⟨[], extends_loop body g⟩

theorem extends_loop (body : StatementListNode) (g : CodeGenerator) :
    Extends [] g (leaveControlFlow
      (generateLoopBody body (leaveControlFlow g).enterCleanupScope).exitCleanupScope) := by
  obtain ⟨new, hnew⟩ := extends_generateLoopBody body (leaveControlFlow g).enterCleanupScope
  obtain ⟨hscopes, hnext⟩ := hnew.exit
  exact ⟨hscopes, hnext⟩

theorem extends_generateStatements : ∀ (l : StatementListNode) (g : CodeGenerator),
    ∃ new, Extends new g (generateStatements l g)
  | .nil, g => ⟨[], Extends.of_same rfl (Nat.le_refl _)⟩
  | .cons statement l, g => by
    obtain ⟨new, hnew⟩ := extends_generateStatement statement g
    obtain ⟨new', hnew'⟩ := extends_generateStatements l (generateStatement statement g)
    exact ⟨new' ++ new, hnew.trans hnew'⟩

theorem extends_generateLoopBody : ∀ (l : StatementListNode) (g : CodeGenerator),
    ∃ new, Extends new g (generateLoopBody l g)
  | .nil, g => ⟨[], Extends.of_same rfl (Nat.le_refl _)⟩
  | .cons statement l, g => by
    obtain ⟨new, hnew⟩ := extends_generateStatement statement g
    rw [generateLoopBody]
    split
    · exact ⟨new, hnew⟩
    · obtain ⟨new', hnew'⟩ := extends_generateLoopBody l (generateStatement statement g)
      exact ⟨new' ++ new, hnew.trans hnew'⟩

theorem extends_generateIfStatement : ∀ (node : IfNode)
    (inheritedElse : Option (CodeGenerator → CodeGenerator)),
    (∀ statements ∈ inheritedElse, ∀ g, ∃ new, Extends new g (statements g)) →
      ∀ g, Extends [] g (generateIfStatement node inheritedElse g)
  | .plain _ thenBranch elseBranch, inheritedElse, hinherited, g => by
    have hthen := extends_generateBranch (extends_generateStatements thenBranch) g
    rw [generateIfStatement]
    cases helse : (generateElse elseBranch).or inheritedElse with
    | none => exact ⟨hthen.scopes, hthen.nextFlag⟩
    | some statements =>
      have hstatements : ∀ g, ∃ new, Extends new g (statements g) := by
        rcases or_eq_some_iff.1 helse with hown | ⟨-, hlast⟩
        · exact extends_generateElse elseBranch statements hown
        · exact hinherited statements hlast
      obtain ⟨hscopes, hnext⟩ := hthen.trans (extends_generateBranch hstatements _)
      exact ⟨hscopes, hnext⟩
  | .chain _ thenBranch elseIfBranch elseBranch, inheritedElse, hinherited, g => by
    have hthen := extends_generateBranch (extends_generateStatements thenBranch) g
    have hlast : ∀ statements ∈ inheritedElse.or (generateElse elseBranch), ∀ g,
        ∃ new, Extends new g (statements g) := by
      intro statements hstatements
      rcases or_eq_some_iff.1 hstatements with hfirst | ⟨-, hown⟩
      · exact hinherited statements hfirst
      · exact extends_generateElse elseBranch statements hown
    have hrest := extends_generateIfStatement elseIfBranch _ hlast
      (leaveControlFlow (generateBranch (generateStatements thenBranch) g))
    rw [generateIfStatement]
    have hbefore : Extends [] g
        (leaveControlFlow (generateBranch (generateStatements thenBranch) g)) :=
      ⟨hthen.scopes, hthen.nextFlag⟩
    obtain ⟨hscopes, hnext⟩ := hbefore.trans hrest
    exact ⟨hscopes, hnext⟩

theorem extends_generateElse : ∀ (node : ElseNode) (statements : CodeGenerator → CodeGenerator),
    generateElse node = some statements → ∀ g, ∃ new, Extends new g (statements g)
  | .none, statements, h => by cases h
  | .some l, statements, h => by
    cases h
    exact extends_generateStatements l

end

variable {τ σ : List (Name × Option Nat)} {P : List (Name × Option Nat) → Prop} {s t : Machine}

structure WellFormed (g : CodeGenerator) : Prop where
  ne_nil : g.cleanupScopes ≠ []
  bounded : ∀ c ∈ g.cleanupScopes.flatten, c.dropFlag < g.nextFlag
  nodup : (g.cleanupScopes.flatten.map ScopeCleanup.dropFlag).Nodup

/-- A machine that reaches a point of the code: the locals with a cleanup are those registered,
their flags say which of them are live, and `P` holds of the stack of locals. -/
structure At (P : List (Name × Option Nat) → Prop) (g : CodeGenerator) (s : Machine) : Prop where
  wellFormed : WellFormed g
  live : g.terminated = false
  registered : registeredOf s.locals = g.cleanupScopes.flatten
  agree : FlagsAgree s.flags s.locals
  stack : P (shape s.locals)

/-- A machine that jumps to the innermost loop, in front of which the stack of locals was `σ`. -/
structure Jumped (σ : List (Name × Option Nat)) (s : Machine) : Prop where
  agree : FlagsAgree s.flags s.locals
  nodup : (flagsOf s.locals).Nodup
  stack : σ <:+ shape s.locals

def reaching (σ τ : List (Name × Option Nat)) (g : CodeGenerator) : Post Machine Unit :=
  ⟨fun s _ => At (τ <:+ ·) g s, Jumped σ, Jumped σ, fun _ => True⟩

variable {P' : List (Name × Option Nat) → Prop} {g' : CodeGenerator}

theorem At.nodup (h : At P g s) : (flagsOf s.locals).Nodup := by
  rw [← map_dropFlag_registeredOf, h.registered]
  exact h.wellFormed.nodup

theorem At.mono (h : At P g s) (hscopes : g'.cleanupScopes = g.cleanupScopes)
    (hnext : g.nextFlag ≤ g'.nextFlag) (hlive : g'.terminated = false)
    (hstack : ∀ τ, P τ → P' τ) : At P' g' s where
  wellFormed := by
    constructor
    · rw [hscopes]
      exact h.wellFormed.ne_nil
    · rw [hscopes]
      exact fun c hc => Nat.lt_of_lt_of_le (h.wellFormed.bounded c hc) hnext
    · rw [hscopes]
      exact h.wellFormed.nodup
  live := hlive
  registered := by rw [hscopes, h.registered]
  agree := h.agree
  stack := hstack _ h.stack

theorem At.enter (h : At P g s) : At P g.enterCleanupScope s where
  wellFormed := ⟨List.cons_ne_nil _ _, h.wellFormed.bounded, h.wellFormed.nodup⟩
  live := h.live
  registered := h.registered
  agree := h.agree
  stack := h.stack

theorem At.of_shape (h : At P g s) (hshape : shape t.locals = shape s.locals)
    (hagree : FlagsAgree t.flags t.locals) : At P g t where
  wellFormed := h.wellFormed
  live := h.live
  registered := (registeredOf_of_shape hshape).trans h.registered
  agree := hagree
  stack := hshape ▸ h.stack

theorem At.jumped (h : At (τ <:+ ·) g s) (hσ : σ <:+ τ) : Jumped σ s :=
  ⟨h.agree, h.nodup, hσ.trans h.stack⟩

theorem At.findActiveDropFlag (h : At P g s) {name : Name} (hname : ¬ HidesCleanup name s.locals) :
    g.findActiveDropFlag name = cleanupOf name s.locals := by
  rw [CodeGenerator.findActiveDropFlag, ← h.registered]
  exact find_registeredOf hname

theorem append_subset_append {as as' bs bs' : List Name} (h : as ⊆ as') (h' : bs ⊆ bs') :
    as ++ bs ⊆ as' ++ bs' :=
  List.append_subset.2
    ⟨List.subset_append_of_subset_left _ h, List.subset_append_of_subset_right _ h'⟩

theorem consume_sound (e : ExpressionNode) (names : List Name) :
    Meets (fun s => At P g s ∧ names ⊆ consumedNames e) (consume true g e names)
      (Post.only fun s _ => At P g s) := by
  apply Meets.seq Meets.provided
  rintro - 
  apply Meets.modify
  rintro s ⟨⟨hs, hnames⟩, hknown⟩
  refine hs.of_shape (shape_moveAll names s.locals) ?_
  intro flag hflag
  rw [flagsOf_of_shape (shape_moveAll names s.locals)] at hflag
  rw [liveFlag_moveAll hs.nodup]
  refine (execute_moves g (consumedNames e) s.flags flag).trans ?_
  rw [hs.agree flag hflag]
  cases hlive : liveFlag flag s.locals with
  | false => rfl
  | true =>
    -- A name that may be moved and stands for a live local with a cleanup is moved.
    have hsame : (∃ name ∈ consumedNames e, g.findActiveDropFlag name = some flag) ↔
        ∃ name ∈ names, cleanupOf name s.locals = some flag := by
      constructor
      · rintro ⟨name, hmem, hfound⟩
        rw [hs.findActiveDropFlag (hknown name hmem).1] at hfound
        refine ⟨name, ?_, hfound⟩
        by_contra hnot
        obtain ⟨l, hl, hlflag⟩ := bind_eq_some_iff.1 hfound
        refine (hknown name hmem).2 hnot ⟨l, hl, ?_⟩
        rw [liveFlag_of_mem hs.nodup (mem_of_findLocal hl).1 hlflag] at hlive
        rw [liveCleanup, if_pos hlive, hlflag]
        rfl
      · rintro ⟨name, hmem, hfound⟩
        refine ⟨name, hnames hmem, ?_⟩
        rw [hs.findActiveDropFlag (hknown name (hnames hmem)).1, hfound]
    simp only [hsame]

/-- The values of the arguments are made of names that are consumed with them. -/
def MadeOf : ArgumentListNode → List (List Name) → Prop
  | .nil, _ => True
  | .cons _ argument arguments, names :: values =>
    names ⊆ consumedNames argument ∧ MadeOf arguments values
  | .cons _ _ _, [] => False

theorem consumeArguments_sound : ∀ (arguments : ArgumentListNode) (values : List (List Name)),
    Meets (fun s => At P g s ∧ MadeOf arguments values) (consumeArguments true g arguments values)
      (Post.only fun s _ => At P g s)
  | .nil, _ => Meets.pure fun _ hs => hs.1
  | .cons _ _ _, [] => fun _ hs => hs.2.elim
  | .cons true argument arguments, names :: values => by
    rintro s ⟨hs, hnames, hvalues⟩
    refine Meets.seq (consume_sound argument names) ?_ s ⟨hs, hnames⟩
    intro _ t ht
    exact consumeArguments_sound arguments values t ⟨ht, hvalues⟩
  | .cons false _ arguments, _ :: values => by
    rintro s ⟨hs, -, hvalues⟩
    exact consumeArguments_sound arguments values s ⟨hs, hvalues⟩

mutual

theorem evaluate_sound : ∀ e : ExpressionNode, Meets (At P g) (evaluate true g e)
    (Post.only fun s names => At P g s ∧ names ⊆ consumedNames e)
  | .intLiteral _ => Meets.pure fun _ hs => ⟨hs, List.Subset.refl _⟩
  | .opaqueValue => Meets.pure fun _ hs => ⟨hs, List.Subset.refl _⟩
  | .identifier _ _ => Meets.pure fun _ hs => ⟨hs, List.Subset.refl _⟩
  | .addressOf _ => Meets.pure fun _ hs => ⟨hs, List.Subset.refl _⟩
  | .functionCall arguments => by
    apply Meets.seq (evaluateArguments_sound arguments)
    intro values
    apply Meets.seq (consumeArguments_sound arguments values)
    intro _
    exact Meets.pure fun _ hs => ⟨hs, List.Subset.refl _⟩
  | .binaryOp left right => by
    apply Meets.seq (evaluate_sound left)
    rintro names s ⟨hs, hleft⟩
    refine Meets.seq (evaluate_sound right) ?_ s hs
    intro names'
    exact Meets.pure fun t ⟨ht, hright⟩ => ⟨ht, append_subset_append hleft hright⟩
  | .logicalOp left right => by
    apply Meets.seq (evaluate_sound left)
    rintro names s ⟨hs, hleft⟩
    refine Meets.choose ?_ ?_ s hs
    · exact Meets.pure fun t ht => ⟨ht, List.subset_append_of_subset_left _ hleft⟩
    · apply Meets.seq (evaluate_sound right)
      intro names'
      exact Meets.pure fun t ⟨ht, hright⟩ => ⟨ht, append_subset_append hleft hright⟩
  | .ternary condition trueExpr falseExpr => by
    apply Meets.seq (evaluate_sound condition)
    rintro _ s ⟨hs, -⟩
    refine Meets.choose ?_ ?_ s hs
    · refine (evaluate_sound trueExpr).only (fun _ => id) ?_
      rintro t names ⟨ht, hnames⟩
      refine ⟨ht, fun name hname => ?_⟩
      exact List.mem_append_left _ (List.mem_append_right _ (hnames hname))
    · refine (evaluate_sound falseExpr).only (fun _ => id) ?_
      rintro t names ⟨ht, hnames⟩
      exact ⟨ht, fun name hname => List.mem_append_right _ (hnames hname)⟩

theorem evaluateArguments_sound : ∀ arguments : ArgumentListNode,
    Meets (At P g) (evaluateArguments true g arguments)
      (Post.only fun s values => At P g s ∧ MadeOf arguments values)
  | .nil => Meets.pure fun _ hs => ⟨hs, trivial⟩
  | .cons _ argument arguments => by
    apply Meets.seq (evaluate_sound argument)
    rintro names s ⟨hs, hnames⟩
    refine Meets.seq (evaluateArguments_sound arguments) ?_ s hs
    intro values
    exact Meets.pure fun t ⟨ht, hvalues⟩ => ⟨ht, hnames, hvalues⟩

end

theorem evaluateAndConsume_sound (e : ExpressionNode) :
    Meets (At P g) (evaluateAndConsume true g e) (Post.only fun s _ => At P g s) := by
  apply Meets.seq (evaluate_sound e)
  intro names
  exact consume_sound e names

theorem At.declare (h : At (τ <:+ ·) g s) (name : Name) (hasCleanup : Bool) :
    At (τ <:+ ·) { g.registerStructCleanupIfNeeded name hasCleanup with terminated := false }
      (declare g name hasCleanup s) := by
  cases hasCleanup with
  | false =>
    have hregistered : registeredOf (⟨name, none, true⟩ :: s.locals) = registeredOf s.locals := rfl
    refine ⟨⟨h.wellFormed.ne_nil, h.wellFormed.bounded, h.wellFormed.nodup⟩, rfl,
      hregistered.trans h.registered, h.agree, ?_⟩
    exact h.stack.trans (List.suffix_cons _ _)
  | true =>
    obtain ⟨scope, scopes, hg⟩ := List.exists_cons_of_ne_nil h.wellFormed.ne_nil
    have hlt : ∀ flag ∈ flagsOf s.locals, flag < g.nextFlag := by
      intro flag hflag
      rw [← map_dropFlag_registeredOf, h.registered] at hflag
      obtain ⟨c, hc, rfl⟩ := List.mem_map.1 hflag
      exact h.wellFormed.bounded c hc
    have hgen : (g.registerStructCleanupIfNeeded name true).cleanupScopes =
        (⟨name, g.nextFlag⟩ :: scope) :: scopes := by
      simp [CodeGenerator.registerStructCleanupIfNeeded, CodeGenerator.registerStructCleanup, hg]
    have hnext : (g.registerStructCleanupIfNeeded name true).nextFlag = g.nextFlag + 1 := by
      simp [CodeGenerator.registerStructCleanupIfNeeded, CodeGenerator.registerStructCleanup, hg]
    have hflatten : (g.registerStructCleanupIfNeeded name true).cleanupScopes.flatten =
        ⟨name, g.nextFlag⟩ :: g.cleanupScopes.flatten := by
      rw [hgen, hg]
      rfl
    have hnodup : g.nextFlag ∉ flagsOf s.locals := fun hmem => Nat.lt_irrefl _ (hlt _ hmem)
    constructor
    · constructor
      · rw [hgen]
        exact List.cons_ne_nil _ _
      · rw [hflatten, hnext]
        intro c hc
        rcases List.mem_cons.1 hc with rfl | hc
        · exact Nat.lt_succ_self _
        · exact Nat.lt_succ_of_lt (h.wellFormed.bounded c hc)
      · rw [hflatten, List.map_cons, List.nodup_cons]
        refine ⟨?_, h.wellFormed.nodup⟩
        rwa [← h.registered, map_dropFlag_registeredOf]
    · rfl
    · rw [hflatten, ← h.registered]
      rfl
    · intro flag hflag
      rcases List.mem_cons.1 hflag with rfl | hflag
      · exact (Function.update_self ..).trans (if_pos rfl).symm
      · have hne : flag ≠ g.nextFlag := fun e => hnodup (e ▸ hflag)
        have hskip : liveFlag flag (⟨name, some g.nextFlag, true⟩ :: s.locals) =
            liveFlag flag s.locals := if_neg fun e => hne (some.inj e).symm
        refine (Function.update_of_ne hne ..).trans ((h.agree flag hflag).trans ?_)
        exact hskip.symm
    · exact h.stack.trans (List.suffix_cons _ _)

theorem At.declareLet (h : At (τ <:+ ·) g s) (name : Name) (isTyped hasCleanup : Bool)
    (e : ExpressionNode) (honce : hasCleanup → ¬ inheritsTypeTwice name isTyped e) :
    At (τ <:+ ·) { g.registerLetCleanup name isTyped hasCleanup e with terminated := false }
      (declareLet g name isTyped hasCleanup e s) := by
  have hdeclared := h.declare name hasCleanup
  rw [CodeGenerator.registerLetCleanup, CleanupPaths.declareLet]
  cases hasCleanup with
  | true =>
    rw [if_neg (honce rfl), if_neg (honce rfl)]
    exact hdeclared
  | false =>
    -- Without a cleanup there is nothing to register, however often.
    split <;> exact hdeclared

theorem replace_sound (name : Name) (hname : ¬ HidesCleanup name s.locals) (h : At P g s) :
    ∃ t, replace g name s = some t ∧ At P g t := by
  have hfind := h.findActiveDropFlag hname
  have hshape := shape_setLive name true s.locals
  unfold replace CodeGenerator.emitAssignmentCleanup CodeGenerator.setActiveDropFlag
  rw [hfind]
  cases hflag : cleanupOf name s.locals with
  | none =>
    have hnothing : (findLocal name s.locals).bind liveCleanup = none := by
      rw [bind_eq_none_iff]
      intro l hl
      have hnone : l.cleanup = none := by
        rw [cleanupOf, hl] at hflag
        exact hflag
      rw [liveCleanup, hnone, ite_self]
    simp only [execute, hnothing, toList_none, if_true]
    refine ⟨_, rfl, h.of_shape hshape ?_⟩
    intro flag hmem
    rw [flagsOf_of_shape hshape] at hmem
    rw [liveFlag_setLive h.nodup, hflag, if_neg (by simp)]
    exact h.agree flag hmem
  | some found =>
    obtain ⟨l, hl, hlflag⟩ := bind_eq_some_iff.1 hflag
    have hvalue : s.flags found = l.isLive := by
      rw [h.agree found (mem_flagsOf_of_cleanupOf hflag)]
      exact liveFlag_of_mem h.nodup (mem_of_findLocal hl).1 hlflag
    have hcalls : ((findLocal name s.locals).bind liveCleanup).toList =
        if l.isLive then [found] else [] := by
      rw [hl, bind_some, liveCleanup, hlflag]
      cases l.isLive <;> rfl
    have hrun : (execute [.runCleanup found] s.flags).1 = if l.isLive then [found] else [] := by
      simp only [execute, hvalue]
      cases l.isLive <;> rfl
    simp only [hcalls, hrun, if_true]
    refine ⟨_, rfl, h.of_shape hshape ?_⟩
    intro flag hmem
    rw [flagsOf_of_shape hshape] at hmem
    rw [liveFlag_setLive h.nodup, hflag]
    by_cases hsame : found = flag
    · rw [if_pos (congrArg some hsame), hsame]
      exact Function.update_self ..
    · rw [if_neg fun e => hsame (some.inj e), ← h.agree flag hmem]
      refine (Function.update_of_ne (Ne.symm hsame) ..).trans ?_
      simp only [execute]
      split
      · exact Function.update_of_ne (Ne.symm hsame) ..
      · rfl

theorem leave_all (h : At P g s) : ∃ t, leave g.emitAllActiveCleanups 0 s = some t := by
  have hinner : inner 0 s.locals = s.locals := List.take_length
  have hrun := (execute_cleanups h.agree h.nodup).1
  rw [h.registered] at hrun
  rw [leave, CodeGenerator.emitAllActiveCleanups, h.live, hinner]
  exact ⟨_, if_pos hrun⟩

theorem leave_inside (hregistered : registeredOf s.locals = g.cleanupScopes.flatten)
    (hext : Extends new g.enterCleanupScope g') (ht : At (shape s.locals <:+ ·) g' t) : ∃ t',
    leave g'.emitScopeExit s.locals.length t = some t' ∧
    shape (outer s.locals.length t'.locals) = shape s.locals ∧
    FlagsAgree t'.flags (outer s.locals.length t'.locals) := by
  have hlen : (shape s.locals).length = s.locals.length := List.length_map _
  have hshape := shape_outer ht.stack
  rw [hlen] at hshape
  have hsplit := inner_append_outer s.locals.length t.locals
  have hnew : registeredOf (inner s.locals.length t.locals) = new := by
    have happend := ht.registered
    rw [← hsplit, registeredOf, List.filterMap_append, hext.inside, List.flatten_cons] at happend
    refine List.append_cancel_right (happend.trans ?_)
    rw [← hregistered, ← registeredOf_of_shape hshape]
    rfl
  have hagree := ht.agree
  have hnodup := ht.nodup
  rw [← hsplit] at hagree hnodup
  have hparts := hnodup
  rw [flagsOf, List.filterMap_append, List.nodup_append] at hparts
  obtain ⟨hcalls, hrest⟩ := execute_cleanups hagree.left hparts.1
  rw [hnew] at hcalls hrest
  have hemit : g'.emitScopeExit = new.map emitScopeCleanup := by
    rw [CodeGenerator.emitScopeExit, ht.live, hext.inside]
    rfl
  rw [leave, hemit]
  refine ⟨_, if_pos hcalls, hshape, ?_⟩
  refine (hagree.right hnodup).congr fun flag hflag => hrest flag fun hmem => ?_
  exact hparts.2.2 flag hmem flag hflag rfl

theorem leave_scope (h : At P g s) (hext : Extends new g.enterCleanupScope g')
    (ht : At (shape s.locals <:+ ·) g' t) : ∃ t', leave g'.emitScopeExit s.locals.length t = some t' ∧
    At P g'.exitCleanupScope { t' with locals := outer s.locals.length t'.locals } := by
  obtain ⟨t', hleave, hshape, hagree⟩ := leave_inside h.registered hext ht
  refine ⟨t', hleave, ?_⟩
  have hexit : g'.exitCleanupScope.cleanupScopes = g.cleanupScopes := by
    rw [CodeGenerator.exitCleanupScope, hext.inside]
    rfl
  exact (h.mono hexit hext.nextFlag ht.live fun _ => id).of_shape hshape hagree

variable {ρ : List (Name × Option Nat)} {p : Paths Machine Unit}

theorem reaching_mono {Q : Machine → Prop} (h : Meets Q p (reaching σ τ g))
    (hext : Extends [] g g') (hlive : g'.terminated = false) : Meets Q p (reaching σ τ g') := by
  refine h.weaken (fun _ => id) ?_ (fun _ => id) (fun _ => id) fun _ => id
  intro s _ hs
  exact hs.mono (hext.scopes.trans (grow_nil _)) hext.nextFlag hlive fun _ => id

theorem scope_sound (hext : Extends new g.enterCleanupScope g') (hP : ∀ τ, P τ → σ <:+ τ)
    (hp : ∀ τ, σ <:+ τ → Meets (At (τ <:+ ·) g.enterCleanupScope) p (reaching σ τ g')) :
    Meets (At P g) (scope g'.emitScopeExit p)
      ⟨fun s _ => At P g'.exitCleanupScope s, Jumped σ, Jumped σ, fun _ => True⟩ := by
  apply Meets.getThen
  intro s hs
  have hinside : Meets (fun t => t = s) p (reaching σ (shape s.locals) g') := by
    rintro t rfl
    obtain ⟨hwell, hlive, hregistered, hagree, hstack⟩ := hs.enter
    exact hp (shape t.locals) (hP _ hstack) t
      ⟨hwell, hlive, hregistered, hagree, List.suffix_refl _⟩
  have hleave : Meets (At (shape s.locals <:+ ·) g')
      (do Paths.attempt (leave g'.emitScopeExit s.locals.length)
          Paths.modify (fun s' => { s' with locals := outer s.locals.length s'.locals }))
      (Post.only fun t _ => At P g'.exitCleanupScope t) := by
    refine Meets.seq (R := fun t _ =>
      At P g'.exitCleanupScope { t with locals := outer s.locals.length t.locals }) ?_ ?_
    · exact Meets.attempt fun t ht => leave_scope hs hext ht
    · intro _
      exact Meets.modify fun t ht => ht
  refine Meets.bind hinside ?_
  intro _
  exact hleave.only (fun _ => id) fun _ _ => id

theorem jump_sound {loop : Option Nat} (hloop : ∀ n, loop = some n → n = σ.length)
    (hσ : σ <:+ τ) : Meets (At (τ <:+ ·) g) (jump true loop) (Post.only fun s _ => Jumped σ s) := by
  cases loop with
  | none => exact Meets.require fun _ _ => False.elim
  | some n =>
    apply Meets.seq Meets.provided
    intro _
    apply Meets.attempt
    rintro s ⟨hs, hnone⟩
    refine ⟨s, ?_, hs.jumped hσ⟩
    rw [leave, hnone]
    rfl

theorem loop_sound {condition : Paths Machine Unit} (h : At (· = ρ) g s)
    (hext : Extends new g.enterCleanupScope g')
    (hcondition : Meets (At (· = ρ) g) condition (Post.only fun t _ => At (· = ρ) g t))
    (hp : ∀ τ, ρ <:+ τ → Meets (At (τ <:+ ·) g.enterCleanupScope) p (reaching ρ τ g')) :
    Meets (At (· = ρ) g)
      (Paths.loop (fun _ => loopHead condition) (loopBody s (scope g'.emitScopeExit p)))
      ⟨fun t _ => At (· = ρ) g t, fun _ => False, fun _ => False, fun _ => True⟩ := by
  have hlen : ρ.length = s.locals.length := by
    rw [← h.stack]
    exact List.length_map _
  have hjump : ∀ t, Jumped ρ t → ∀ t', t' = { t with locals := outer s.locals.length t.locals } →
      At (· = ρ) g t' := by
    rintro t ht t' rfl
    have hshape := shape_outer ht.stack
    rw [hlen] at hshape
    exact h.of_shape (hshape.trans h.stack.symm) (ht.agree.outer _ ht.nodup)
  refine Meets.loop (I := fun _ => At (· = ρ) g) (J := fun _ => At (· = ρ) g) ?_ ?_
  · intro _
    apply Meets.seq hcondition
    intro _
    apply Meets.choose
    · exact Meets.pure fun t ht => ht
    · exact Meets.pure fun t ht => ht
  · intro _
    apply Meets.leaving
    refine (scope_sound hext (fun _ hτ => hτ ▸ List.suffix_refl _) hp).weaken (fun _ => id) ?_ hjump
      hjump fun _ => id
    rintro t _ ht t' rfl
    exact h.of_shape (ht.stack.trans h.stack.symm) ht.agree

structure Sound (σ : List (Name × Option Nat)) (statements : GeneratedStatements) : Prop where
  scopes : ∀ g, ∃ new, Extends new g (statements.generate g)
  meets : ∀ τ g, σ <:+ τ →
    Meets (At (τ <:+ ·) g) (statements.paths g) (reaching σ τ (statements.generate g))

theorem branch_sound {statements : GeneratedStatements} (h : Sound σ statements) (hσ : σ <:+ τ)
    {g' : CodeGenerator} (hext : Extends [] (generateBranch statements.generate g) g')
    (hlive : g'.terminated = false) :
    Meets (At (τ <:+ ·) (leaveControlFlow g)) (branch statements g) (reaching σ τ g') := by
  obtain ⟨new, hnew⟩ := h.scopes (leaveControlFlow g).enterCleanupScope
  have hscope := scope_sound (P := (τ <:+ ·)) hnew (fun _ hτ => hσ.trans hτ)
    fun τ' hτ' => h.meets τ' _ hτ'
  exact reaching_mono hscope hext hlive

theorem At.leaveControlFlow (h : At P g s) : At P (leaveControlFlow g) s :=
  h.mono rfl (Nat.le_refl _) rfl fun _ => id

theorem for_sound {varName : Name} {new : List ScopeCleanup} {g' : CodeGenerator}
    {p : Nat → Paths Machine Unit}
    (hext : Extends new (leaveControlFlow g).enterCleanupScope g')
    (hp : ∀ ρ τ, ρ <:+ τ → Meets (At (τ <:+ ·) (leaveControlFlow g).enterCleanupScope)
      (p ρ.length) (reaching ρ τ g')) :
    Meets (At (τ <:+ ·) g)
      (do Paths.modify (declare g varName false)
          let before ← Paths.get
          Paths.loop (fun _ => loopHead (pure ()))
            (loopBody before (scope g'.emitScopeExit (p before.locals.length)))
          Paths.modify (fun s => { s with locals := s.locals.tail }))
      (reaching σ τ (leaveControlFlow g'.exitCleanupScope)) := by
  apply Meets.of_state
  intro r hr
  have hdeclare : Meets (fun t => t = r) (Paths.modify (declare g varName false))
      (Post.only fun s _ => s = declare g varName false r) :=
    Meets.modify fun _ ht => ht ▸ rfl
  apply Meets.seq hdeclare
  intro _
  apply Meets.getThen
  rintro s rfl
  have hstart : At (· = shape (declare g varName false r).locals) (leaveControlFlow g)
      (declare g varName false r) := by
    obtain ⟨hwell, -, hregistered, hagree, -⟩ := hr.declare varName false
    exact ⟨⟨hwell.ne_nil, hwell.bounded, hwell.nodup⟩, rfl, hregistered, hagree, rfl⟩
  have hloop := @loop_sound _ _ _ _ _ _ (pure ()) hstart hext (Meets.pure fun _ ht => ht) (hp _ · ·)
  have hlen : (shape (declare g varName false r).locals).length =
      (declare g varName false r).locals.length := List.length_map _
  rw [hlen] at hloop
  refine Meets.bind (hloop.weaken (fun t ht => ht ▸ hstart) (fun _ _ => id) (fun _ => False.elim)
    (fun _ => False.elim) fun _ => id) ?_
  intro _
  apply Meets.modify
  rintro ⟨flags, locals⟩ ht
  have hnodup := ht.nodup
  obtain ⟨-, -, -, hagree, hstack⟩ := ht
  cases locals with
  | nil => cases hstack
  | cons l ls =>
    have hshape : shape ls = shape r.locals := (List.cons.inj hstack).2
    have hat := (hr.of_shape (t := ⟨flags, ls⟩) hshape (hagree.tail hnodup)).leaveControlFlow
    obtain ⟨hscopes, hnext⟩ := hext.exit
    exact hat.mono (hscopes.trans (grow_nil _)) hnext rfl fun _ => id

mutual

theorem statement_sound : ∀ (statement : StatementNode) {loop : Option Nat}
    (σ : List (Name × Option Nat)), (∀ n, loop = some n → n = σ.length) → ∀ τ g, σ <:+ τ →
      Meets (At (τ <:+ ·) g) (run true statement loop g) (reaching σ τ (generateStatement statement g))
  | .letDecl name isTyped hasCleanup e, loop, σ, hloop, τ, g, hσ => by
    apply Meets.seq (evaluateAndConsume_sound e)
    intro _
    apply Meets.seq Meets.provided
    intro _
    exact Meets.modify fun s hs => hs.1.declareLet name isTyped hasCleanup e hs.2
  | .varDecl name hasCleanup e, loop, σ, hloop, τ, g, hσ => by
    apply Meets.seq (evaluateAndConsume_sound _)
    intro _
    exact Meets.modify fun s hs => hs.declare name hasCleanup
  | .assignment name e, loop, σ, hloop, τ, g, hσ => by
    apply Meets.seq (evaluateAndConsume_sound e)
    intro _
    apply Meets.seq Meets.provided
    intro _
    apply Meets.attempt
    rintro s ⟨hs, hname⟩
    obtain ⟨t, hreplace, ht⟩ := replace_sound name hname hs
    exact ⟨t, hreplace, ht.leaveControlFlow⟩
  | .expressionStatement e, loop, σ, hloop, τ, g, hσ => by
    apply Meets.seq (evaluate_sound e)
    intro names
    apply Meets.pure
    rintro s ⟨hs, -⟩
    refine hs.mono rfl (Nat.le_refl _) ?_ fun _ => id
    simp only [generateStatement, hs.live, Bool.false_and]
  | .returnStatement e, loop, σ, hloop, τ, g, hσ => by
    apply Meets.seq (evaluateAndConsume_sound e)
    intro _
    refine Meets.seq (R := fun _ _ => True) ?_ ?_
    · apply Meets.attempt
      intro s hs
      obtain ⟨t, ht⟩ := leave_all hs
      exact ⟨t, ht, trivial⟩
    · intro _
      exact Meets.exitBy fun _ _ => trivial
  | .breakStatement, loop, σ, hloop, τ, g, hσ => by
    apply Meets.seq (jump_sound hloop hσ)
    intro _
    exact Meets.exitBy fun _ => id
  | .continueStatement, loop, σ, hloop, τ, g, hσ => by
    apply Meets.seq (jump_sound hloop hσ)
    intro _
    exact Meets.exitBy fun _ => id
  | .block statements, loop, σ, hloop, τ, g, hσ => by
    obtain ⟨new, hnew⟩ := extends_generateStatements statements g.enterCleanupScope
    exact scope_sound hnew (fun _ hτ => hσ.trans hτ)
      fun τ' hτ' => statements_sound statements σ hloop τ' _ hτ'
  | .ifStatement node, loop, σ, hloop, τ, g, hσ => 
    if_sound node none σ hloop (fun _ h => nomatch h) τ g hσ
  | .whileStatement condition body, loop, σ, hloop, τ, g, hσ => by
    obtain ⟨new, hnew⟩ := extends_generateLoopBody body (leaveControlFlow g).enterCleanupScope
    apply Meets.getThen
    intro s hs
    have hstart : At (· = shape s.locals) (leaveControlFlow g) s := by
      obtain ⟨hwell, -, hregistered, hagree, -⟩ := hs.leaveControlFlow
      exact ⟨hwell, rfl, hregistered, hagree, rfl⟩
    have hcondition : Meets (At (· = shape s.locals) (leaveControlFlow g))
        (do let _ ← evaluate true g condition; pure ())
        (Post.only fun t _ => At (· = shape s.locals) (leaveControlFlow g) t) := by
      intro t ht
      have hat : At (· = shape s.locals) g t := ht.mono rfl (Nat.le_refl _) hs.live fun _ => id
      refine Meets.seq (evaluate_sound condition) ?_ t hat
      intro names
      exact Meets.pure fun _ ⟨hafter, _⟩ => hafter.leaveControlFlow
    have hlen : (shape s.locals).length = s.locals.length := List.length_map _
    have hloop := loop_sound hstart hnew hcondition fun τ' hτ' =>
      loopBody_sound body (shape s.locals) (fun _ h => (some.inj h).symm) τ' _ hτ'
    rw [hlen] at hloop
    obtain ⟨hscopes, hnext⟩ := hnew.exit
    refine hloop.weaken (fun t ht => ht ▸ hstart) ?_ (fun _ => False.elim) (fun _ => False.elim)
      fun _ => id
    intro t _ ht
    refine ht.mono (hscopes.trans (grow_nil _)) hnext rfl ?_
    rintro _ rfl
    exact hs.stack
  | .forStatement varName start stop inclusive body, loop, σ, hloop, τ, g, hσ => by
    obtain ⟨new, hnew⟩ := extends_generateLoopBody body (leaveControlFlow g).enterCleanupScope
    apply Meets.seq (evaluate_sound start)
    rintro _ s ⟨hs, -⟩
    refine Meets.seq (evaluate_sound stop) ?_ s hs
    rintro _ t ⟨ht, -⟩
    refine for_sound (p := fun n => runList true body n (leaveControlFlow g).enterCleanupScope)
      hnew ?_ t ht
    exact fun ρ τ' hρ => loopBody_sound body ρ (fun _ h => (some.inj h).symm) τ' _ hρ

theorem statements_sound : ∀ (l : StatementListNode) {loop : Option Nat}
    (σ : List (Name × Option Nat)), (∀ n, loop = some n → n = σ.length) → ∀ τ g, σ <:+ τ →
      Meets (At (τ <:+ ·) g) (runList true l loop g) (reaching σ τ (generateStatements l g))
  | .nil, loop, σ, hloop, τ, g, hσ => Meets.pure fun _ hs => hs
  | .cons statement l, loop, σ, hloop, τ, g, hσ => by
    refine Meets.bind (statement_sound statement σ hloop τ g hσ) ?_
    intro _
    exact statements_sound l σ hloop τ _ hσ

theorem loopBody_sound : ∀ (l : StatementListNode) {loop : Option Nat}
    (σ : List (Name × Option Nat)), (∀ n, loop = some n → n = σ.length) → ∀ τ g, σ <:+ τ →
      Meets (At (τ <:+ ·) g) (runList true l loop g) (reaching σ τ (generateLoopBody l g))
  | .nil, loop, σ, hloop, τ, g, hσ => Meets.pure fun _ hs => hs
  | .cons statement l, loop, σ, hloop, τ, g, hσ => by
    rw [generateLoopBody]
    split
    · next hend =>
      -- No path reaches the statements that are left out.
      refine Meets.bind (statement_sound statement σ hloop τ g hσ) ?_
      rintro _ s hs
      have hlive := hs.live
      rw [hend] at hlive
      cases hlive
    · refine Meets.bind (statement_sound statement σ hloop τ g hσ) ?_
      intro _
      exact loopBody_sound l σ hloop τ _ hσ

theorem if_sound : ∀ (node : IfNode) {loop : Option Nat}
    (inheritedElse : Option GeneratedStatements) (σ : List (Name × Option Nat)),
    (∀ n, loop = some n → n = σ.length) → (∀ statements ∈ inheritedElse, Sound σ statements) →
      ∀ τ g, σ <:+ τ → Meets (At (τ <:+ ·) g) (runIf true node loop inheritedElse g)
        (reaching σ τ (generateIfStatement node (inheritedElse.map GeneratedStatements.generate) g))
  | .plain condition thenBranch elseBranch, loop, inheritedElse, σ, hloop, hinherited, τ, g, hσ => by
    have hthen : Sound σ ⟨generateStatements thenBranch, runList true thenBranch loop⟩ :=
      ⟨extends_generateStatements thenBranch, statements_sound thenBranch σ hloop⟩
    have hgen : (generateElse elseBranch).or (inheritedElse.map GeneratedStatements.generate) =
        ((runElse true elseBranch loop).or inheritedElse).map GeneratedStatements.generate := by
      cases elseBranch with
      | none => rfl
      | some l => rfl
    apply Meets.seq (evaluate_sound condition)
    rintro _ s ⟨hs, -⟩
    simp only [generateIfStatement, hgen]
    cases helse : (runElse true elseBranch loop).or inheritedElse with
    | none =>
      refine Meets.choose (branch_sound hthen hσ ?_ rfl) ?_ s hs.leaveControlFlow
      · exact ⟨(grow_nil _).symm, Nat.le_refl _⟩
      · obtain ⟨hscopes, hnext⟩ := extends_generateBranch hthen.scopes g
        apply Meets.pure
        intro t ht
        exact ht.mono (hscopes.trans (grow_nil _)) hnext rfl fun _ => id
    | some statements =>
      have hstatements : Sound σ statements := by
        rcases or_eq_some_iff.1 helse with hown | ⟨-, hlast⟩
        · exact else_sound elseBranch σ hloop statements hown
        · exact hinherited statements hlast
      have hend := extends_generateBranch hstatements.scopes
        (generateBranch (generateStatements thenBranch) g)
      refine Meets.choose (branch_sound hthen hσ ?_ rfl) ?_ s hs.leaveControlFlow
      · exact ⟨hend.scopes, hend.nextFlag⟩
      · obtain ⟨hscopes, hnext⟩ := extends_generateBranch hthen.scopes g
        refine (branch_sound hstatements hσ ?_ rfl).weaken ?_ (fun _ _ => id) (fun _ => id)
          (fun _ => id) fun _ => id
        · exact ⟨(grow_nil _).symm, Nat.le_refl _⟩
        · intro t ht
          exact ht.mono (hscopes.trans (grow_nil _)) hnext rfl fun _ => id
  | .chain condition thenBranch elseIfBranch elseBranch, loop, inheritedElse, σ, hloop, hinherited,
      τ, g, hσ => by
      have hthen : Sound σ ⟨generateStatements thenBranch, runList true thenBranch loop⟩ :=
        ⟨extends_generateStatements thenBranch, statements_sound thenBranch σ hloop⟩
      have hlast : ∀ statements ∈ inheritedElse.or (runElse true elseBranch loop),
          Sound σ statements := by
        intro statements hstatements
        rcases or_eq_some_iff.1 hstatements with hfirst | ⟨-, hown⟩
        · exact hinherited statements hfirst
        · exact else_sound elseBranch σ hloop statements hown
      have hgen : (inheritedElse.map GeneratedStatements.generate).or (generateElse elseBranch) =
          (inheritedElse.or (runElse true elseBranch loop)).map GeneratedStatements.generate := by
        cases inheritedElse with
        | some statements => rfl
        | none =>
          cases elseBranch with
          | none => rfl
          | some l => rfl
      have hrest := if_sound elseIfBranch _ σ hloop hlast τ
        (leaveControlFlow (generateBranch (generateStatements thenBranch) g)) hσ
      have hend := extends_generateIfStatement elseIfBranch
        ((inheritedElse.or (runElse true elseBranch loop)).map GeneratedStatements.generate) ?_
        (leaveControlFlow (generateBranch (generateStatements thenBranch) g))
      · apply Meets.seq (evaluate_sound condition)
        rintro _ s ⟨hs, -⟩
        simp only [generateIfStatement, hgen]
        refine Meets.choose (branch_sound hthen hσ ?_ rfl) ?_ s hs.leaveControlFlow
        · exact ⟨hend.scopes, hend.nextFlag⟩
        · obtain ⟨hscopes, hnext⟩ := extends_generateBranch hthen.scopes g
          refine (@reaching_mono _ _ _ (leaveControlFlow _) _ _ hrest ?_ rfl).weaken ?_ (fun _ _ => id)
            (fun _ => id) (fun _ => id) fun _ => id
          · exact ⟨(grow_nil _).symm, Nat.le_refl _⟩
          · intro t ht
            exact ht.mono (hscopes.trans (grow_nil _)) hnext rfl fun _ => id
      · intro generate hgenerate
        obtain ⟨statements, hmem, rfl⟩ := map_eq_some_iff.1 hgenerate
        exact (hlast statements hmem).scopes

theorem else_sound : ∀ (node : ElseNode) {loop : Option Nat} (σ : List (Name × Option Nat)),
    (∀ n, loop = some n → n = σ.length) → ∀ statements, runElse true node loop = some statements →
      Sound σ statements
  | .none, loop, σ, hloop, statements, h => by cases h
  | .some l, loop, σ, hloop, statements, h => by
    cases h
    exact ⟨extends_generateStatements l, statements_sound l σ hloop⟩

end

theorem registeredOf_parameters (parameters : List Name) :
    registeredOf (startCall parameters).locals = [] := by
  induction parameters with
  | nil => rfl
  | cons name names ih => exact ih

/-- On every path of a function whose steps are those at which the drop flags follow the locals,
each scope that is left cleans up its live locals, each once and the latest first, and nothing
else. -/
theorem runFunction_cleansUpLiveLocals (body : StatementListNode) (parameters : List Name) :
    ¬ runFunction true body (startCall parameters) .fault := by
  have hnone : registeredOf (startCall parameters).locals = [] := registeredOf_parameters parameters
  have hflags : flagsOf (startCall parameters).locals = [] := by
    rw [← map_dropFlag_registeredOf, hnone]
    rfl
  have hstart : At (shape (startCall parameters).locals <:+ ·) startFunction
      (startCall parameters) := by
    refine ⟨⟨List.cons_ne_nil _ _, nofun, List.nodup_nil⟩, rfl, hnone, ?_, List.suffix_refl _⟩
    intro flag hflag
    rw [hflags] at hflag
    cases hflag
  obtain ⟨new, hnew⟩ := extends_generateStatements body startFunction
  have hrun : Meets (fun s => s = startCall parameters) (runFunction true body)
      ⟨fun _ _ => True, fun _ => True, fun _ => True, fun _ => True⟩ := by
    apply Meets.getThen
    rintro s rfl
    have hbody := @statements_sound body none (shape (startCall parameters).locals) nofun
      (shape (startCall parameters).locals) startFunction (List.suffix_refl _)
    refine Meets.bind (hbody.weaken (fun t ht => ht ▸ hstart) (fun _ _ => id) (fun _ _ => trivial)
      (fun _ _ => trivial) fun _ => id) ?_
    intro _
    refine Meets.seq (R := fun _ _ => True) ?_ fun _ => Meets.modify fun _ _ => trivial
    apply Meets.attempt
    intro t ht
    obtain ⟨t', hleave, -⟩ := leave_inside (g := ⟨[], 0, false⟩) hnone hnew ht
    exact ⟨t', hleave, trivial⟩
  exact hrun _ rfl _

def breaksFromLoop : StatementListNode :=
  .cons (.whileStatement .opaqueValue
    (.cons (.letDecl "s" false true .opaqueValue) (.cons .breakStatement .nil))) .nil

theorem breaksFromLoop_leavesLocal : ¬ ∀ (body : StatementListNode) (parameters : List Name),
    ¬ runFunction false body (startCall parameters) .fault := by
  intro hclaim
  apply hclaim breaksFromLoop []
  have hlet : run false (.letDecl "s" false true .opaqueValue) (some 0)
      (leaveControlFlow startFunction).enterCleanupScope (startCall [])
      (.normal (declare ⟨[[], []], 0, false⟩ "s" true (startCall [])) ()) := by
    refine Or.inl ⟨_, (), Or.inl ⟨_, _, rfl, ?_⟩, Or.inl ⟨_, (), ⟨nofun, rfl⟩, rfl⟩⟩
    exact Or.inl ⟨_, (), ⟨nofun, rfl⟩, rfl⟩
  have hbreak : run false .breakStatement (some 0) ⟨[[⟨"s", 0⟩], []], 1, false⟩
      (declare ⟨[[], []], 0, false⟩ "s" true (startCall [])) .fault := by
    refine Or.inr ⟨.fault, Or.inl ⟨_, (), ⟨nofun, rfl⟩, ?_⟩, rfl⟩
    rfl
  have hbody : runList false (.cons (.letDecl "s" false true .opaqueValue) (.cons .breakStatement .nil))
      (some 0) (leaveControlFlow startFunction).enterCleanupScope (startCall []) .fault :=
    Or.inl ⟨_, (), hlet, Or.inr ⟨.fault, hbreak, rfl⟩⟩
  have hloop : run false (.whileStatement .opaqueValue
      (.cons (.letDecl "s" false true .opaqueValue) (.cons .breakStatement .nil))) none startFunction
      (startCall []) .fault := by
    refine Or.inl ⟨_, _, rfl, ?_⟩
    refine @Paths.Loop.faults _ _ _ _ _ (startCall []) ?_ ?_
    · exact Or.inl ⟨_, (), Or.inl ⟨_, _, rfl, rfl⟩, Or.inl rfl⟩
    · exact Or.inl ⟨_, _, rfl, Or.inr ⟨.fault, hbody, rfl⟩⟩
  exact Or.inl ⟨_, _, rfl, Or.inr ⟨.fault, Or.inr ⟨.fault, hloop, rfl⟩, rfl⟩⟩

end Mlang.CleanupSoundness
