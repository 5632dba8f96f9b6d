import Mlang.MoveLoops

namespace Mlang.MoveSoundness

open StructuredPaths ScopeStack Statements MoveChecker MovePaths MoveTracking MoveExpressions MoveScopes MovePoints MoveLoops
open Option List

variable {constantValue : ExpressionNode → Option Int}

theorem varDecl_sound {base : List (List VariableScopeDepthEntry)} {σ : List (Name × Bool)}
    {name : Name} {e : ExpressionNode} {g g₁ : CodeGenerator} {m : MovedVariables}
    (hc : g.evaluate (fun _ => consumeMoveFromExpression) e = some g₁)
    (he : generateExpression g₁.isVariableCurrentlyVisible e
      ((g₁.clearMovedVariable name).recordVariableScopeDepth name).movedVariables = some m) :
    Meets (At base σ g)
      (do Paths.provided true (fun s => ¬ IsMoved s name)
          let names ← evaluate true e
          Paths.provided true (fun s => ¬ IsMoved s name ∧ name ∉ names)
          consume names
          Paths.modify (declare name))
      (reaching base σ { ((g₁.clearMovedVariable name).recordVariableScopeDepth name).setMoved m with
        terminated := false }) := by
  obtain ⟨m₁, hm₁, rfl⟩ := evaluate_eq hc
  have hcleared : (((g.setMoved m₁).clearMovedVariable name).recordVariableScopeDepth
      name).movedVariables = Function.update m₁ name false := by
    unfold CodeGenerator.recordVariableScopeDepth
    split <;> rfl
  rw [hcleared] at he
  apply Meets.seq Meets.provided
  rintro _ s ⟨hs, hnot⟩
  have hstart : Tracks g.variableScopeDepthScopes.flatten (shape s) (Function.update m₁ name false) s := by
    refine ⟨fun y hy => ?_, hs.saved, rfl⟩
    have hne : y ≠ name := by
      rintro rfl
      exact hnot hy
    rw [Function.update_of_ne hne]
    exact consumeMoveFromExpression_mono hm₁ y (hs.covers y hy)
  refine Meets.seq (evaluate_sound he) ?_ s hstart
  intro names
  apply Meets.seq Meets.provided
  rintro _ t ⟨⟨ht, hcarries⟩, hnot', hname⟩
  -- A local the initializer is made of was moved by the consumption, and then read.
  obtain rfl : names = [] := by
    refine eq_nil_iff_forall_not_mem.2 fun y hy => ?_
    have hfree := not_moved_of_carries hcarries he y hy
    have hne : y ≠ name := fun e => hname (e ▸ hy)
    rw [Function.update_of_ne hne, moved_of_carries hcarries hm₁ y hy] at hfree
    cases hfree
  have hnothing : Meets (fun t' => t' = t) (consume []) (Post.only fun t' _ => t' = t) :=
    Meets.pure fun _ => id
  refine Meets.seq hnothing ?_ t rfl
  intro _
  apply Meets.modify
  rintro t rfl
  have hat : At base σ (g.setMoved m) t := hs.of_tracks ht rfl hs.depth hs.live
  exact hat.declare name ((g.setMoved m₁).clearMovedVariable name)
    (fun hmoved => absurd hmoved hnot') rfl rfl rfl rfl (fun _ _ => rfl) rfl

mutual

theorem statement_sound : ∀ {statement : StatementNode} {g g' : CodeGenerator} (base σ),
    generateStatement constantValue statement g = some g' →
      Meets (At base σ g) (run true constantValue statement) (reaching base σ g')
  | .letDecl name isTyped _ e, g, g', base, σ, h => by
    simp only [generateStatement, bind_eq_bind, bind_eq_some_iff, Option.pure_def, Option.some.injEq] at h
    obtain ⟨g₁, he, declared, htype, rfl⟩ := h
    obtain rfl := inferType_eq htype
    apply Meets.seq (value_sound he)
    intro _
    apply Meets.modify
    intro s hs
    refine hs.declare name g₁ (hs.covers name) rfl rfl rfl rfl ?_ rfl
    intro y hy
    refine (Function.update_of_ne hy ..).trans ?_
    unfold CodeGenerator.recordVariableScopeDepth
    split <;> rfl
  | .varDecl name _ e, g, g', base, σ, h => by
    simp only [generateStatement, bind_eq_bind, bind_eq_some_iff, Option.pure_def, Option.some.injEq] at h
    obtain ⟨g₁, hc, m, he, rfl⟩ := h
    exact varDecl_sound hc he
  | .assignment name e, g, g', base, σ, h => by
    simp only [generateStatement, bind_eq_bind, bind_eq_some_iff, Option.pure_def, Option.some.injEq] at h
    obtain ⟨g₁, he, rfl⟩ := h
    apply Meets.seq (value_sound he)
    intro _
    apply Meets.modify
    intro s hs
    exact hs.of_tracks (hs.tracks.assign name) rfl hs.depth rfl
  | .expressionStatement e, g, g', base, σ, h => by
    simp only [generateStatement, bind_eq_bind, bind_eq_some_iff, Option.pure_def, Option.some.injEq] at h
    obtain ⟨g₁, he, rfl⟩ := h
    apply Meets.seq (expression_sound he)
    intro _
    apply Meets.pure
    intro s hs
    refine hs.mono rfl hs.depth ?_ fun _ => id
    simp only [hs.live, Bool.false_and]
  | .returnStatement e, g, g', base, σ, h => by
    simp only [generateStatement, bind_eq_bind, bind_eq_some_iff, Option.pure_def, Option.some.injEq] at h
    obtain ⟨g₁, he, rfl⟩ := h
    apply Meets.seq (value_sound he)
    intro _
    exact Meets.exitBy fun s hs => trivial
  | .breakStatement, g, g', base, σ, h => by
    simp only [generateStatement, CodeGenerator.generateBreakStatement] at h
    split at h
    · cases h
    · cases h
      apply Meets.exitBy
      intro s hs
      exact hs.recorded (mem_append_right _ (mem_singleton.2 rfl))
  | .continueStatement, g, g', base, σ, h => by
    simp only [generateStatement, CodeGenerator.generateContinueStatement] at h
    split at h
    · cases h
    · cases h
      apply Meets.exitBy
      intro s hs
      exact hs.recorded (mem_append_right _ (mem_singleton.2 rfl))
  | .block statements, g, g', base, σ, h => by
    simp only [generateStatement, bind_eq_bind, bind_eq_some_iff, Option.pure_def, Option.some.injEq] at h
    obtain ⟨g₁, hs, rfl⟩ := h
    obtain ⟨new, hnew⟩ := extends_generateStatements
      (by simp [CodeGenerator.enterCleanupScope]) hs
    intro s hat
    refine scope_sound ?_ ?_ ?_ ?_ hnew (fun τ => statements_sound base τ hs) s hat
    · rfl
    · exact id
    · rfl
    · exact hat.live
  | .ifStatement node, g, g', base, σ, h => by
    intro s hs
    exact if_sound base σ Option.Rel.none hs.ne_nil h s hs
  | .whileStatement condition body, g, g', base, σ, h => by
    simp only [generateStatement, bind_eq_bind, bind_eq_some_iff, Option.pure_def, Option.some.injEq] at h
    obtain ⟨g₁, he, bodyEnd, hbody, rfl⟩ := h
    obtain ⟨m, hm, rfl⟩ := evaluate_eq he
    obtain ⟨new, hnew⟩ := extends_generateLoopBody
      (by simp [CodeGenerator.enterCleanupScope]) hbody
    exact while_sound hm hnew fun base τ => loopBody_sound base τ hbody
  | .forStatement x start stop inclusive body, g, g', base, σ, h => by
    simp only [generateStatement, bind_eq_bind, bind_eq_some_iff, Option.pure_def, Option.some.injEq] at h
    obtain ⟨g₁, hstart, beforeLoop, hstop, bodyEnd, hbody, rfl⟩ := h
    obtain ⟨new, hnew⟩ := extends_generateLoopBody
      (by simp [CodeGenerator.enterCleanupScope]) hbody
    apply Meets.seq (expression_sound hstart)
    intro _
    apply Meets.seq (expression_sound hstop)
    intro _
    exact for_sound hnew fun base τ => loopBody_sound base τ hbody

theorem statements_sound : ∀ {l : StatementListNode} {g g' : CodeGenerator} (base σ),
    generateStatements constantValue l g = some g' →
      Meets (At base σ g) (runList true constantValue l) (reaching base σ g')
  | .nil, g, g', base, σ, h => by
    cases h
    exact Meets.pure fun s hs => hs
  | .cons statement l, g, g', base, σ, h => by
    simp only [generateStatements, bind_eq_bind, bind_eq_some_iff] at h
    obtain ⟨g₁, hs, hl⟩ := h
    intro s hat
    obtain ⟨new, hext⟩ := extends_generateStatement hat.ne_nil hs
    obtain ⟨new', hext'⟩ := extends_generateStatements (hext.ne_nil hat.ne_nil) hl
    refine Meets.bind ?_ (fun _ => statements_sound base σ hl) s hat
    refine (statement_sound base σ hs).weaken (fun _ => id) (fun _ _ => id) ?_ ?_ fun _ => id
    · exact fun t ht => Recorded.mono ht hext'.breaks
    · exact fun t ht => Recorded.mono ht hext'.continues

theorem loopBody_sound : ∀ {l : StatementListNode} {g g' : CodeGenerator} (base σ),
    generateLoopBody constantValue l g = some g' →
      Meets (At base σ g) (runList true constantValue l) (reaching base σ g')
  | .nil, g, g', base, σ, h => by
    cases h
    exact Meets.pure fun s hs => hs
  | .cons statement l, g, g', base, σ, h => by
    simp only [generateLoopBody, bind_eq_bind, bind_eq_some_iff] at h
    obtain ⟨g₁, hs, hl⟩ := h
    intro s hat
    split at hl
    · next hdead =>
      -- No path reaches the statements the analysis leaves out.
      cases hl
      refine Meets.bind (statement_sound base σ hs) ?_ s hat
      intro _ t ht
      have hlive := ht.live
      rw [hdead] at hlive
      cases hlive
    · obtain ⟨new, hext⟩ := extends_generateStatement hat.ne_nil hs
      obtain ⟨new', hext'⟩ := extends_generateLoopBody (hext.ne_nil hat.ne_nil) hl
      refine Meets.bind ?_ (fun _ => loopBody_sound base σ hl) s hat
      refine (statement_sound base σ hs).weaken (fun _ => id) (fun _ _ => id) ?_ ?_ fun _ => id
      · exact fun t ht => Recorded.mono ht hext'.breaks
      · exact fun t ht => Recorded.mono ht hext'.continues

theorem if_sound : ∀ {node : IfNode} {inheritedElse : Option (CodeGenerator → Option CodeGenerator)}
    {inheritedPaths : Option (Paths Store Unit)} {g g' : CodeGenerator} (base σ),
    Option.Rel Sound inheritedElse inheritedPaths → g.variableScopeDepthScopes ≠ [] →
      generateIfStatement constantValue node inheritedElse g = some g' →
        Meets (At base σ g) (runIf true constantValue node inheritedPaths) (reaching base σ g')
  | .plain condition thenBranch elseBranch, inheritedElse, inheritedPaths, g, g', base, σ,
      hinherited, hg, h => by
      simp only [generateIfStatement, bind_eq_bind, bind_eq_some_iff, Option.pure_def, Option.some.injEq] at h
      obtain ⟨g₁, he, thenEnd, hthen, elseEnd, helse, rfl⟩ := h
      apply Meets.seq (undisturbed_sound (expression_sound he))
      intro _
      obtain ⟨m, -, rfl⟩ := evaluate_eq he
      have hext : Extends (fun y => listAssigns y thenBranch) [] g thenEnd :=
        extends_generateBranch (fun _ _ => extends_generateStatements) hthen
      have hbranch : Sound (generateStatements constantValue thenBranch)
          (runList true constantValue thenBranch) :=
        ⟨⟨_, fun _ _ => extends_generateStatements⟩, fun base τ _ _ _ => statements_sound base τ⟩
      have hsound := rel_or (else_sound (e := elseBranch)) hinherited
      obtain ⟨_, hext'⟩ := extends_elseBranch hsound helse
      refine leaveIf_sound ?_ (elseBranch_sound hsound hext helse) hext hext'
      exact branch_sound hbranch (extends_setMoved g m) hthen
  | .chain condition thenBranch elseIfBranch elseBranch, inheritedElse, inheritedPaths, g, g',
      base, σ, hinherited, hg, h => by
      simp only [generateIfStatement, bind_eq_bind, bind_eq_some_iff, Option.pure_def, Option.some.injEq] at h
      obtain ⟨g₁, he, thenEnd, hthen, elseEnd, helse, rfl⟩ := h
      apply Meets.seq (undisturbed_sound (expression_sound he))
      intro _
      obtain ⟨m, -, rfl⟩ := evaluate_eq he
      have hext : Extends (fun y => listAssigns y thenBranch) [] g thenEnd :=
        extends_generateBranch (fun _ _ => extends_generateStatements) hthen
      have hbranch : Sound (generateStatements constantValue thenBranch)
          (runList true constantValue thenBranch) :=
        ⟨⟨_, fun _ _ => extends_generateStatements⟩, fun base τ _ _ _ => statements_sound base τ⟩
      have hscopes : thenEnd.variableScopeDepthScopes = g.variableScopeDepthScopes := by
        rw [hext.scopes, grow_nil]
      have hne : thenEnd.variableScopeDepthScopes ≠ [] := hext.ne_nil hg
      have hsound := rel_or hinherited (else_sound (e := elseBranch))
      obtain ⟨inherited, hfinal⟩ := extends_finalElse hsound
      have hif := if_sound base σ hsound (by exact hne) helse
      have hext' := extends_generateIfStatement inherited (by exact hne) hfinal helse
      refine leaveIf_sound (branch_sound hbranch (extends_setMoved g m) hthen) ?_ hext
        ⟨hext'.scopes, hext'.keeps, hext'.depth, hext'.loops, hext'.breaks, hext'.continues⟩
      refine hif.weaken ?_ (fun _ _ => id) (fun _ => id) (fun _ => id) fun _ => id
      exact fun t ht => ht.mono hscopes (hscopes ▸ hext.depth ht.depth) rfl fun _ => id

theorem else_sound : ∀ {e : ElseNode},
    Option.Rel Sound (generateElse constantValue e) (runElse true constantValue e)
  | .none => Option.Rel.none
  | .some _ => Option.Rel.some
      ⟨⟨_, fun _ _ => extends_generateStatements⟩, fun base τ _ _ _ => statements_sound base τ⟩

end

variable (constantValue : ExpressionNode → Option Int)

theorem startFunction_at (parameters : List Name) :
    At [] [] (startFunction parameters) (startCall parameters) := by
  have hfold : ∀ {g : CodeGenerator} {s : Store}, At [] [] g s →
      At [] [] (parameters.foldl CodeGenerator.recordVariableScopeDepth g)
        (parameters.foldl (fun s name => declare name s) s) := by
    induction parameters with
    | nil => exact id
    | cons x parameters ih =>
      intro g s hs
      apply ih
      have hlive : (g.recordVariableScopeDepth x).terminated = false := by
        unfold CodeGenerator.recordVariableScopeDepth
        split <;> exact hs.live
      refine hs.declare x g (hs.covers x) rfl rfl rfl rfl ?_ hlive
      intro y hy
      unfold CodeGenerator.recordVariableScopeDepth
      split <;> rfl
  refine hfold ⟨?_, trivial, ⟨?_, ?_⟩, rfl, ⟨[], [], rfl⟩, suffix_refl _⟩
  · intro y hy
    cases hy
  · exact nofun
  · exact nofun

/-- An accepted body uses no moved local on any path that remembers its moves. -/
theorem accepted_usesNoMovedLocal {parameters : List Name} {body : StatementListNode}
    (h : accepts constantValue parameters body = true) :
    ¬ runList true constantValue body (startCall parameters) .fault := by
  intro he
  obtain ⟨g', hg'⟩ := Option.isSome_iff_exists.1 h
  exact statements_sound [] [] hg' _ (startFunction_at parameters) _ he

def movesAndReads : StatementListNode :=
  .cons (.expressionStatement (.functionCall (.cons true (.identifier "x" true) .nil)))
    (.cons (.assignment "x" .opaqueValue) (.cons (.expressionStatement (.addressOf "x")) .nil))

theorem movesAndReads_usesNoMovedLocal :
    ¬ runList true (fun _ => none) movesAndReads (startCall ["x"]) .fault :=
  accepted_usesNoMovedLocal (fun _ => none) (by decide)

def movesInCondition : StatementListNode :=
  .cons (.ifStatement (.plain (.functionCall (.cons true (.identifier "x" true) .nil)) .nil .none))
    (.cons (.expressionStatement (.addressOf "x")) .nil)

theorem movesInCondition_accepted_usesMovedLocal :
    ¬ ∀ (constantValue : ExpressionNode → Option Int) (parameters : List Name)
      (body : StatementListNode), accepts constantValue parameters body = true →
        ¬ runList false constantValue body (startCall parameters) .fault := by
  intro hclaim
  refine hclaim (fun _ => none) ["x"] movesInCondition (by decide) ?_
  have hcall : evaluate false (.functionCall (.cons true (.identifier "x" true) .nil)) [⟨"x", .live⟩]
      (.normal [⟨"x", .moved⟩] []) := by
    refine Or.inl ⟨[⟨"x", .live⟩], [["x"]], ?_, Or.inl ⟨_, (), ?_, rfl⟩⟩
    · exact Or.inl ⟨_, ["x"], Or.inl ⟨_, (), rfl, rfl⟩, Or.inl ⟨_, [], rfl, rfl⟩⟩
    · exact Or.inl ⟨_, (), Or.inl ⟨_, (), rfl, rfl⟩, rfl⟩
  have hif : run false (fun _ => none)
      (.ifStatement (.plain (.functionCall (.cons true (.identifier "x" true) .nil)) .nil .none))
      [⟨"x", .live⟩] (.normal [⟨"x", .moved⟩] ()) := by
    refine Or.inl ⟨_, (), ?_, Or.inr rfl⟩
    refine Or.inl ⟨_, _, rfl, Or.inl ⟨_, _, hcall, ?_⟩⟩
    exact ⟨nofun, rfl⟩
  refine Or.inl ⟨_, (), hif, Or.inr ⟨.fault, ?_, rfl⟩⟩
  exact Or.inr ⟨.fault, Or.inr ⟨.fault, rfl, rfl⟩, rfl⟩

end Mlang.MoveSoundness
