import Mlang.MoveTracking
import Mlang.ScopeStack

namespace Mlang.MoveScopes

open ScopeStack Statements MoveChecker MovePaths MoveTracking List Option Bool
open MoveChecker.CodeGenerator (restoreMoved restoreDepths mergeExitStates)
open Function (update_of_ne update_self)

variable {state : LoopExitState} {m : MovedVariables} {x : Name}

theorem restoreMoved_append (es es' : List VariableScopeDepthEntry) (m : MovedVariables) :
    restoreMoved (es ++ es') m = restoreMoved es' (restoreMoved es m) := by
  induction es generalizing m with
  | nil => rfl
  | cons e es ih => exact ih _

variable {es : List VariableScopeDepthEntry}

theorem restoreMoved_congr (es : List VariableScopeDepthEntry) {m' : MovedVariables} (h : m x = m' x) :
    restoreMoved es m x = restoreMoved es m' x := by
  induction es generalizing m m' with
  | nil => exact h
  | cons e es ih =>
    apply ih
    by_cases hx : x = e.varName
    · rw [hx, update_self, update_self]
    · rw [update_of_ne hx, update_of_ne hx, h]

theorem restoreMoved_of_mem (h : ∃ e ∈ es, e.varName = x) (m m' : MovedVariables) :
    restoreMoved es m x = restoreMoved es m' x := by
  induction es generalizing m m' with
  | nil =>
    obtain ⟨e, he, -⟩ := h
    cases he
  | cons e es ih =>
    by_cases hx : x = e.varName
    · rw [restoreMoved, restoreMoved]
      apply restoreMoved_congr es
      rw [hx, update_self, update_self]
    · obtain ⟨e', he', hname⟩ := h
      rcases List.mem_cons.1 he' with rfl | he'
      · exact absurd hname.symm hx
      · exact ih ⟨e', he', hname⟩ _ _

theorem restoreMoved_of_not_mem (h : ∀ e ∈ es, e.varName ≠ x) (m : MovedVariables) :
    restoreMoved es m x = m x := by
  induction es generalizing m with
  | nil => rfl
  | cons e es ih =>
    rw [restoreMoved, ih (fun e' he' => h e' (mem_cons_of_mem _ he')),
      update_of_ne (h e mem_cons_self).symm]

theorem mergeExitStates_mono (survives : LoopExitState → Name → Bool) (states : List LoopExitState)
    (h : m x = true) : mergeExitStates survives states m x = true := by
  induction states generalizing m with
  | nil => exact h
  | cons state states ih =>
    have hm : (m x || (state.movedVariables x && survives state x)) = true := by
      rw [h, Bool.true_or]
    exact ih hm

theorem mergeExitStates_of_mem {survives : LoopExitState → Name → Bool} {states : List LoopExitState}
    (hmem : state ∈ states) (hmoved : state.movedVariables x = true) (hsurvives : survives state x = true)
    (m : MovedVariables) : mergeExitStates survives states m x = true := by
  induction states generalizing m with
  | nil => cases hmem
  | cons s states ih =>
    rcases List.mem_cons.1 hmem with rfl | hmem
    · have hm : (m x || (state.movedVariables x && survives state x)) = true := by
        rw [hmoved, hsurvives, Bool.and_self, Bool.or_true]
      exact mergeExitStates_mono survives states hm
    · exact ih hmem _

variable {g' g₁ : CodeGenerator} {new : List VariableScopeDepthEntry} {assigned assigned' : Name → Bool}

def breakStates (g : CodeGenerator) : List LoopExitState :=
  match g.loops with
  | [] => []
  | l :: _ => l.breakStates

def continueStates (g : CodeGenerator) : List LoopExitState :=
  match g.loops with
  | [] => []
  | l :: _ => l.continueStates

theorem mem_exitStates {g : CodeGenerator} :
    state ∈ g.exitStates ↔ state ∈ breakStates g ∨ state ∈ continueStates g := by
  unfold CodeGenerator.exitStates breakStates continueStates
  cases g.loops with
  | nil => simp
  | cons l ls => exact mem_append

theorem exitStates_exitCleanupScope (g : CodeGenerator) :
    g.exitCleanupScope.exitStates = g.exitStates := by
  unfold CodeGenerator.exitCleanupScope
  split <;> rfl

/-- What analysing a statement does to the scopes and the loops around it. -/
structure Extends (assigned : Name → Bool) (new : List VariableScopeDepthEntry)
    (g g' : CodeGenerator) : Prop where
  scopes : g'.variableScopeDepthScopes = grow new g.variableScopeDepthScopes
  keeps : ∀ y, assigned y = false → g.movedVariables y = true →
    restoreMoved new g'.movedVariables y = true
  depth : DepthOk g.variableScopeDepthScopes g.variableScopeDepth →
    DepthOk g'.variableScopeDepthScopes g'.variableScopeDepth
  loops : g'.loops.tail = g.loops.tail
  breaks : ∀ state ∈ breakStates g, state ∈ breakStates g'
  continues : ∀ state ∈ continueStates g, state ∈ continueStates g'

theorem Extends.of_same {g : CodeGenerator}
    (hscopes : g'.variableScopeDepthScopes = g.variableScopeDepthScopes)
    (hdepth : g'.variableScopeDepth = g.variableScopeDepth) (hloops : g'.loops = g.loops)
    (hmoved : ∀ y, assigned y = false → g.movedVariables y = true → g'.movedVariables y = true) :
    Extends assigned [] g g' where
  scopes := by rw [grow_nil, hscopes]
  keeps := hmoved
  depth := by rw [hscopes, hdepth]; exact id
  loops := by rw [hloops]
  breaks := by rw [breakStates, breakStates, hloops]; exact fun _ => id
  continues := by rw [continueStates, continueStates, hloops]; exact fun _ => id

theorem Extends.trans {new' : List VariableScopeDepthEntry} {g : CodeGenerator}
    (h : Extends assigned new g g₁) (h' : Extends assigned' new' g₁ g') :
    Extends (fun y => assigned y || assigned' y) (new' ++ new) g g' where
  scopes := by rw [h'.scopes, h.scopes, grow_grow]
  keeps := by
    intro y hy hmoved
    rw [or_eq_false_iff] at hy
    have h₁ := h.keeps y hy.1 hmoved
    rw [restoreMoved_append]
    by_cases hmem : ∃ e ∈ new, e.varName = y
    · rwa [restoreMoved_of_mem hmem _ g₁.movedVariables]
    · have hnot : ∀ e ∈ new, e.varName ≠ y := fun e he hname => hmem ⟨e, he, hname⟩
      rw [restoreMoved_of_not_mem hnot] at h₁ ⊢
      exact h'.keeps y hy.2 h₁
  depth hd := h'.depth (h.depth hd)
  loops := h'.loops.trans h.loops
  breaks state hstate := h'.breaks state (h.breaks state hstate)
  continues state hstate := h'.continues state (h.continues state hstate)

theorem Extends.weaken {g : CodeGenerator} (h : Extends assigned new g g')
    (hsub : ∀ y, assigned' y = false → assigned y = false) : Extends assigned' new g g' :=
  { h with keeps := fun y hy => h.keeps y (hsub y hy) }

theorem exitCleanupScope_of_scopes {g : CodeGenerator} {es : List VariableScopeDepthEntry}
    {scopes : List (List VariableScopeDepthEntry)}
    (h : g.variableScopeDepthScopes = es :: scopes) :
    g.exitCleanupScope = { g with
      movedVariables := restoreMoved es g.movedVariables
      variableScopeDepth := restoreDepths es g.variableScopeDepth
      variableScopeDepthScopes := scopes } := by
  unfold CodeGenerator.exitCleanupScope
  rw [h]

theorem Extends.exit {g : CodeGenerator} {scopes : List (List VariableScopeDepthEntry)}
    (h : Extends assigned new g g') (hg : g.variableScopeDepthScopes = [] :: scopes) :
    g'.variableScopeDepthScopes = new :: scopes ∧ g'.exitCleanupScope.variableScopeDepthScopes = scopes ∧
    g'.exitCleanupScope.loops = g'.loops ∧ g'.exitCleanupScope.terminated = g'.terminated ∧
    g'.exitCleanupScope.movedVariables = restoreMoved new g'.movedVariables ∧
    (DepthOk scopes g.variableScopeDepth → DepthOk scopes g'.exitCleanupScope.variableScopeDepth) := by
  have hscopes : g'.variableScopeDepthScopes = new :: scopes := by
    rw [h.scopes, hg, grow, append_nil]
  have hdepth := h.depth
  rw [hg, hscopes] at hdepth
  rw [exitCleanupScope_of_scopes hscopes]
  exact ⟨hscopes, rfl, rfl, rfl, rfl, fun hd => (hdepth hd.enter).2⟩

theorem Extends.scope {g gᵢ : CodeGenerator} (h : Extends assigned new gᵢ g')
    (hscopes : gᵢ.variableScopeDepthScopes = [] :: g.variableScopeDepthScopes)
    (hdepth : gᵢ.variableScopeDepth = g.variableScopeDepth) (hloops : gᵢ.loops = g.loops)
    (hmoved : gᵢ.movedVariables = g.movedVariables) : Extends assigned [] g g'.exitCleanupScope := by
  obtain ⟨-, hscopes', hloops', -, hmoved', hdepth'⟩ := h.exit hscopes
  have hbreaks := h.breaks
  have hcontinues := h.continues
  constructor
  · rw [hscopes', grow_nil]
  · intro y hy hm
    rw [hmoved']
    exact h.keeps y hy (hmoved ▸ hm)
  · intro hd
    rw [hscopes']
    exact hdepth' (hdepth ▸ hd)
  · rw [hloops', h.loops, hloops]
  · simp only [breakStates, hloops, hloops'] at hbreaks ⊢
    exact hbreaks
  · simp only [continueStates, hloops, hloops'] at hcontinues ⊢
    exact hcontinues

theorem record_scopes {g : CodeGenerator} {es : List VariableScopeDepthEntry}
    {scopes : List (List VariableScopeDepthEntry)}
    (h : g.variableScopeDepthScopes = es :: scopes) (x : Name) :
    g.recordVariableScopeDepth x = { g with
      variableScopeDepth := Function.update g.variableScopeDepth x (some (scopes.length + 1))
      variableScopeDepthScopes :=
        (⟨x, g.variableScopeDepth x, g.movedVariables x⟩ :: es) :: scopes } := by
  unfold CodeGenerator.recordVariableScopeDepth CodeGenerator.currentScopeDepth
  rw [h]
  rfl

theorem extends_letDecl {g : CodeGenerator} (h : g.variableScopeDepthScopes ≠ []) (x : Name)
    (assigned : Name → Bool) :
    ∃ new, Extends assigned new g
      { (g.recordVariableScopeDepth x).clearMovedVariable x with terminated := false } := by
  obtain ⟨es, scopes, hs⟩ := exists_cons_of_ne_nil h
  rw [record_scopes hs]
  refine ⟨[⟨x, g.variableScopeDepth x, g.movedVariables x⟩], ?_, ?_, ?_, rfl, fun _ => id, fun _ => id⟩
  · rw [hs]
    rfl
  · intro y _ hy
    by_cases hx : y = x
    · subst hx
      exact (update_self ..).trans hy
    · exact ((update_of_ne hx ..).trans (update_of_ne hx ..)).trans hy
  · intro hd
    rw [hs] at hd
    exact hd.record x _

theorem extends_varDecl {g : CodeGenerator} (h : g.variableScopeDepthScopes ≠ []) (hx : assigned x = true)
    (hm : ∀ y, ((g.clearMovedVariable x).recordVariableScopeDepth x).movedVariables y = true → m y = true) :
    ∃ new, Extends assigned new g
    { ((g.clearMovedVariable x).recordVariableScopeDepth x).setMoved m with terminated := false } := by
  obtain ⟨es, scopes, hs⟩ := exists_cons_of_ne_nil h
  have hs' : (g.clearMovedVariable x).variableScopeDepthScopes = es :: scopes := hs
  rw [record_scopes hs'] at hm ⊢
  refine ⟨[⟨x, g.variableScopeDepth x, (g.clearMovedVariable x).movedVariables x⟩], ?_, ?_, ?_,
    rfl, fun _ => id, fun _ => id⟩
  · rw [hs]
    rfl
  · intro y hy hmoved
    have hne : y ≠ x := by
      rintro rfl
      rw [hx] at hy
      cases hy
    exact (update_of_ne hne ..).trans (hm y ((update_of_ne hne ..).trans hmoved))
  · intro hd
    rw [hs] at hd
    exact hd.record x _

variable {constantValue : ExpressionNode → Option Int}
variable {f : (Name → Bool) → ExpressionNode → MovedVariables → Option MovedVariables} {e : ExpressionNode}
  {g beforeLoop bodyEnd : CodeGenerator}

theorem evaluate_eq (h : g.evaluate f e = some g') :
    ∃ m, f g.isVariableCurrentlyVisible e g.movedVariables = some m ∧ g' = g.setMoved m := by
  obtain ⟨m, hm, rfl⟩ := Option.map_eq_some_iff.1 h
  exact ⟨m, hm, rfl⟩

theorem inferType_eq {isTyped : Bool} (h : g.inferType isTyped e = some g') : g' = g := by
  cases isTyped with
  | true => exact (Option.some.inj h).symm
  | false =>
    obtain ⟨m, hm, rfl⟩ := evaluate_eq h
    rw [getLValueType_eq hm]
    rfl

theorem extends_generateBranch {statements : CodeGenerator → Option CodeGenerator}
    {incomingMoved : MovedVariables}
    (hstatements : ∀ g g', g.variableScopeDepthScopes ≠ [] → statements g = some g' → ∃ new, Extends assigned
      new g g') (h : generateBranch incomingMoved statements g = some g') :
    Extends assigned [] (g.setMoved incomingMoved) g' := by
  simp only [generateBranch, bind_eq_bind, bind_eq_some_iff, Option.pure_def, Option.some.injEq] at h
  obtain ⟨g₁, hs, rfl⟩ := h
  obtain ⟨new, hnew⟩ := hstatements _ _ (by simp [CodeGenerator.enterCleanupScope]) hs
  exact hnew.scope rfl rfl rfl rfl

theorem extends_leaveIf {b thenEnd elseEnd : CodeGenerator} (hthen : Extends assigned [] b thenEnd)
    (helse : Extends assigned' [] (thenEnd.setMoved b.movedVariables) elseEnd) :
    Extends (fun y => assigned y || assigned' y) [] b (leaveIf b.movedVariables thenEnd elseEnd) where
  scopes := by
    have h₁ := hthen.scopes
    have h₂ := helse.scopes
    rw [grow_nil] at h₁ h₂ ⊢
    exact h₂.trans h₁
  keeps := by
    intro y hy hm
    rw [or_eq_false_iff] at hy
    have h₁ : thenEnd.movedVariables y = true := hthen.keeps y hy.1 hm
    have h₂ : elseEnd.movedVariables y = true := helse.keeps y hy.2 hm
    have hmerge : mergeBranches b.movedVariables thenEnd elseEnd y = true := by
      unfold mergeBranches
      split
      · simp only [MovedVariables.union, h₁, Bool.true_or]
      · split
        · exact h₁
        · split
          · exact h₂
          · exact hm
    exact hmerge
  depth hd := helse.depth (hthen.depth hd)
  loops := helse.loops.trans hthen.loops
  breaks state hstate := helse.breaks state (hthen.breaks state hstate)
  continues state hstate := helse.continues state (hthen.continues state hstate)

theorem scopes_enterLoop (g : CodeGenerator) :
    g.enterLoop.enterCleanupScope.variableScopeDepthScopes = [] :: g.variableScopeDepthScopes :=
  rfl

theorem extends_leaveWhile (hscopes : g.variableScopeDepthScopes = beforeLoop.variableScopeDepthScopes)
    (hdepth : g.variableScopeDepth = beforeLoop.variableScopeDepth) (hloops : g.loops = beforeLoop.loops)
    (h : Extends assigned new g.enterLoop.enterCleanupScope bodyEnd) :
    Extends assigned [] beforeLoop (leaveWhile beforeLoop.movedVariables bodyEnd.exitCleanupScope) := by
  obtain ⟨-, hscopes', hloops', -, -, hdepth'⟩ :=
    h.exit (scopes_enterLoop g)
  have hout : (leaveWhile beforeLoop.movedVariables bodyEnd.exitCleanupScope).loops =
      beforeLoop.loops := by
    have htail : bodyEnd.exitCleanupScope.loops.tail = g.loops := by
      rw [hloops', h.loops]
      rfl
    exact htail.trans hloops
  constructor
  · rw [grow_nil, ← hscopes]
    exact hscopes'
  · intro y _ hy
    apply mergeExitStates_mono
    split
    · simp only [MovedVariables.union, hy, Bool.true_or]
    · exact hy
  · intro hd
    have hd' := hdepth' (show DepthOk g.variableScopeDepthScopes g.variableScopeDepth by
      rw [hscopes, hdepth]; exact hd)
    rw [← hscopes'] at hd'
    exact hd'
  · rw [hout]
  · rw [breakStates, breakStates, hout]
    exact fun _ => id
  · rw [continueStates, continueStates, hout]
    exact fun _ => id

theorem extends_leaveFor (hne : beforeLoop.variableScopeDepthScopes ≠ [])
    (h : Extends assigned new (enterFor x beforeLoop).enterLoop.enterCleanupScope bodyEnd)
    (neverExecutes : Bool) : ∃ new, Extends (fun y => decide (x = y) || assigned y) new beforeLoop
    (leaveFor x neverExecutes beforeLoop bodyEnd.exitCleanupScope) := by
  obtain ⟨es, scopes, hs⟩ := exists_cons_of_ne_nil hne
  have hs' : (beforeLoop.clearMovedVariable x).variableScopeDepthScopes = es :: scopes := hs
  have henter := record_scopes hs' x
  obtain ⟨-, hscopes', hloops', -, hmoved', hdepth'⟩ :=
    h.exit (scopes_enterLoop (enterFor x beforeLoop))
  have hfor : (enterFor x beforeLoop).variableScopeDepthScopes =
      (⟨x, beforeLoop.variableScopeDepth x, false⟩ :: es) :: scopes := by
    rw [enterFor, henter]
    simp [CodeGenerator.clearMovedVariable, CodeGenerator.setMoved]
  have hout : (leaveFor x neverExecutes beforeLoop bodyEnd.exitCleanupScope).loops =
      beforeLoop.loops := by
    have htail : bodyEnd.exitCleanupScope.loops.tail = (enterFor x beforeLoop).loops := by
      rw [hloops', h.loops]
      rfl
    rw [enterFor, henter] at htail
    exact htail
  refine ⟨[⟨x, beforeLoop.variableScopeDepth x, false⟩], ?_, ?_, ?_, ?_, ?_, ?_⟩
  · rw [hs]
    exact hscopes'.trans hfor
  · intro y hy hm
    simp only [or_eq_false_iff, decide_eq_false_iff_not] at hy
    have hyx : y ≠ x := fun e => hy.1 e.symm
    rw [restoreMoved_of_not_mem (by simpa using hy.1)]
    apply mergeExitStates_mono
    split
    · exact hm
    · rw [update_of_ne hyx, hmoved']
      apply h.keeps y hy.2
      rw [enterFor, henter]
      exact (update_of_ne hyx ..).trans hm
  · intro hd
    rw [hs] at hd
    have hin : DepthOk (enterFor x beforeLoop).variableScopeDepthScopes
        (enterFor x beforeLoop).variableScopeDepth := by
      rw [enterFor, henter]
      exact hd.record x _
    have hbody := hdepth' hin
    rw [hfor] at hbody
    have hend := hbody.restoreVariable fun n hn => hd.1 x n hn
    rw [← hfor, ← hscopes'] at hend
    exact hend
  · rw [hout]
  · rw [breakStates, breakStates, hout]
    exact fun _ => id
  · rw [continueStates, continueStates, hout]
    exact fun _ => id

theorem extends_evaluate (hf : ∀ {isVisible m m'}, f isVisible e m = some m' → ∀ x, m x = true → m' x = true)
    (h : g.evaluate f e = some g') : Extends (fun _ => false) [] g g' := by
  obtain ⟨m, hm, rfl⟩ := evaluate_eq h
  exact Extends.of_same rfl rfl rfl fun y _ => hf hm y

theorem Extends.ne_nil (h : Extends assigned new g g') (hg : g.variableScopeDepthScopes ≠ []) :
    g'.variableScopeDepthScopes ≠ [] := by
  rw [h.scopes]
  exact grow_ne_nil hg

theorem Extends.after (h : Extends (fun _ => false) [] g g₁) (h' : ∃ new, Extends assigned new g₁ g') :
    ∃ new, Extends assigned new g g' := by
  obtain ⟨new, h'⟩ := h'
  exact ⟨_, (h.trans h').weaken fun y hy => by simpa using hy⟩

mutual

theorem extends_generateStatement : ∀ {s : StatementNode} {g g' : CodeGenerator},
    g.variableScopeDepthScopes ≠ [] → generateStatement constantValue s g = some g' →
      ∃ new, Extends (fun y => assigns y s) new g g'
  | .letDecl name isTyped _ e, g, g', hg, h => by
    simp only [generateStatement, bind_eq_bind, bind_eq_some_iff, Option.pure_def, Option.some.injEq] at h
    obtain ⟨g₁, he, declared, htype, rfl⟩ := h
    obtain rfl := inferType_eq htype
    have h₁ := extends_evaluate generateValue_mono he
    exact h₁.after (extends_letDecl (h₁.ne_nil hg) name _)
  | .varDecl name _ e, g, g', hg, h => by
    simp only [generateStatement, bind_eq_bind, bind_eq_some_iff, Option.pure_def, Option.some.injEq] at h
    obtain ⟨g₁, hc, m, he, rfl⟩ := h
    have h₁ := extends_evaluate consumeMoveFromExpression_mono hc
    exact h₁.after (extends_varDecl (h₁.ne_nil hg) (by simp [assigns]) (generateExpression_mono he))
  | .assignment name e, g, g', hg, h => by
    simp only [generateStatement, bind_eq_bind, bind_eq_some_iff, Option.pure_def, Option.some.injEq] at h
    obtain ⟨g₁, he, rfl⟩ := h
    refine (extends_evaluate generateValue_mono he).after ⟨[], Extends.of_same rfl rfl rfl ?_⟩
    intro y hy hm
    have hne : y ≠ name := by
      rintro rfl
      simp [assigns] at hy
    exact (update_of_ne hne ..).trans hm
  | .expressionStatement e, g, g', hg, h => by
    simp only [generateStatement, bind_eq_bind, bind_eq_some_iff, Option.pure_def, Option.some.injEq] at h
    obtain ⟨g₁, he, rfl⟩ := h
    exact (extends_evaluate generateExpression_mono he).after
      ⟨[], Extends.of_same rfl rfl rfl fun _ _ => id⟩
  | .returnStatement e, g, g', hg, h => by
    simp only [generateStatement, bind_eq_bind, bind_eq_some_iff, Option.pure_def, Option.some.injEq] at h
    obtain ⟨g₁, he, rfl⟩ := h
    exact (extends_evaluate generateValue_mono he).after
      ⟨[], Extends.of_same rfl rfl rfl fun _ _ => id⟩
  | .breakStatement, g, g', hg, h => by
    simp only [generateStatement, CodeGenerator.generateBreakStatement] at h
    split at h
    · cases h
    · next l ls hloops =>
      cases h
      refine ⟨[], (grow_nil _).symm, fun _ _ => id, id, ?_, ?_, ?_⟩
      · simp only [hloops, tail_cons]
      · simp only [breakStates, hloops]
        exact fun state hstate => mem_append_left _ hstate
      · simp only [continueStates, hloops]
        exact fun _ => id
  | .continueStatement, g, g', hg, h => by
    simp only [generateStatement, CodeGenerator.generateContinueStatement] at h
    split at h
    · cases h
    · next l ls hloops =>
      cases h
      refine ⟨[], (grow_nil _).symm, fun _ _ => id, id, ?_, ?_, ?_⟩
      · simp only [hloops, tail_cons]
      · simp only [breakStates, hloops]
        exact fun _ => id
      · simp only [continueStates, hloops]
        exact fun state hstate => mem_append_left _ hstate
  | .block statements, g, g', hg, h => by
    simp only [generateStatement, bind_eq_bind, bind_eq_some_iff, Option.pure_def, Option.some.injEq] at h
    obtain ⟨g₁, hs, rfl⟩ := h
    obtain ⟨new, hnew⟩ := extends_generateStatements
      (by simp [CodeGenerator.enterCleanupScope]) hs
    exact ⟨[], hnew.scope rfl rfl rfl rfl⟩
  | .ifStatement node, g, g', hg, h =>
    ⟨[], (extends_generateIfStatement (fun _ => false) hg (fun _ hnone => by cases hnone) h).weaken
      fun y hy => or_eq_false_iff.2 ⟨hy, rfl⟩⟩
  | .whileStatement condition body, g, g', hg, h => by
    simp only [generateStatement, bind_eq_bind, bind_eq_some_iff, Option.pure_def, Option.some.injEq] at h
    obtain ⟨g₁, he, g₂, hbody, rfl⟩ := h
    obtain ⟨m, -, rfl⟩ := evaluate_eq he
    obtain ⟨new, hnew⟩ := extends_generateLoopBody
      (by simp [CodeGenerator.enterCleanupScope]) hbody
    have hwhile : Extends (fun y => listAssigns y body) [] g
        (leaveWhile g.movedVariables g₂.exitCleanupScope) :=
      extends_leaveWhile (g := g.setMoved m) rfl rfl rfl hnew
    exact ⟨[], hwhile.weaken fun y hy => hy⟩
  | .forStatement x start stop inclusive body, g, g', hg, h => by
    simp only [generateStatement, bind_eq_bind, bind_eq_some_iff, Option.pure_def, Option.some.injEq] at h
    obtain ⟨g₁, hstart, g₂, hstop, g₃, hbody, rfl⟩ := h
    have h₁ := extends_evaluate generateExpression_mono hstart
    have h₂ := extends_evaluate generateExpression_mono hstop
    obtain ⟨new, hnew⟩ := extends_generateLoopBody
      (by simp [CodeGenerator.enterCleanupScope]) hbody
    exact h₁.after (h₂.after (extends_leaveFor (h₂.ne_nil (h₁.ne_nil hg)) hnew _))

theorem extends_generateStatements : ∀ {l : StatementListNode} {g g' : CodeGenerator},
    g.variableScopeDepthScopes ≠ [] → generateStatements constantValue l g = some g' →
      ∃ new, Extends (fun y => listAssigns y l) new g g'
  | .nil, g, g', hg, h => by
    cases h
    exact ⟨[], Extends.of_same rfl rfl rfl fun _ _ => id⟩
  | .cons s l, g, g', hg, h => by
    simp only [generateStatements, bind_eq_bind, bind_eq_some_iff] at h
    obtain ⟨g₁, hs, hl⟩ := h
    obtain ⟨new, h₁⟩ := extends_generateStatement hg hs
    obtain ⟨new', h₂⟩ := extends_generateStatements (h₁.ne_nil hg) hl
    exact ⟨_, h₁.trans h₂⟩

theorem extends_generateLoopBody : ∀ {l : StatementListNode} {g g' : CodeGenerator},
    g.variableScopeDepthScopes ≠ [] → generateLoopBody constantValue l g = some g' →
      ∃ new, Extends (fun y => listAssigns y l) new g g'
  | .nil, g, g', hg, h => by
    cases h
    exact ⟨[], Extends.of_same rfl rfl rfl fun _ _ => id⟩
  | .cons s l, g, g', hg, h => by
    simp only [generateLoopBody, bind_eq_bind, bind_eq_some_iff] at h
    obtain ⟨g₁, hs, hl⟩ := h
    obtain ⟨new, h₁⟩ := extends_generateStatement hg hs
    split at hl
    · cases hl
      refine ⟨new, h₁.weaken fun y hy => ?_⟩
      simp only [listAssigns, or_eq_false_iff] at hy
      exact hy.1
    · obtain ⟨new', h₂⟩ := extends_generateLoopBody (h₁.ne_nil hg) hl
      exact ⟨_, h₁.trans h₂⟩

theorem extends_generateIfStatement : ∀ {node : IfNode}
    {inheritedElse : Option (CodeGenerator → Option CodeGenerator)} (inherited : Name → Bool)
    {g g' : CodeGenerator}, g.variableScopeDepthScopes ≠ [] →
      (∀ statements, inheritedElse = some statements → ∀ g g' : CodeGenerator,
        g.variableScopeDepthScopes ≠ [] → statements g = some g' → ∃ new, Extends inherited new g g') →
        generateIfStatement constantValue node inheritedElse g = some g' →
          Extends (fun y => ifAssigns y node || inherited y) [] g g'
  | .plain condition thenBranch elseBranch, inheritedElse, inherited, g, g', hg, hinherited, h => by
    simp only [generateIfStatement, bind_eq_bind, bind_eq_some_iff, Option.pure_def, Option.some.injEq] at h
    obtain ⟨g₁, he, thenEnd, hthen, elseEnd, helse, rfl⟩ := h
    obtain ⟨m, -, rfl⟩ := evaluate_eq he
    have h₁ := extends_generateBranch (fun _ _ => extends_generateStatements) hthen
    have hthenEnd : Extends (fun y => listAssigns y thenBranch) [] g thenEnd := h₁
    have helseEnd : Extends (fun y => elseAssigns y elseBranch || inherited y) []
        (thenEnd.setMoved g.movedVariables) elseEnd := by
      unfold generateElseBranch at helse
      split at helse
      · next statements hstatements =>
        apply extends_generateBranch _ helse
        intro g g' hg hs
        cases elseBranch with
        | none =>
          obtain ⟨new, hnew⟩ := hinherited statements hstatements g g' hg hs
          exact ⟨new, hnew.weaken fun y hy => (or_eq_false_iff.1 hy).2⟩
        | some l =>
          cases hstatements
          obtain ⟨new, hnew⟩ := extends_generateStatements hg hs
          exact ⟨new, hnew.weaken fun y hy => (or_eq_false_iff.1 hy).1⟩
      · cases helse
        exact Extends.of_same rfl rfl rfl fun _ _ => id
    exact (extends_leaveIf hthenEnd helseEnd).weaken fun y hy => by
      simpa [ifAssigns, Bool.or_assoc] using hy
  | .chain condition thenBranch elseIfBranch elseBranch, inheritedElse, inherited, g, g', hg,
      hinherited, h => by
      simp only [generateIfStatement, bind_eq_bind, bind_eq_some_iff, Option.pure_def, Option.some.injEq] at h
      obtain ⟨g₁, he, thenEnd, hthen, elseEnd, helse, rfl⟩ := h
      obtain ⟨m, -, rfl⟩ := evaluate_eq he
      have h₁ := extends_generateBranch (fun _ _ => extends_generateStatements) hthen
      have hthenEnd : Extends (fun y => listAssigns y thenBranch) [] g thenEnd := h₁
      have hne : thenEnd.variableScopeDepthScopes ≠ [] := hthenEnd.ne_nil hg
      have helseEnd : Extends
          (fun y => ifAssigns y elseIfBranch || (elseAssigns y elseBranch || inherited y)) []
          (thenEnd.setMoved g.movedVariables) elseEnd := by
        have hif := extends_generateIfStatement (fun y => elseAssigns y elseBranch || inherited y)
          (by exact hne) ?_ helse
        · exact ⟨hif.scopes, hif.keeps, hif.depth, hif.loops, hif.breaks, hif.continues⟩
        intro statements hstatements g g' hg hs
        cases inheritedElse with
        | some inheritedStatements =>
          obtain ⟨new, hnew⟩ := hinherited statements hstatements g g' hg hs
          exact ⟨new, hnew.weaken fun y hy => (or_eq_false_iff.1 hy).2⟩
        | none =>
          cases elseBranch with
          | none => cases hstatements
          | some l =>
            cases hstatements
            obtain ⟨new, hnew⟩ := extends_generateStatements hg hs
            exact ⟨new, hnew.weaken fun y hy => (or_eq_false_iff.1 hy).1⟩
      exact (extends_leaveIf hthenEnd helseEnd).weaken fun y hy => by
        simpa [ifAssigns, Bool.or_assoc] using hy

end

end Mlang.MoveScopes
