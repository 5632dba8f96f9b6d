import Mlang.MovePoints

namespace Mlang.MoveLoops

open StructuredPaths ScopeStack Statements MoveChecker MovePaths MoveTracking MoveExpressions MoveScopes MovePoints
open MoveChecker.CodeGenerator (mergeExitStates survivesLoopScope)
open Function (update_of_ne update_self)
open Bool List

variable {τ : List (Name × Bool)} {new es : List VariableScopeDepthEntry} {m : MovedVariables} {x : Name}
  {p : Paths Store Unit} {t : Store}

variable {base : List (List VariableScopeDepthEntry)} {σ : List (Name × Bool)}

theorem Tracks.enterLoop {g : CodeGenerator}
    (ht : Tracks g.variableScopeDepthScopes.flatten τ g.movedVariables t)
    (hdepth : DepthOk g.variableScopeDepthScopes g.variableScopeDepth) :
    At g.variableScopeDepthScopes τ g.enterLoop.enterCleanupScope t where
  covers := ht.covers
  saved := ht.saved
  depth := hdepth.enter
  live := rfl
  inside := ⟨[], [], rfl⟩
  grown := ht.shape_eq ▸ suffix_refl _

theorem Recorded.leave {states : List LoopExitState} {known : Name → Prop} (h : Recorded base τ states t)
    (hhides : HidesNoMove τ.length known t) (hlength : τ.length = base.flatten.length)
    (hknown : ∀ y, known y → m y = true)
    (hstates : ∀ state ∈ states, ∀ y, state.movedVariables y = true → (∀ n, state.variableScopeDepth y = some
      n → n ≤ base.length) → m y = true) : Tracks base.flatten τ m (outer τ.length t) := by
  obtain ⟨state, hstate, scopes, hsaved, hdepth, hcovers, hgrown⟩ := h
  have hout : outer τ.length t = t.drop scopes.flatten.length := by rw [hlength, hsaved.outer]
  have hin : inner τ.length t = t.take scopes.flatten.length := by rw [hlength, hsaved.inner]
  refine ⟨?_, ?_, shape_outer hgrown⟩
  · intro y hy
    cases hfind : find y (inner τ.length t) with
    | some b => exact hknown y (hhides y (by rw [hfind]; rfl) hy)
    | none =>
      have hmoved : IsMoved t y := by
        rw [IsMoved, ← inner_append_outer τ.length t, find_append, hfind]
        exact hy
      refine hstates state hstate y (hcovers y hmoved) fun n hn => ?_
      refine hdepth.le_of_not_mem ?_ hn
      rintro e he rfl
      rcases hsaved.hidden e he with hsome | hnone
      · rw [← hin, hfind] at hsome
        cases hsome
      · rw [← hout] at hnone
        rw [IsMoved, hnone] at hy
        cases hy
  · rw [hout]
    exact hsaved.drop

theorem loopScope_sound {assigned : Name → Bool} {gᵢ g' : CodeGenerator}
    {scopes : List (List VariableScopeDepthEntry)} {s : Store} (known : Store → Name → Prop)
    (hscopes : gᵢ.variableScopeDepthScopes = [] :: scopes) (hlength : s.length = scopes.flatten.length)
    (hext : Extends assigned new gᵢ g') (hp : Meets (At scopes (shape s) gᵢ) p (reaching scopes (shape s) g'))
    (hknown : ∀ y, known s y → m y = true)
    (hend : g'.terminated = false → ∀ y, g'.exitCleanupScope.movedVariables y = true → m y = true)
    (hstates : ∀ state ∈ g'.exitStates, ∀ y, state.movedVariables y = true → (∀ n, state.variableScopeDepth y
      = some n → n ≤ scopes.length) → m y = true)
    : Meets (At scopes (shape s) gᵢ) (loopScope true known s p)
    ⟨fun t _ => Tracks scopes.flatten (shape s) m t, Tracks scopes.flatten (shape s) m, Tracks scopes.flatten
      (shape s) m, fun _ => True⟩ := by
  have hlength' : (shape s).length = scopes.flatten.length := (length_shape s).trans hlength
  apply Meets.leaving
  refine hp.weaken (fun _ => id) ?_ ?_ ?_ fun _ => id
  · rintro t _ ht s' rfl
    have hout := ht.leave hscopes hlength' hext
    rw [length_shape] at hout
    exact hout.mono (hend ht.live)
  · rintro t ht s' ⟨hhides, rfl⟩
    have hout := Recorded.leave (m := m) (h := ht) (by rw [length_shape]; exact hhides rfl) hlength'
      hknown fun state hstate => hstates state (mem_exitStates.2 (Or.inl hstate))
    rw [length_shape] at hout
    exact hout
  · rintro t ht s' ⟨hhides, rfl⟩
    have hout := Recorded.leave (m := m) (h := ht) (by rw [length_shape]; exact hhides rfl) hlength'
      hknown fun state hstate => hstates state (mem_exitStates.2 (Or.inr hstate))
    rw [length_shape] at hout
    exact hout

theorem consumeArguments_unchanged {s : Store} : ∀ (arguments : ArgumentListNode)
    {values : List (List Name)}, (∀ names ∈ values, names = []) →
      Meets (fun t => t = s) (MovePaths.consumeArguments arguments values)
        (Post.only fun t _ => t = s)
  | .nil, _, _ => Meets.pure fun _ ht => ht
  | .cons _ _ _, [], _ => Meets.pure fun _ ht => ht
  | .cons shouldConsume argument arguments, names :: values, h => by
    obtain rfl : names = [] := h names mem_cons_self
    have hconsume : Meets (fun t => t = s) (consumeWhere shouldConsume [])
        (Post.only fun t _ => t = s) := by
      cases shouldConsume <;> exact Meets.pure fun t ht => ht
    apply Meets.seq hconsume
    intro _
    exact consumeArguments_unchanged arguments fun names hnames => h names (mem_cons_of_mem _ hnames)

mutual

theorem evaluate_unchanged {s : Store} : ∀ {e : ExpressionNode}, mentionsLocal e = false →
    Meets (fun t => t = s) (evaluate true e) (Post.only fun t names => t = s ∧ names = [])
  | .intLiteral _, _ | .opaqueValue, _ => Meets.pure fun t ht => ⟨ht, rfl⟩
  | .identifier _ _, h | .addressOf _, h => by cases h
  | .functionCall arguments, h => by
    apply Meets.seq (evaluateArguments_unchanged h)
    rintro values t ⟨ht, hvalues⟩
    refine Meets.seq (consumeArguments_unchanged arguments hvalues) ?_ t ht
    intro _
    exact Meets.pure fun t ht => ⟨ht, rfl⟩
  | .binaryOp left right, h => by
    simp only [mentionsLocal, or_eq_false_iff] at h
    apply Meets.seq (evaluate_unchanged h.1)
    rintro l t ⟨rfl, rfl⟩
    refine Meets.seq (evaluate_unchanged h.2) ?_ t rfl
    intro r
    exact Meets.pure fun t ht => ⟨ht.1, ht.2⟩
  | .logicalOp left right, h => by
    simp only [mentionsLocal, or_eq_false_iff] at h
    apply Meets.seq (evaluate_unchanged h.1)
    rintro l t ⟨rfl, rfl⟩
    refine Meets.choose (P := fun t' => t' = t) ?_ ?_ t rfl
    · exact Meets.pure fun t ht => ⟨ht, rfl⟩
    · apply Meets.seq (evaluate_unchanged h.2)
      intro r
      exact Meets.pure fun t ht => ⟨ht.1, ht.2⟩
  | .ternary c a b, h => by
    simp only [mentionsLocal, or_eq_false_iff] at h
    apply Meets.seq (undisturbed_sound (evaluate_unchanged h.1.1))
    intro _
    exact Meets.choose (evaluate_unchanged h.1.2) (evaluate_unchanged h.2)

theorem evaluateArguments_unchanged {s : Store} : ∀ {arguments : ArgumentListNode},
    mentionsLocal.argumentsMentionLocal arguments = false →
      Meets (fun t => t = s) (evaluateArguments true arguments)
        (Post.only fun t values => t = s ∧ ∀ names ∈ values, names = [])
  | .nil, _ => Meets.pure fun t ht => ⟨ht, nofun⟩
  | .cons _ argument arguments, h => by
    simp only [mentionsLocal.argumentsMentionLocal, or_eq_false_iff] at h
    apply Meets.seq (evaluate_unchanged h.1)
    rintro names t ⟨rfl, rfl⟩
    refine Meets.seq (evaluateArguments_unchanged h.2) ?_ t rfl
    intro values
    refine Meets.pure fun t' ht' => ⟨ht'.1, fun names hnames => ?_⟩
    rcases mem_cons.1 hnames with rfl | hnames
    · rfl
    · exact ht'.2 names hnames

end

theorem covers_of_movesNothing {s : Store} (hs : Covers m s) (h : MovesNothing s t) : Covers m t :=
  fun y hy => hs y (h y hy)

theorem whileHead_sound {isVisible : Name → Bool} {condition : ExpressionNode}
    {incomingMoved out : MovedVariables} {s : Store}
    (h : generateExpression isVisible condition incomingMoved = some m) (hs : Covers incomingMoved s) :
    Meets (Tracks es τ out) (whileHead true condition s)
    (Post.only fun t b => if b then Tracks es τ m t else Tracks es τ out t) := by
  apply Meets.getThen
  intro t ht
  apply Meets.seq (Meets.provided (P := fun t' => t' = t))
  intro _
  have hcondition : Meets (fun t' => t' = t ∧ (mentionsLocal condition → MovesNothing s t))
      (evaluate true condition) (Post.only fun t' _ => MovesNothing s t → Tracks es τ m t') := by
    by_cases hlocal : mentionsLocal condition = true
    · rintro t' ⟨rfl, hnothing⟩
      have hincoming : Tracks es τ incomingMoved t' :=
        ⟨covers_of_movesNothing hs (hnothing hlocal), ht.saved, ht.shape_eq⟩
      exact (evaluate_sound h).only (fun _ => id) (fun t _ ht _ => ht.1) t' hincoming
    · rw [not_eq_true] at hlocal
      refine (evaluate_unchanged hlocal).only (fun _ => And.left) ?_
      rintro t' _ ⟨rfl, -⟩ hnothing
      exact ⟨(covers_of_movesNothing hs hnothing).mono (generateExpression_mono h), ht.saved, ht.shape_eq⟩
  apply Meets.seq hcondition
  intro _
  apply Meets.choose
  · apply Meets.seq Meets.provided
    intro _
    exact Meets.pure fun t' h => h.1 h.2
  · apply Meets.seq Meets.provided
    rintro _ t' ⟨-, rfl⟩
    exact Meets.pure (P := fun t => t = t') (fun t h => h ▸ ht) t' rfl

theorem while_sound {condition : ExpressionNode} {p : Paths Store Unit} {assigned : Name → Bool}
    {new : List VariableScopeDepthEntry} {beforeLoop bodyEnd : CodeGenerator} {m : MovedVariables}
    (h : generateExpression beforeLoop.isVariableCurrentlyVisible condition
      beforeLoop.movedVariables = some m)
    (hext : Extends assigned new (beforeLoop.setMoved m).enterLoop.enterCleanupScope bodyEnd)
    (hp : ∀ base τ, Meets (At base τ (beforeLoop.setMoved m).enterLoop.enterCleanupScope) p
      (reaching base τ bodyEnd)) :
    Meets (At base σ beforeLoop)
      (do let before ← Paths.get
          Paths.loop (fun _ => whileHead true condition before)
            (loopScope true IsMoved before p))
      (reaching base σ (leaveWhile beforeLoop.movedVariables bodyEnd.exitCleanupScope)) := by
  apply Meets.getThen
  intro s hs
  have hwhile : Extends assigned [] beforeLoop
      (leaveWhile beforeLoop.movedVariables bodyEnd.exitCleanupScope) :=
    extends_leaveWhile (g := beforeLoop.setMoved m) rfl rfl rfl hext
  have hscopes := hwhile.scopes
  rw [grow_nil] at hscopes
  generalize hleave : leaveWhile beforeLoop.movedVariables bodyEnd.exitCleanupScope = g' at *
  have hincoming : ∀ y, beforeLoop.movedVariables y = true → g'.movedVariables y = true := by
    subst hleave
    intro y hy
    apply mergeExitStates_mono
    split
    · simp only [MovedVariables.union, hy, Bool.true_or]
    · exact hy
  have hend : bodyEnd.terminated = false →
      ∀ y, bodyEnd.exitCleanupScope.movedVariables y = true → g'.movedVariables y = true := by
    subst hleave
    intro hlive y hy
    obtain ⟨-, -, -, hlive', -, -⟩ := hext.exit (scopes_enterLoop _)
    apply mergeExitStates_mono
    simp [MovedVariables.union, hlive', hlive, hy]
  have hstates : ∀ state ∈ bodyEnd.exitStates, ∀ y, state.movedVariables y = true →
      g'.movedVariables y = true := by
    subst hleave
    intro state hstate y hy
    rw [← exitStates_exitCleanupScope] at hstate
    exact mergeExitStates_of_mem hstate hy rfl _
  have hlive : g'.terminated = false := by
    subst hleave
    rfl
  have hloop : Meets (Tracks beforeLoop.variableScopeDepthScopes.flatten (shape s) g'.movedVariables)
      (Paths.loop (fun _ => whileHead true condition s) (loopScope true IsMoved s p))
      (reaching base σ g') := by
    refine Meets.loop (J := fun _ => Tracks beforeLoop.variableScopeDepthScopes.flatten (shape s) m)
      (I := fun _ => Tracks beforeLoop.variableScopeDepthScopes.flatten (shape s) g'.movedVariables)
      ?_ ?_
    · intro n
      refine (whileHead_sound h hs.covers).only (fun _ => id) fun t b ht => ?_
      cases b with
      | true => exact ht
      | false => exact hs.of_tracks ht hscopes (hscopes ▸ hwhile.depth hs.depth) hlive
    · intro n
      have hbody := loopScope_sound IsMoved rfl hs.saved.length_eq hext (hp _ _)
        (fun y hy => hincoming y (hs.covers y hy)) hend
        (fun state hstate y hy _ => hstates state hstate y hy)
      refine hbody.weaken ?_ (fun _ _ => id) ?_ (fun _ => id) fun _ => id
      · exact fun t ht => Tracks.enterLoop (g := beforeLoop.setMoved m) ht hs.depth
      · exact fun t ht => hs.of_tracks ht hscopes (hscopes ▸ hwhile.depth hs.depth) hlive
  rintro t rfl
  exact hloop t (hs.tracks.mono hincoming)

theorem Tracks.endLoopVariable {e : VariableScopeDepthEntry}
    (ht : Tracks (e :: es) ((x, false) :: τ) (Function.update m x true) t) (hfresh : (x, false) ∉ τ) :
    Tracks (e :: es) ((x, true) :: τ) m (endLoopVariable t) := by
  cases t with
  | nil => exact ht.saved.elim
  | cons b t =>
    obtain ⟨hhead, rfl⟩ : (b.name, decide (b.status = .ended)) = (x, false) ∧ shape t = τ := by
      have hshape := ht.shape_eq
      exact ⟨head_eq_of_cons_eq hshape, tail_eq_of_cons_eq hshape⟩
    obtain rfl : b.name = x := congrArg Prod.fst hhead
    have hnone : find b.name t = none := (find_eq_none_iff b.name t).2 hfresh
    obtain ⟨hname, -, -, hsaved⟩ := ht.saved
    refine ⟨?_, ⟨hname, ?_, fun _ => hnone, hsaved⟩, ?_⟩
    · intro y hy
      have htail : IsMoved t y := by simpa [MovePaths.endLoopVariable, IsMoved, find] using hy
      have hne : y ≠ b.name := by
        rintro rfl
        rw [IsMoved, hnone] at htail
        cases htail
      have hmoved := ht.covers y (by simpa [IsMoved, find, hne.symm] using htail)
      rwa [update_of_ne hne] at hmoved
    · intro hmoved
      rw [IsMoved, hnone] at hmoved
      cases hmoved
    · simp [MovePaths.endLoopVariable, shape]

theorem enterFor_movedVariables {y : Name} (h : y ≠ x) (g : CodeGenerator) :
    (enterFor x g).movedVariables y = g.movedVariables y := by
  unfold enterFor CodeGenerator.recordVariableScopeDepth
  split <;> exact update_of_ne h ..

theorem forLoop_sound {neverExecutes : Bool} {body : StatementListNode} {beforeLoop bodyEnd : CodeGenerator}
    {s : Store} (hs : At base σ beforeLoop s) (henter : At base σ (enterFor x beforeLoop) (declare x s))
    (hlength : (enterFor x beforeLoop).variableScopeDepthScopes.length =
      beforeLoop.variableScopeDepthScopes.length)
    (hext : Extends (fun y => listAssigns y body) new (enterFor x beforeLoop).enterLoop.enterCleanupScope
      bodyEnd)
    (hp : ∀ base τ, Meets (At base τ (enterFor x beforeLoop).enterLoop.enterCleanupScope) p (reaching base τ
      bodyEnd)) : Meets (fun t => t = declare x s)
    (Paths.loop (forHead true neverExecutes body (declare x s)) (loopScope true (fun _ _ => False) (declare x
      s) p))
    ⟨fun t _ => Tracks (enterFor x beforeLoop).variableScopeDepthScopes.flatten (shape (declare x s))
      (Function.update (leaveFor x neverExecutes beforeLoop bodyEnd.exitCleanupScope).movedVariables x true)
      t, fun _ => False, fun _ => False, fun _ => True⟩ := by
  obtain ⟨-, -, -, hlive', hexit, -⟩ := hext.exit (scopes_enterLoop _)
  generalize hleave : leaveFor x neverExecutes beforeLoop bodyEnd.exitCleanupScope = g'
  -- What is moved behind the body, or at a jump out of it, is moved behind the loop.
  have hend : neverExecutes = false → ∀ y, bodyEnd.exitCleanupScope.movedVariables y = true →
      Function.update g'.movedVariables x true y = true := by
    rintro rfl y hy
    by_cases hx : y = x
    · rw [hx, update_self]
    · rw [update_of_ne hx, ← hleave]
      apply mergeExitStates_mono
      exact (update_of_ne hx ..).trans hy
  have hstates : ∀ state ∈ bodyEnd.exitStates, ∀ y, state.movedVariables y = true →
      (∀ n, state.variableScopeDepth y = some n →
        n ≤ (enterFor x beforeLoop).variableScopeDepthScopes.length) →
      Function.update g'.movedVariables x true y = true := by
    intro state hstate y hy hdepth
    by_cases hx : y = x
    · rw [hx, update_self]
    · rw [update_of_ne hx, ← hleave]
      rw [← exitStates_exitCleanupScope] at hstate
      refine mergeExitStates_of_mem hstate hy ?_ _
      unfold survivesLoopScope
      cases hd : state.variableScopeDepth y with
      | none => simp [hx]
      | some n =>
        have hn := hdepth n hd
        rw [hlength] at hn
        exact Bool.and_eq_true_iff.2 ⟨bne_iff_ne.2 hx, decide_eq_true hn⟩
  have hzero : (neverExecutes = true ∨ ∀ y, IsMoved (declare x s) y → listAssigns y body = false) →
      Covers (Function.update g'.movedVariables x true) (declare x s) := by
    intro hkept y hy
    obtain ⟨hx, hmoved⟩ := isMoved_declare hy
    have hbefore := hs.covers y hmoved
    rw [update_of_ne hx, ← hleave]
    apply mergeExitStates_mono
    split
    · exact hbefore
    · next hexecutes =>
      have hkeep := hext.keeps y ((hkept.resolve_left hexecutes) y hy)
      rw [update_of_ne hx, hexit]
      apply hkeep
      exact (enterFor_movedVariables hx beforeLoop).trans hbefore
  refine Meets.loop
    (I := fun n t => (n = 0 ∧ t = declare x s) ∨ (neverExecutes = false ∧
      Tracks (enterFor x beforeLoop).variableScopeDepthScopes.flatten (shape (declare x s))
        (Function.update g'.movedVariables x true) t))
    (J := fun _ t => neverExecutes = false ∧
      Tracks (enterFor x beforeLoop).variableScopeDepthScopes.flatten (shape (declare x s))
        (enterFor x beforeLoop).movedVariables t) ?_ ?_ |>.weaken
    (fun t ht => Or.inl ⟨rfl, ht⟩) (fun _ _ => id) (fun _ => id) (fun _ => id) fun _ => id
  · intro n
    apply Meets.getThen
    intro t ht
    apply Meets.choose
    · have henters : Meets (fun t' => t' = t) (Paths.require fun _ => (!neverExecutes) = true)
          (Post.only fun t' _ => t' = t ∧ neverExecutes = false) :=
        Meets.require fun t' ht' hnever => ⟨ht', by simpa using hnever⟩
      apply Meets.seq henters
      intro _
      apply Meets.seq Meets.provided
      rintro _ t' ⟨⟨rfl, hnever⟩, hnothing⟩
      refine Meets.pure (P := fun t => t = t') (fun t h => ?_) t' rfl
      subst h
      have htracks : Saved t (enterFor x beforeLoop).variableScopeDepthScopes.flatten ∧
          shape t = shape (declare x s) := by
        rcases ht with ⟨-, rfl⟩ | ⟨-, ht⟩
        · exact ⟨henter.saved, rfl⟩
        · exact ⟨ht.saved, ht.shape_eq⟩
      exact ⟨hnever, covers_of_movesNothing henter.covers hnothing, htracks.1, htracks.2⟩
    · apply Meets.seq Meets.provided
      rintro _ t' ⟨rfl, hkept⟩
      refine Meets.pure (P := fun t => t = t') (fun t h => ?_) t' rfl
      subst h
      rcases ht with ⟨rfl, rfl⟩ | ⟨-, ht⟩
      · exact ⟨hzero (hkept rfl), henter.saved, rfl⟩
      · exact ht
  · intro n
    rcases eq_false_or_eq_true neverExecutes with htrue | hnever
    · rintro t ⟨hnever, -⟩
      rw [htrue] at hnever
      cases hnever
    · have hbody := loopScope_sound (fun _ _ => False) rfl henter.saved.length_eq hext
        (hp _ _) (fun _ => False.elim) (fun _ => hend hnever) hstates
      refine hbody.weaken ?_ ?_ (fun _ => id) ?_ fun _ => id
      · exact fun t ht => Tracks.enterLoop ht.2 henter.depth
      · exact fun t _ ht => Or.inr ⟨hnever, ht⟩
      · exact fun t ht => Or.inr ⟨hnever, ht⟩

theorem for_sound {x : Name} {neverExecutes : Bool} {body : StatementListNode}
    {p : Paths Store Unit} {new : List VariableScopeDepthEntry} {beforeLoop bodyEnd : CodeGenerator}
    (hext : Extends (fun y => listAssigns y body) new
      (enterFor x beforeLoop).enterLoop.enterCleanupScope bodyEnd)
    (hp : ∀ base τ, Meets (At base τ (enterFor x beforeLoop).enterLoop.enterCleanupScope) p
      (reaching base τ bodyEnd)) :
    Meets (At base σ beforeLoop)
      (do Paths.provided true (fun s => find x s = none)
          Paths.modify (declare x)
          let before ← Paths.get
          Paths.loop (forHead true neverExecutes body before)
            (loopScope true (fun _ _ => False) before p)
          Paths.modify endLoopVariable)
      (reaching base σ (leaveFor x neverExecutes beforeLoop bodyEnd.exitCleanupScope)) := by
  apply Meets.seq Meets.provided
  intro _
  apply Meets.of_state
  rintro s ⟨hs, hfresh⟩
  obtain ⟨es, scopes, hinside⟩ := exists_cons_of_ne_nil hs.ne_nil
  have hcleared : (beforeLoop.clearMovedVariable x).variableScopeDepthScopes = es :: scopes := hinside
  have henterFor := record_scopes hcleared x
  have henter : At base σ (enterFor x beforeLoop) (declare x s) := by
    refine hs.declare x (beforeLoop.clearMovedVariable x) ?_ rfl rfl rfl rfl ?_ ?_
    · intro hmoved
      rw [IsMoved, hfresh] at hmoved
      cases hmoved
    · exact fun y hy => enterFor_movedVariables hy beforeLoop
    · rw [enterFor, henterFor]
      exact hs.live
  have hscopes : (enterFor x beforeLoop).variableScopeDepthScopes =
      (⟨x, beforeLoop.variableScopeDepth x, false⟩ :: es) :: scopes := by
    rw [enterFor, henterFor]
    simp [CodeGenerator.clearMovedVariable, CodeGenerator.setMoved]
  obtain ⟨_, hfor⟩ := extends_leaveFor hs.ne_nil hext neverExecutes
  have hleave := hext.exit (scopes_enterLoop _)
  have hmodify : Meets (fun t => t = s) (Paths.modify (declare x))
      (Post.only fun t _ => t = declare x s) := by
    apply Meets.modify
    rintro t rfl
    rfl
  apply Meets.seq hmodify
  intro _
  apply Meets.getThen
  rintro _ rfl
  have hlength : (enterFor x beforeLoop).variableScopeDepthScopes.length =
      beforeLoop.variableScopeDepthScopes.length := by
    rw [hscopes, hinside]
    rfl
  refine Meets.bind ((forLoop_sound hs henter hlength hext hp).weaken (fun _ => id) (fun _ _ => id)
    (fun _ => False.elim) (fun _ => False.elim) fun _ => id) ?_
  intro _
  apply Meets.modify
  intro t ht
  rw [hscopes] at ht
  have hend := Tracks.endLoopVariable ht ((find_eq_none_iff x s).1 hfresh)
  have hafter : (leaveFor x neverExecutes beforeLoop bodyEnd.exitCleanupScope).variableScopeDepthScopes =
        (⟨x, beforeLoop.variableScopeDepth x, false⟩ :: es) :: scopes := hleave.2.1.trans hscopes
  have hgrown : σ <:+ shape (MovePaths.endLoopVariable t) := by
    rw [hend.shape_eq]
    exact hs.grown.trans (suffix_cons _ _)
  obtain ⟨es', scopes', hinside'⟩ := hs.inside
  rw [hinside] at hinside'
  obtain ⟨rfl, rfl⟩ := List.cons.inj hinside'
  exact ⟨hend.covers, hafter ▸ hend.saved, hfor.depth hs.depth, rfl, ⟨_, _, hafter⟩, hgrown⟩

end Mlang.MoveLoops
