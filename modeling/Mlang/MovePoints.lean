import Mlang.MoveExpressions
import Mlang.MoveScopes

namespace Mlang.MovePoints

open StructuredPaths ScopeStack Statements MoveChecker MovePaths MoveTracking MoveExpressions MoveScopes List
open Option

variable {g' g : CodeGenerator} {base : List (List VariableScopeDepthEntry)} {σ : List (Name × Bool)}
  {states : List LoopExitState} {s t : Store}

/-- A path stands where the analysis stands: `base` are the scopes around the innermost loop,
`σ` the bindings made before it. -/
structure At (base : List (List VariableScopeDepthEntry)) (σ : List (Name × Bool))
    (g : CodeGenerator) (s : Store) : Prop where
  covers : Covers g.movedVariables s
  saved : Saved s g.variableScopeDepthScopes.flatten
  depth : DepthOk g.variableScopeDepthScopes g.variableScopeDepth
  live : g.terminated = false
  inside : ∃ es scopes, g.variableScopeDepthScopes = es :: scopes ++ base
  grown : σ <:+ shape s

def Recorded (base : List (List VariableScopeDepthEntry)) (σ : List (Name × Bool))
    (states : List LoopExitState) (s : Store) : Prop :=
  ∃ state ∈ states, ∃ scopes, Saved s (scopes.flatten ++ base.flatten) ∧
    DepthOk (scopes ++ base) state.variableScopeDepth ∧ Covers state.movedVariables s ∧
    σ <:+ shape s

/-- What holds of a path where the analysis of a statement ends in `g`. -/
def reaching (base : List (List VariableScopeDepthEntry)) (σ : List (Name × Bool))
    (g : CodeGenerator) : Post Store Unit where
  normal s _ := At base σ g s
  broke := Recorded base σ (breakStates g)
  continued := Recorded base σ (continueStates g)
  returned _ := True

theorem Recorded.mono {states' : List LoopExitState} (h : Recorded base σ states s)
    (hsub : ∀ state ∈ states, state ∈ states') : Recorded base σ states' s := by
  obtain ⟨state, hstate, hrest⟩ := h
  exact ⟨state, hsub state hstate, hrest⟩

theorem At.recorded (hs : At base σ g s) (h : g.exitState ∈ states) : Recorded base σ states s := by
  obtain ⟨es, scopes, hinside⟩ := hs.inside
  refine ⟨g.exitState, h, es :: scopes, ?_, ?_, hs.covers, hs.grown⟩
  · rw [← flatten_append, ← hinside]
    exact hs.saved
  · rw [← hinside]
    exact hs.depth

variable (h : At base σ g s)
include h

theorem At.tracks :
    Tracks g.variableScopeDepthScopes.flatten (shape s) g.movedVariables s :=
  ⟨h.covers, h.saved, rfl⟩

theorem At.ne_nil : g.variableScopeDepthScopes ≠ [] := by
  obtain ⟨es, scopes, hscopes⟩ := h.inside
  rw [hscopes]
  simp

theorem At.of_tracks (ht : Tracks g.variableScopeDepthScopes.flatten (shape s) g'.movedVariables t)
    (hscopes : g'.variableScopeDepthScopes = g.variableScopeDepthScopes)
    (hdepth : DepthOk g.variableScopeDepthScopes g'.variableScopeDepth) (hlive : g'.terminated = false) :
    At base σ g' t where
  covers := ht.covers
  saved := hscopes ▸ ht.saved
  depth := hscopes ▸ hdepth
  live := hlive
  inside := hscopes ▸ h.inside
  grown := ht.shape_eq ▸ h.grown

theorem At.declare (x : Name) (recorded : CodeGenerator)
    (hprevious : IsMoved s x → recorded.movedVariables x = true)
    (hscopes : recorded.variableScopeDepthScopes = g.variableScopeDepthScopes)
    (hdepth : recorded.variableScopeDepth = g.variableScopeDepth)
    (hg' : g'.variableScopeDepthScopes = (recorded.recordVariableScopeDepth x).variableScopeDepthScopes)
    (hdepth' : g'.variableScopeDepth = (recorded.recordVariableScopeDepth x).variableScopeDepth)
    (hmoved : ∀ y, y ≠ x → g'.movedVariables y = g.movedVariables y) (hlive : g'.terminated = false) :
    At base σ g' (declare x s) := by
  obtain ⟨es, scopes, hinside⟩ := h.inside
  have hs : recorded.variableScopeDepthScopes = es :: (scopes ++ base) := hscopes.trans hinside
  rw [record_scopes hs] at hg' hdepth'
  have hsaved := h.saved
  rw [hinside, cons_append] at hsaved
  have hd := h.depth
  rw [hinside, cons_append] at hd
  constructor
  · intro y hy
    obtain ⟨hne, hy⟩ := isMoved_declare hy
    rw [hmoved y hne]
    exact h.covers y hy
  · rw [hg']
    have hlive : Status.live ≠ .ended := nofun
    exact ⟨rfl, hprevious, fun hended => absurd hended hlive, hsaved⟩
  · rw [hg', hdepth', hdepth]
    exact hd.record x _
  · exact hlive
  · exact ⟨_, scopes, hg'⟩
  · obtain ⟨pre, hpre⟩ := h.grown
    exact ⟨(x, false) :: pre, by rw [cons_append, hpre]; rfl⟩

omit h

variable {τ : List (Name × Bool)} {m : MovedVariables}

variable {e : ExpressionNode}

theorem evaluateAndConsume_sound {isVisible : Name → Bool} {m' : MovedVariables}
    {es : List VariableScopeDepthEntry} (h : generateValue isVisible e m = some m') :
    Meets (Tracks es τ m) (evaluateAndConsume true e) (Post.only fun s _ => Tracks es τ m' s) := by
  simp only [generateValue, bind_eq_bind, bind_eq_some_iff] at h
  obtain ⟨m₁, hg, hc⟩ := h
  apply Meets.seq (evaluate_sound hg)
  intro names s hs
  exact consume_sound hs.2 hc s hs.1

/-- A value is evaluated at a point of the path. -/
theorem value_sound (h : g.evaluate generateValue e = some g') :
    Meets (At base σ g) (evaluateAndConsume true e) (Post.only fun s _ => At base σ g' s) := by
  obtain ⟨m, hm, rfl⟩ := evaluate_eq h
  apply Meets.of_state
  intro s hs
  refine (evaluateAndConsume_sound hm).only ?_ fun t _ ht => hs.of_tracks ht rfl hs.depth hs.live
  rintro t rfl
  exact hs.tracks

theorem expression_sound (h : g.evaluate generateExpression e = some g') :
    Meets (At base σ g) (evaluate true e) (Post.only fun s _ => At base σ g' s) := by
  obtain ⟨m, hm, rfl⟩ := evaluate_eq h
  apply Meets.of_state
  intro s hs
  refine (evaluate_sound hm).only ?_ fun t _ ht => hs.of_tracks ht.1 rfl hs.depth hs.live
  rintro t rfl
  exact hs.tracks

variable {assigned : Name → Bool} {p : Paths Store Unit} {new : List VariableScopeDepthEntry}
  {gᵢ : CodeGenerator}

theorem At.leave {scopes : List (List VariableScopeDepthEntry)}
    (hscopes : gᵢ.variableScopeDepthScopes = [] :: scopes) (hlength : τ.length = scopes.flatten.length)
    (hext : Extends assigned new gᵢ g') (ht : At base τ g' t) :
    Tracks scopes.flatten τ g'.exitCleanupScope.movedVariables (outer τ.length t) := by
  obtain ⟨hscopes', -, -, -, hmoved, -⟩ := hext.exit hscopes
  have hsaved := ht.saved
  rw [hscopes', flatten_cons] at hsaved
  have hout : outer τ.length t = t.drop new.length := by rw [hlength, hsaved.outer]
  refine ⟨?_, ?_, shape_outer ht.grown⟩
  · rw [hmoved, hout]
    exact ht.covers.restore hsaved
  · rw [hout]
    exact hsaved.drop

theorem At.length_eq (hs : At base σ g s) : (shape s).length = g.variableScopeDepthScopes.flatten.length :=
  (length_shape s).trans hs.saved.length_eq

theorem At.enter (hs : At base σ g s)
    (hscopes : gᵢ.variableScopeDepthScopes = [] :: g.variableScopeDepthScopes)
    (hdepth : DepthOk g.variableScopeDepthScopes gᵢ.variableScopeDepth) (hcovers : Covers gᵢ.movedVariables s)
    (hlive : gᵢ.terminated = false) : At base (shape s) gᵢ s where
  covers := hcovers
  saved := by rw [hscopes, flatten_cons]; exact hs.saved
  depth := by rw [hscopes]; exact hdepth.enter
  live := hlive
  inside := by
    obtain ⟨es, scopes, hinside⟩ := hs.inside
    exact ⟨[], es :: scopes, by rw [hscopes, hinside]; rfl⟩
  grown := suffix_refl _

theorem Recorded.widen (hs : At base σ g s) (h : Recorded base (shape s) states t) :
    Recorded base σ states t := by
  obtain ⟨state, hstate, scopes, hsaved, hdepth, hcovers, hgrown⟩ := h
  exact ⟨state, hstate, scopes, hsaved, hdepth, hcovers, hs.grown.trans hgrown⟩

theorem scope_sound (hscopes : gᵢ.variableScopeDepthScopes = [] :: g.variableScopeDepthScopes)
    (hdepth : DepthOk g.variableScopeDepthScopes g.variableScopeDepth → DepthOk g.variableScopeDepthScopes
      gᵢ.variableScopeDepth)
    (hmoved : gᵢ.movedVariables = g.movedVariables) (hlive : gᵢ.terminated = false)
    (hext : Extends assigned new gᵢ g') (hp : ∀ τ, Meets (At base τ gᵢ) p (reaching base τ g')) :
    Meets (At base σ g) (scope p) (reaching base σ g'.exitCleanupScope) := by
  apply Meets.getThen
  intro s hs
  obtain ⟨-, hscopes', hloops', hlive', -, hdepth'⟩ := hext.exit hscopes
  apply Meets.leaving
  refine (hp (shape s)).weaken ?_ ?_ ?_ ?_ fun _ => id
  · rintro t rfl
    exact hs.enter hscopes (hdepth hs.depth) (hmoved ▸ hs.covers) hlive
  · rintro t _ ht s' rfl
    have hout := ht.leave hscopes hs.length_eq hext
    rw [length_shape] at hout
    exact hs.of_tracks hout hscopes' (hdepth' (hdepth hs.depth)) (hlive'.trans ht.live)
  · rintro t ht s' rfl
    simp only [reaching, breakStates, hloops']
    exact Recorded.widen hs ht
  · rintro t ht s' rfl
    simp only [reaching, continueStates, hloops']
    exact Recorded.widen hs ht

variable {b : CodeGenerator} {statements : Option (CodeGenerator → Option CodeGenerator)}
  {paths : Option (Paths Store Unit)}

theorem At.mono (h : At base σ g s) (hscopes : g'.variableScopeDepthScopes = g.variableScopeDepthScopes)
    (hdepth : DepthOk g.variableScopeDepthScopes g'.variableScopeDepth) (hlive : g'.terminated = false)
    (hmoved : ∀ y, g.movedVariables y = true → g'.movedVariables y = true) : At base σ g' s :=
  h.of_tracks (h.tracks.mono hmoved) hscopes hdepth hlive

/-- The statements of a final `else` and the paths through them. -/
structure Sound (statements : CodeGenerator → Option CodeGenerator) (p : Paths Store Unit) :
    Prop where
  extension : ∃ assigned, ∀ g g' : CodeGenerator, g.variableScopeDepthScopes ≠ [] →
    statements g = some g' → ∃ new, Extends assigned new g g'
  meets : ∀ base σ (g g' : CodeGenerator), g.variableScopeDepthScopes ≠ [] →
    statements g = some g' → Meets (At base σ g) p (reaching base σ g')

theorem branch_sound {statements : CodeGenerator → Option CodeGenerator} (hsound : Sound statements p)
    (hbefore : Extends assigned [] b g) (h : generateBranch b.movedVariables statements g = some g') :
    Meets (At base σ b) (scope p) (reaching base σ g') := by
  simp only [generateBranch, bind_eq_bind, bind_eq_some_iff, Option.pure_def, Option.some.injEq] at h
  obtain ⟨g₁, hs, rfl⟩ := h
  have hscopes : g.variableScopeDepthScopes = b.variableScopeDepthScopes := by
    rw [hbefore.scopes, grow_nil]
  obtain ⟨assigned', hext⟩ := hsound.extension
  obtain ⟨new, hnew⟩ := hext _ _ (by simp [CodeGenerator.enterCleanupScope]) hs
  refine scope_sound ?_ ?_ ?_ ?_ hnew ?_
  · exact congrArg (List.cons []) hscopes
  · rw [← hscopes]
    intro hd
    exact hbefore.depth (hscopes ▸ hd)
  · rfl
  · rfl
  · intro τ
    exact hsound.meets base τ _ _ (by simp [CodeGenerator.enterCleanupScope]) hs

theorem elseBranch_sound {statements : Option (CodeGenerator → Option CodeGenerator)}
    {paths : Option (Paths Store Unit)} {assigned : Name → Bool} {b g g' : CodeGenerator}
    (hsound : Option.Rel Sound statements paths) (hbefore : Extends assigned [] b g)
    (h : generateElseBranch b.movedVariables statements g = some g') :
    Meets (At base σ b) (match paths with | some p => scope p | none => pure ())
      (reaching base σ g') := by
  cases hsound with
  | some hsound => exact branch_sound hsound hbefore h
  | none =>
    cases h
    have hscopes : g.variableScopeDepthScopes = b.variableScopeDepthScopes := by
      rw [hbefore.scopes, grow_nil]
    exact Meets.pure fun s hs =>
      hs.mono hscopes (hscopes ▸ hbefore.depth hs.depth) rfl fun _ => id

theorem extends_elseBranch (hsound : Option.Rel Sound statements paths)
    (h : generateElseBranch m statements g = some g') :
    ∃ assigned, Extends assigned [] (g.setMoved m) g' := by
  cases hsound with
  | some hsound =>
    obtain ⟨assigned, hext⟩ := hsound.extension
    exact ⟨assigned, extends_generateBranch hext h⟩
  | none =>
    cases h
    exact ⟨fun _ => false, Extends.of_same rfl rfl rfl fun _ _ => id⟩

theorem extends_finalElse (hsound : Option.Rel Sound statements paths) : ∃ assigned, ∀ f,
    statements = some f → ∀ g g' : CodeGenerator, g.variableScopeDepthScopes ≠ [] → f g = some g' → ∃ new,
    Extends assigned new g g' := by
  cases hsound with
  | some hsound =>
    obtain ⟨assigned, hext⟩ := hsound.extension
    exact ⟨assigned, fun f hf => Option.some.inj hf ▸ hext⟩
  | none => exact ⟨fun _ => false, nofun⟩

theorem extends_setMoved (g : CodeGenerator) (m : MovedVariables) :
    Extends (fun _ => true) [] g (g.setMoved m) :=
  Extends.of_same rfl rfl rfl nofun

theorem leaveIf_sound {q : Paths Store Unit} {assigned' : Name → Bool} {thenEnd elseEnd : CodeGenerator}
    (hthen : Meets (At base σ b) p (reaching base σ thenEnd))
    (helse : Meets (At base σ b) q (reaching base σ elseEnd)) (hext : Extends assigned [] b thenEnd)
    (hext' : Extends assigned' [] (thenEnd.setMoved b.movedVariables) elseEnd) :
    Meets (At base σ b) (Paths.choose p q) (reaching base σ (leaveIf b.movedVariables thenEnd elseEnd)) := by
  have hscopes : thenEnd.variableScopeDepthScopes = b.variableScopeDepthScopes := by
    rw [hext.scopes, grow_nil]
  have hscopes' : elseEnd.variableScopeDepthScopes = thenEnd.variableScopeDepthScopes := by
    rw [hext'.scopes, grow_nil]
    rfl
  apply Meets.choose
  · refine hthen.weaken (fun _ => id) ?_ ?_ ?_ fun _ => id
    · intro t _ ht
      refine At.mono ht hscopes' (hscopes' ▸ hext'.depth ht.depth) rfl fun y hy => ?_
      have hlive := ht.live
      show mergeBranches b.movedVariables thenEnd elseEnd y = true
      unfold mergeBranches
      split
      · simp only [MovedVariables.union, hy, Bool.true_or]
      · simpa [hlive] using hy
    · exact fun t ht => Recorded.mono ht hext'.breaks
    · exact fun t ht => Recorded.mono ht hext'.continues
  · refine helse.weaken (fun _ => id) ?_ (fun _ => id) (fun _ => id) fun _ => id
    intro t _ ht
    refine At.mono ht rfl ht.depth rfl fun y hy => ?_
    have hlive := ht.live
    show mergeBranches b.movedVariables thenEnd elseEnd y = true
    unfold mergeBranches
    split
    · simp only [MovedVariables.union, hy, Bool.or_true]
    · next hnot =>
      have hthenEnd : thenEnd.terminated = true := by simpa [hlive] using hnot
      simpa [hthenEnd, hlive] using hy

end Mlang.MovePoints
