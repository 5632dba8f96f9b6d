import Mlang.MovePaths

namespace Mlang.MoveTracking

open StructuredPaths Statements MoveChecker MovePaths List Option
open MoveChecker.CodeGenerator (restoreMoved restoreDepths)
open Function (update_of_ne update_self)

variable {x : Name} {s : Store} {y : Name}

theorem find_setMoved_ne (h : y ≠ x) (b : Bool) (s : Store) : find y (setMoved x b s) = find y s := by
  induction s with
  | nil => rfl
  | cons a s ih =>
    by_cases hx : a.name = x ∧ a.status ≠ .ended
    · have hy : ¬ x = y := fun e => h e.symm
      simp [setMoved, find, hx, hy]
    · simp [setMoved, find, hx, ih]

theorem find_setMoved_self (b : Bool) (h : (find x s).isSome) : find x (setMoved x b s) = some b := by
  induction s with
  | nil => cases h
  | cons a s ih =>
    by_cases hx : a.name = x ∧ a.status ≠ .ended
    · cases b <;> simp [setMoved, find, hx]
    · have hs : (find x s).isSome := by simpa [find, hx] using h
      simp [setMoved, find, hx, ih hs]

theorem setMoved_of_none (b : Bool) (h : find x s = none) : setMoved x b s = s := by
  induction s with
  | nil => rfl
  | cons a s ih =>
    by_cases hx : a.name = x ∧ a.status ≠ .ended
    · simp [find, hx] at h
    · simp only [find, if_neg hx] at h
      rw [setMoved, if_neg hx, ih h]

theorem isMoved_setMoved_true (h : IsMoved (setMoved x true s) y) : y = x ∨ IsMoved s y := by
  by_cases hy : y = x
  · exact Or.inl hy
  · rw [IsMoved, find_setMoved_ne hy] at h
    exact Or.inr h

theorem isMoved_setMoved_false (h : IsMoved (setMoved x false s) y) : y ≠ x ∧ IsMoved s y := by
  by_cases hy : y = x
  · subst hy
    cases hf : find y s with
    | none =>
      rw [setMoved_of_none false hf, IsMoved, hf] at h
      cases h
    | some b =>
      rw [IsMoved, find_setMoved_self false (by rw [hf]; rfl)] at h
      cases h
  · rw [IsMoved, find_setMoved_ne hy] at h
    exact ⟨hy, h⟩

theorem isMoved_declare (h : IsMoved (declare x s) y) : y ≠ x ∧ IsMoved s y := by
  by_cases hy : x = y
  · simp [IsMoved, declare, find, hy] at h
  · simp only [IsMoved, declare, find, hy, false_and, if_false] at h
    exact ⟨Ne.symm hy, h⟩

theorem find_append (name : Name) (s t : Store) :
    find name (s ++ t) = (find name s).or (find name t) := by
  induction s with
  | nil => rfl
  | cons b s ih =>
    by_cases hb : b.name = name ∧ b.status ≠ .ended
    · simp [find, hb]
    · simp only [cons_append, find, if_neg hb, ih]

theorem inner_append_outer (n : Nat) (s : Store) : inner n s ++ outer n s = s :=
  take_append_drop _ _

def shape (s : Store) : List (Name × Bool) := s.map (fun b => (b.name, b.status = .ended))

theorem shape_setMoved (x : Name) (b : Bool) (s : Store) : shape (setMoved x b s) = shape s := by
  induction s with
  | nil => rfl
  | cons a s ih =>
    by_cases hx : a.name = x ∧ a.status ≠ .ended
    · cases b <;> simp [setMoved, shape, hx]
    · simp only [setMoved, if_neg hx]
      exact congrArg (List.cons _) ih

theorem find_eq_none_iff (x : Name) (s : Store) : find x s = none ↔ (x, false) ∉ shape s := by
  induction s with
  | nil => simp [find, shape]
  | cons a s ih =>
    by_cases hx : a.name = x ∧ a.status ≠ .ended
    · simp [find, shape, hx]
    · simp only [find, if_neg hx, ih, shape, map_cons, mem_cons, Prod.mk.injEq, not_or]
      constructor
      · intro h
        exact ⟨fun e => hx ⟨e.1.symm, by simpa using e.2.symm⟩, h⟩
      · exact And.right

theorem length_shape (s : Store) : (shape s).length = s.length := length_map _

theorem shape_outer {σ : List (Name × Bool)} (h : σ <:+ shape s) : shape (outer σ.length s) = σ := by
  obtain ⟨pre, hpre⟩ := h
  have hlen : s.length - σ.length = pre.length := by
    rw [← length_shape, ← hpre, length_append]
    omega
  have hdrop : shape (s.drop pre.length) = (shape s).drop pre.length := map_drop
  rw [outer, hlen, hdrop, ← hpre, drop_left]

variable {es : List VariableScopeDepthEntry} {m' m : MovedVariables}

/-- What the entries of the open scopes promise: each entry stands for one binding, and
remembers whether the binding it hides is moved. -/
def Saved : Store → List VariableScopeDepthEntry → Prop
  | [], [] => True
  | b :: s, e :: es => e.varName = b.name ∧ (IsMoved s b.name → e.previousMoved = true) ∧
      (b.status = .ended → find b.name s = none) ∧ Saved s es
  | _, _ => False

def Covers (m : MovedVariables) (s : Store) : Prop := ∀ name, IsMoved s name → m name = true

variable {new : List VariableScopeDepthEntry}

theorem Covers.mono (h : Covers m s) (hm : ∀ name, m name = true → m' name = true) : Covers m' s :=
  fun name hname => hm name (h name hname)

theorem Saved.length_eq : ∀ {s : Store} {es : List VariableScopeDepthEntry}, Saved s es →
    s.length = es.length
  | [], [], _ => rfl
  | _ :: _, _ :: _, ⟨_, _, _, h⟩ => congrArg Nat.succ h.length_eq

theorem Saved.setMoved (x : Name) (b : Bool) : ∀ {s : Store} {es : List VariableScopeDepthEntry},
    Saved s es → Saved (setMoved x b s) es
  | [], [], h => h
  | a :: s, e :: es, ⟨hname, hmoved, hended, h⟩ => by
    by_cases hx : a.name = x ∧ a.status ≠ .ended
    · simp only [MovePaths.setMoved, if_pos hx]
      refine ⟨hname, hmoved, ?_, h⟩
      cases b <;> simp
    · simp only [MovePaths.setMoved, if_neg hx]
      by_cases ha : a.name = x
      · have hend : a.status = .ended := by
          by_contra hne
          exact hx ⟨ha, hne⟩
        have hsame : MovePaths.setMoved x b s = s := setMoved_of_none b (ha ▸ hended hend)
        rw [hsame]
        exact ⟨hname, hmoved, hended, h⟩
      · refine ⟨hname, ?_, ?_, h.setMoved x b⟩
        · rw [IsMoved, find_setMoved_ne ha]
          exact hmoved
        · rw [find_setMoved_ne ha]
          exact hended

theorem Saved.drop : ∀ {s : Store}, Saved s (new ++ es) → Saved (s.drop new.length) es := by
  induction new with
  | nil => exact id
  | cons e new ih =>
    intro s h
    cases s with
    | nil => exact h.elim
    | cons b s => exact ih h.2.2.2

theorem Saved.outer (h : Saved s (new ++ es)) : outer es.length s = s.drop new.length := by
  rw [MovePaths.outer, h.length_eq, length_append, Nat.add_sub_cancel]

theorem Saved.inner (h : Saved s (new ++ es)) : inner es.length s = s.take new.length := by
  rw [MovePaths.inner, h.length_eq, length_append, Nat.add_sub_cancel]

theorem Covers.restore : ∀ {m : MovedVariables} {s : Store}, Covers m s → Saved s (new ++ es) →
    Covers (restoreMoved new m) (s.drop new.length) := by
  induction new with
  | nil =>
    intro m s hm _
    exact hm
  | cons e new ih =>
    intro m s hm hs
    cases s with
    | nil => exact hs.elim
    | cons b s =>
      obtain ⟨hname, hmoved, -, hs⟩ := hs
      refine ih ?_ hs
      intro y hy
      by_cases hb : y = b.name
      · subst hb
        rw [hname, update_self]
        exact hmoved hy
      · rw [update_of_ne (hname ▸ hb)]
        refine hm y ?_
        have hne : ¬ b.name = y := fun e => hb e.symm
        simpa [IsMoved, find, hne] using hy

theorem Saved.hidden : ∀ {s : Store}, Saved s (new ++ es) → ∀ e ∈ new,
    (find e.varName (s.take new.length)).isSome ∨ find e.varName (s.drop new.length) = none := by
  induction new with
  | nil =>
    intro s _ e he
    cases he
  | cons e₀ new ih =>
    intro s hs e he
    cases s with
    | nil => exact hs.elim
    | cons b s =>
      obtain ⟨hname, -, hended, hs⟩ := hs
      simp only [length_cons, take_succ_cons, drop_succ_cons, find]
      by_cases hb : b.name = e.varName ∧ b.status ≠ .ended
      · rw [if_pos hb]
        exact Or.inl rfl
      · rw [if_neg hb]
        rcases List.mem_cons.1 he with rfl | he
        · have hend : b.status = .ended := by
            by_contra hne
            exact hb ⟨hname.symm, hne⟩
          have hnone := hended hend
          rw [← hname, ← take_append_drop new.length s, find_append, or_eq_none_iff] at hnone
          exact Or.inr hnone.2
        · exact ih hs e he

/-- No variable is recorded at a depth that is not open, in any of the scopes still to be left. -/
def DepthOk : List (List VariableScopeDepthEntry) → ScopeDepths → Prop
  | [], d => ∀ name n, d name = some n → n ≤ 0
  | es :: scopes, d => (∀ name n, d name = some n → n ≤ scopes.length + 1) ∧
      DepthOk scopes (restoreDepths es d)

theorem DepthOk.le : ∀ {scopes : List (List VariableScopeDepthEntry)} {d : ScopeDepths},
    DepthOk scopes d → ∀ name n, d name = some n → n ≤ scopes.length
  | [], _, h => h
  | _ :: _, _, h => h.1

variable {scopes inner : List (List VariableScopeDepthEntry)} {d : ScopeDepths}
  {scope : List VariableScopeDepthEntry}

theorem DepthOk.enter (h : DepthOk scopes d) : DepthOk ([] :: scopes) d :=
  ⟨fun name n hn => Nat.le_succ_of_le (h.le name n hn), h⟩

theorem DepthOk.record (h : DepthOk (scope :: scopes) d) (x : Name) (moved : Bool) :
    DepthOk ((⟨x, d x, moved⟩ :: scope) :: scopes) (Function.update d x (some (scopes.length + 1))) := by
  refine ⟨?_, ?_⟩
  · intro name n hn
    by_cases hx : name = x
    · subst hx
      rw [update_self] at hn
      exact Nat.le_of_eq (Option.some.inj hn).symm
    · rw [update_of_ne hx] at hn
      exact h.1 name n hn
  · rw [restoreDepths, Function.update_idem, Function.update_eq_self]
    exact h.2

theorem DepthOk.restoreVariable {e : VariableScopeDepthEntry} (h : DepthOk ((e :: scope) :: scopes) d)
    (hbound : ∀ n, e.previousDepth = some n → n ≤ scopes.length + 1) :
    DepthOk ((e :: scope) :: scopes) (Function.update d e.varName e.previousDepth) := by
  refine ⟨?_, ?_⟩
  · intro name n hn
    by_cases hx : name = e.varName
    · subst hx
      rw [update_self] at hn
      exact hbound n hn
    · rw [update_of_ne hx] at hn
      exact h.1 name n hn
  · rw [restoreDepths, Function.update_idem]
    exact h.2

theorem restoreDepths_of_not_mem (h : ∀ e ∈ es, e.varName ≠ x) (d : ScopeDepths) :
    restoreDepths es d x = d x := by
  induction es generalizing d with
  | nil => rfl
  | cons e es ih =>
    rw [restoreDepths, ih (fun e' he' => h e' (mem_cons_of_mem _ he')),
      update_of_ne (h e mem_cons_self).symm]

theorem restoreDepths_append (es es' : List VariableScopeDepthEntry) (d : ScopeDepths) :
    restoreDepths (es ++ es') d = restoreDepths es' (restoreDepths es d) := by
  induction es generalizing d with
  | nil => rfl
  | cons e es ih => exact ih _

theorem DepthOk.leave (h : DepthOk (inner ++ scopes) d) : DepthOk scopes (restoreDepths inner.flatten d) := by
  induction inner generalizing d with
  | nil => exact h
  | cons es inner ih =>
    rw [flatten_cons, restoreDepths_append]
    exact ih h.2

theorem DepthOk.le_of_not_mem (h : DepthOk (inner ++ scopes) d) (hx : ∀ e ∈ inner.flatten, e.varName ≠ x)
    {n : Nat} (hn : d x = some n) : n ≤ scopes.length := by
  refine h.leave.le x n ?_
  rw [restoreDepths_of_not_mem hx, hn]

variable {e : ExpressionNode}

theorem consumeMoveFromExpression_mono :
    ∀ {m m' : MovedVariables}, consumeMoveFromExpression e m = some m' → ∀ x, m x = true → m' x = true := by
  induction e using ExpressionNode.rec (motive_2 := fun _ => True) with
  | intLiteral _ | opaqueValue | functionCall _ _ =>
    intro m m' h x hx
    cases h
    exact hx
  | identifier name isMoveOnly =>
    intro m m' h x hx
    simp only [consumeMoveFromExpression] at h
    split at h
    · cases h
    · split at h
      · cases h
        by_cases hn : x = name
        · rw [hn, update_self]
        · rwa [update_of_ne hn]
      · cases h
        exact hx
  | addressOf name =>
    intro m m' h x hx
    simp only [consumeMoveFromExpression] at h
    split at h
    · cases h
    · cases h
      exact hx
  | binaryOp left right ihl ihr | logicalOp left right ihl ihr =>
    intro m m' h x hx
    simp only [consumeMoveFromExpression, bind_eq_bind, bind_eq_some_iff] at h
    obtain ⟨m₁, hl, hr⟩ := h
    exact ihr hr x (ihl hl x hx)
  | ternary c a b ihc iha ihb =>
    intro m m' h x hx
    simp only [consumeMoveFromExpression, bind_eq_bind, bind_eq_some_iff,
      Option.pure_def, Option.some.injEq] at h
    obtain ⟨m₁, hc, ma, ha, mb, hb, rfl⟩ := h
    simp only [MovedVariables.union, iha ha x (ihc hc x hx), Bool.true_or]
  | nil => trivial
  | cons _ _ _ _ _ => trivial

theorem validateVariableAccessible_eq {isVisible : Name → Bool} {name : Name}
    (h : validateVariableAccessible isVisible name m = some m') : m name = false ∧ m' = m := by
  unfold validateVariableAccessible at h
  split at h
  · cases h
  · next hne =>
    simp only [Bool.or_eq_true, not_or, Bool.not_eq_true] at hne
    exact ⟨hne.1, (Option.some.inj h).symm⟩

theorem consumeArguments_mono : ∀ {arguments : ArgumentListNode} {m m' : MovedVariables},
    MoveChecker.consumeArguments arguments m = some m' → ∀ x, m x = true → m' x = true
  | .nil, m, m', h, x, hx => by
    cases h
    exact hx
  | .cons shouldConsume argument arguments, m, m', h, x, hx => by
    simp only [MoveChecker.consumeArguments, bind_eq_bind, bind_eq_some_iff] at h
    obtain ⟨m₁, hc, hrest⟩ := h
    refine consumeArguments_mono hrest x ?_
    cases shouldConsume with
    | true => exact consumeMoveFromExpression_mono hc x hx
    | false =>
      cases hc
      exact hx

theorem getLValueType_eq {isVisible : Name → Bool} (h : getLValueType isVisible e m = some m') :
    m' = m := by
  cases e with
  | identifier name isMoveOnly => exact (validateVariableAccessible_eq h).2
  | _ => exact (Option.some.inj h).symm

mutual

theorem generateExpression_mono {isVisible : Name → Bool} : ∀ {e : ExpressionNode}
    {m m' : MovedVariables}, generateExpression isVisible e m = some m' → ∀ x, m x = true → m' x = true
  | .intLiteral _, m, m', h, x, hx | .opaqueValue, m, m', h, x, hx => by
    cases h
    exact hx
  | .identifier _ _, m, m', h, x, hx | .addressOf _, m, m', h, x, hx =>
    (validateVariableAccessible_eq h).2 ▸ hx
  | .functionCall arguments, m, m', h, x, hx => by
    simp only [generateExpression, bind_eq_bind, bind_eq_some_iff] at h
    obtain ⟨m₁, ha, hc⟩ := h
    exact consumeArguments_mono hc x (generateArguments_mono ha x hx)
  | .binaryOp left right, m, m', h, x, hx => by
    simp only [generateExpression, bind_eq_bind, bind_eq_some_iff] at h
    obtain ⟨m₁, hl, hr⟩ := h
    exact generateExpression_mono hr x (generateExpression_mono hl x hx)
  | .logicalOp left right, m, m', h, x, hx => by
    simp only [generateExpression, bind_eq_bind, bind_eq_some_iff, Option.pure_def, Option.some.injEq] at h
    obtain ⟨m₁, hl, m₂, hr, rfl⟩ := h
    simp only [MovedVariables.union, generateExpression_mono hl x hx, Bool.or_true]
  | .ternary c a b, m, m', h, x, hx => by
    simp only [generateExpression, bind_eq_bind, bind_eq_some_iff, Option.pure_def, Option.some.injEq] at h
    obtain ⟨_, -, ma, ha, mb, -, rfl⟩ := h
    simp only [MovedVariables.union, generateExpression_mono ha x hx, Bool.true_or]

theorem generateArguments_mono {isVisible : Name → Bool} : ∀ {arguments : ArgumentListNode}
    {m m' : MovedVariables}, generateArguments isVisible arguments m = some m' →
      ∀ x, m x = true → m' x = true
  | .nil, m, m', h, x, hx => by
    cases h
    exact hx
  | .cons _ argument arguments, m, m', h, x, hx => by
    simp only [generateArguments, bind_eq_bind, bind_eq_some_iff] at h
    obtain ⟨m₁, ha, hrest⟩ := h
    exact generateArguments_mono hrest x (generateExpression_mono ha x hx)

end

theorem generateValue_mono {isVisible : Name → Bool} (h : generateValue isVisible e m = some m') (x : Name)
    (hx : m x = true) : m' x = true := by
  simp only [generateValue, bind_eq_bind, bind_eq_some_iff] at h
  obtain ⟨m₁, hg, hc⟩ := h
  exact consumeMoveFromExpression_mono hc x (generateExpression_mono hg x hx)

end Mlang.MoveTracking
