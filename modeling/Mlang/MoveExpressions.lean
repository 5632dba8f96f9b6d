import Mlang.MoveTracking

namespace Mlang.MoveExpressions

open StructuredPaths Statements MoveChecker MovePaths MoveTracking Option List

structure Tracks (es : List VariableScopeDepthEntry) (σ : List (Name × Bool))
    (m : MovedVariables) (s : Store) : Prop where
  covers : Covers m s
  saved : Saved s es
  shape_eq : shape s = σ

variable {es : List VariableScopeDepthEntry} {σ : List (Name × Bool)}
variable {m : MovedVariables} {s : Store}

theorem Tracks.mono {m' : MovedVariables} (h : Tracks es σ m s)
    (hm : ∀ name, m name = true → m' name = true) : Tracks es σ m' s :=
  ⟨h.covers.mono hm, h.saved, h.shape_eq⟩

theorem Tracks.move (h : Tracks es σ m s) (x : Name) :
    Tracks es σ (Function.update m x true) (setMoved x true s) := by
  refine ⟨?_, h.saved.setMoved x true, (shape_setMoved x true s).trans h.shape_eq⟩
  intro y hy
  by_cases hxy : y = x
  · rw [hxy, Function.update_self]
  · rw [Function.update_of_ne hxy]
    exact h.covers y ((isMoved_setMoved_true hy).resolve_left hxy)

theorem Tracks.assign (h : Tracks es σ m s) (x : Name) :
    Tracks es σ (Function.update m x false) (setMoved x false s) := by
  refine ⟨?_, h.saved.setMoved x false, (shape_setMoved x false s).trans h.shape_eq⟩
  intro y hy
  obtain ⟨hxy, hy⟩ := isMoved_setMoved_false hy
  rw [Function.update_of_ne hxy]
  exact h.covers y hy

def Carries : ExpressionNode → List Name → Prop
  | .identifier name isMoveOnly, names => names = if isMoveOnly then [name] else []
  | .binaryOp left right, names => ∃ l r, names = l ++ r ∧ Carries left l ∧ Carries right r
  | .logicalOp left right, names =>
    Carries left names ∨ ∃ l r, names = l ++ r ∧ Carries left l ∧ Carries right r
  | .ternary _ trueExpr falseExpr, names => Carries trueExpr names ∨ Carries falseExpr names
  | _, names => names = []

theorem eq_false_of_mono {a b : Bool} (h : a = true → b = true) (hb : b = false) : a = false := by
  cases a with
  | false => rfl
  | true =>
    rw [h rfl] at hb
    cases hb

theorem moved_of_carries : ∀ {e : ExpressionNode} {names : List Name} {m m' : MovedVariables},
    Carries e names → consumeMoveFromExpression e m = some m' → ∀ y ∈ names, m' y = true
  | .intLiteral _, names, m, m', hc, _ | .opaqueValue, names, m, m', hc, _
  | .functionCall _, names, m, m', hc, _ | .addressOf _, names, m, m', hc, _ => by
    obtain rfl : names = [] := hc
    exact nofun
  | .identifier name isMoveOnly, names, m, m', hc, h => by
    intro y hy
    cases isMoveOnly with
    | true =>
      obtain rfl : names = [name] := hc
      obtain rfl := mem_singleton.1 hy
      simp only [consumeMoveFromExpression] at h
      split at h
      · cases h
      · cases h
        exact Function.update_self ..
    | false =>
      obtain rfl : names = [] := hc
      cases hy
  | .binaryOp left right, names, m, m', hc, h => by
    simp only [consumeMoveFromExpression, bind_eq_bind, bind_eq_some_iff] at h
    obtain ⟨m₁, hl, hr⟩ := h
    obtain ⟨l, r, rfl, hcl, hcr⟩ := hc
    intro y hy
    rcases mem_append.1 hy with hy | hy
    · exact consumeMoveFromExpression_mono hr y (moved_of_carries hcl hl y hy)
    · exact moved_of_carries hcr hr y hy
  | .logicalOp left right, names, m, m', hc, h => by
    simp only [consumeMoveFromExpression, bind_eq_bind, bind_eq_some_iff] at h
    obtain ⟨m₁, hl, hr⟩ := h
    intro y hy
    rcases hc with hcl | ⟨l, r, rfl, hcl, hcr⟩
    · exact consumeMoveFromExpression_mono hr y (moved_of_carries hcl hl y hy)
    · rcases mem_append.1 hy with hy | hy
      · exact consumeMoveFromExpression_mono hr y (moved_of_carries hcl hl y hy)
      · exact moved_of_carries hcr hr y hy
  | .ternary c a b, names, m, m', hc, h => by
    simp only [consumeMoveFromExpression, bind_eq_bind, bind_eq_some_iff,
      Option.pure_def, Option.some.injEq] at h
    obtain ⟨m₁, -, ma, ha, mb, hb, rfl⟩ := h
    intro y hy
    rcases hc with hc | hc
    · simp only [MovedVariables.union, moved_of_carries hc ha y hy, Bool.true_or]
    · simp only [MovedVariables.union, moved_of_carries hc hb y hy, Bool.or_true]

theorem not_moved_of_carries {isVisible : Name → Bool} : ∀ {e : ExpressionNode} {names : List Name}
    {m m' : MovedVariables}, Carries e names → generateExpression isVisible e m = some m' →
      ∀ y ∈ names, m y = false
  | .intLiteral _, names, m, m', hc, _ | .opaqueValue, names, m, m', hc, _
  | .functionCall _, names, m, m', hc, _ | .addressOf _, names, m, m', hc, _ => by
    obtain rfl : names = [] := hc
    exact nofun
  | .identifier name isMoveOnly, names, m, m', hc, h => by
    intro y hy
    cases isMoveOnly with
    | true =>
      obtain rfl : names = [name] := hc
      obtain rfl := mem_singleton.1 hy
      exact (validateVariableAccessible_eq h).1
    | false =>
      obtain rfl : names = [] := hc
      cases hy
  | .binaryOp left right, names, m, m', hc, h => by
    simp only [generateExpression, bind_eq_bind, bind_eq_some_iff] at h
    obtain ⟨m₁, hl, hr⟩ := h
    obtain ⟨l, r, rfl, hcl, hcr⟩ := hc
    intro y hy
    rcases mem_append.1 hy with hy | hy
    · exact not_moved_of_carries hcl hl y hy
    · exact eq_false_of_mono (generateExpression_mono hl y) (not_moved_of_carries hcr hr y hy)
  | .logicalOp left right, names, m, m', hc, h => by
    simp only [generateExpression, bind_eq_bind, bind_eq_some_iff, Option.pure_def, Option.some.injEq] at h
    obtain ⟨m₁, hl, m₂, hr, -⟩ := h
    intro y hy
    rcases hc with hcl | ⟨l, r, rfl, hcl, hcr⟩
    · exact not_moved_of_carries hcl hl y hy
    · rcases mem_append.1 hy with hy | hy
      · exact not_moved_of_carries hcl hl y hy
      · exact eq_false_of_mono (generateExpression_mono hl y) (not_moved_of_carries hcr hr y hy)
  | .ternary c a b, names, m, m', hc, h => by
    simp only [generateExpression, bind_eq_bind, bind_eq_some_iff, Option.pure_def, Option.some.injEq] at h
    obtain ⟨_, -, ma, ha, mb, hb, -⟩ := h
    intro y hy
    rcases hc with hc | hc
    · exact not_moved_of_carries hc ha y hy
    · exact not_moved_of_carries hc hb y hy

theorem consume_append (names names' : List Name) :
    consume (names ++ names') = (do consume names; consume names' : Paths Store Unit) := by
  induction names with
  | nil => exact (Paths.pure_bind () fun _ => consume names').symm
  | cons name names ih =>
    rw [cons_append, consume, consume, ih, Paths.bind_assoc]

variable {x : Name}

theorem moveLocal_sound (h : m x = false) :
    Meets (Tracks es σ m) (moveLocal x) (Post.only fun s _ => Tracks es σ (Function.update m x true) s) := by
  apply Meets.attempt
  intro s hs
  have hx : ¬ IsMoved s x := by
    intro hmoved
    rw [hs.covers x hmoved] at h
    cases h
  exact ⟨_, if_neg hx, hs.move x⟩

theorem useLocal_sound (h : m x = false) :
    Meets (Tracks es σ m) (useLocal x) (Post.only fun s _ => Tracks es σ m s) := by
  apply Meets.attempt
  intro s hs
  have hx : ¬ IsMoved s x := by
    intro hmoved
    rw [hs.covers x hmoved] at h
    cases h
  exact ⟨s, if_neg hx, hs⟩

theorem consume_sound : ∀ {e : ExpressionNode} {names : List Name} {m m' : MovedVariables},
    Carries e names → consumeMoveFromExpression e m = some m' →
      Meets (Tracks es σ m) (consume names) (Post.only fun s _ => Tracks es σ m' s)
  | .intLiteral _, names, m, m', hc, h | .opaqueValue, names, m, m', hc, h
  | .functionCall _, names, m, m', hc, h => by
    cases h
    obtain rfl : names = [] := hc
    exact Meets.pure fun s hs => hs
  | .addressOf name, names, m, m', hc, h => by
    simp only [consumeMoveFromExpression] at h
    split at h
    · cases h
    · cases h
      obtain rfl : names = [] := hc
      exact Meets.pure fun s hs => hs
  | .identifier name isMoveOnly, names, m, m', hc, h => by
    simp only [consumeMoveFromExpression] at h
    split at h
    · cases h
    · next hname =>
      have hfree : m name = false := Bool.eq_false_iff.2 hname
      cases isMoveOnly with
      | true =>
        cases h
        obtain rfl : names = [name] := hc
        apply Meets.seq (moveLocal_sound hfree)
        intro _
        exact Meets.pure fun s hs => hs
      | false =>
        cases h
        obtain rfl : names = [] := hc
        exact Meets.pure fun s hs => hs
  | .binaryOp left right, names, m, m', hc, h => by
    simp only [consumeMoveFromExpression, bind_eq_bind, bind_eq_some_iff] at h
    obtain ⟨m₁, hl, hr⟩ := h
    obtain ⟨l, r, rfl, hcl, hcr⟩ := hc
    rw [consume_append]
    apply Meets.seq (consume_sound hcl hl)
    intro _
    exact consume_sound hcr hr
  | .logicalOp left right, names, m, m', hc, h => by
    simp only [consumeMoveFromExpression, bind_eq_bind, bind_eq_some_iff] at h
    obtain ⟨m₁, hl, hr⟩ := h
    rcases hc with hcl | ⟨l, r, rfl, hcl, hcr⟩
    · exact (consume_sound hcl hl).only (fun _ => id)
        fun s _ hs => hs.mono (consumeMoveFromExpression_mono hr)
    · rw [consume_append]
      apply Meets.seq (consume_sound hcl hl)
      intro _
      exact consume_sound hcr hr
  | .ternary c a b, names, m, m', hc, h => by
    simp only [consumeMoveFromExpression, bind_eq_bind, bind_eq_some_iff,
      Option.pure_def, Option.some.injEq] at h
    obtain ⟨m₁, hcond, ma, ha, mb, hb, rfl⟩ := h
    have hm := consumeMoveFromExpression_mono hcond
    rcases hc with hc | hc
    · refine (consume_sound hc ha).only (fun s hs => hs.mono hm) fun s _ hs => hs.mono ?_
      intro x hx
      simp only [MovedVariables.union, hx, Bool.true_or]
    · refine (consume_sound hc hb).only (fun s hs => hs.mono hm) fun s _ hs => hs.mono ?_
      intro x hx
      simp only [MovedVariables.union, hx, Bool.or_true]

def CarriesAll : ArgumentListNode → List (List Name) → Prop
  | .nil, _ => True
  | .cons _ argument arguments, names :: values =>
    Carries argument names ∧ CarriesAll arguments values
  | .cons _ _ _, [] => False

theorem consumeArguments_sound : ∀ {arguments : ArgumentListNode} {values : List (List Name)}
    {m m' : MovedVariables}, CarriesAll arguments values →
      MoveChecker.consumeArguments arguments m = some m' →
      Meets (Tracks es σ m) (MovePaths.consumeArguments arguments values)
        (Post.only fun s _ => Tracks es σ m' s)
  | .nil, values, m, m', hc, h => by
    cases h
    exact Meets.pure fun s hs => hs
  | .cons shouldConsume argument arguments, names :: values, m, m', hc, h => by
    simp only [MoveChecker.consumeArguments, bind_eq_bind, bind_eq_some_iff] at h
    obtain ⟨m₁, ha, hrest⟩ := h
    have hargument : Meets (Tracks es σ m) (consumeWhere shouldConsume names)
        (Post.only fun s _ => Tracks es σ m₁ s) := by
      cases shouldConsume with
      | true => exact consume_sound hc.1 ha
      | false =>
        cases ha
        exact Meets.pure fun s hs => hs
    apply Meets.seq hargument
    intro _
    exact consumeArguments_sound hc.2 hrest

variable {isVisible : Name → Bool}

theorem undisturbed_sound {α : Type} {P : Store → Prop} {p : Paths Store α}
    {R : Store → α → Prop} (h : Meets P p (Post.only R)) :
    Meets P (undisturbed true p) (Post.only fun s _ => P s) := by
  apply Meets.getThen
  intro s hs
  have hp : Meets (fun t => t = s) p (Post.only fun _ _ => True) := by
    refine h.only ?_ fun _ _ _ => trivial
    rintro t rfl
    exact hs
  apply Meets.seq hp
  intro _
  refine Meets.require fun t _ hsame => ?_
  exact hsame rfl ▸ hs

mutual

theorem evaluate_sound : ∀ {e : ExpressionNode} {m m' : MovedVariables},
    generateExpression isVisible e m = some m' →
      Meets (Tracks es σ m) (evaluate true e)
        (Post.only fun s names => Tracks es σ m' s ∧ Carries e names)
  | .intLiteral _, m, m', h | .opaqueValue, m, m', h => by
    cases h
    exact Meets.pure fun s hs => ⟨hs, rfl⟩
  | .identifier _ _, m, m', h | .addressOf _, m, m', h => by
    obtain ⟨hname, rfl⟩ := validateVariableAccessible_eq h
    apply Meets.seq (useLocal_sound hname)
    intro _
    exact Meets.pure fun s hs => ⟨hs, rfl⟩
  | .functionCall arguments, m, m', h => by
    simp only [generateExpression, bind_eq_bind, bind_eq_some_iff] at h
    obtain ⟨m₁, ha, hc⟩ := h
    apply Meets.seq (evaluateArguments_sound ha)
    rintro values s ⟨hs, hvalues⟩
    refine Meets.seq (consumeArguments_sound hvalues hc) ?_ s hs
    intro _
    exact Meets.pure fun t ht => ⟨ht, rfl⟩
  | .binaryOp left right, m, m', h => by
    simp only [generateExpression, bind_eq_bind, bind_eq_some_iff] at h
    obtain ⟨m₁, hl, hr⟩ := h
    apply Meets.seq (evaluate_sound hl)
    intro l s hs
    have hright : Meets (fun t => t = s) (evaluate true right)
        (Post.only fun t r => Tracks es σ m' t ∧ Carries right r) := by
      refine (evaluate_sound hr).only ?_ fun _ _ => id
      rintro t rfl
      exact hs.1
    refine Meets.seq hright ?_ s rfl
    intro r
    exact Meets.pure fun t ht => ⟨ht.1, l, r, rfl, hs.2, ht.2⟩
  | .logicalOp left right, m, m', h => by
    simp only [generateExpression, bind_eq_bind, bind_eq_some_iff, Option.pure_def, Option.some.injEq] at h
    obtain ⟨m₁, hl, m₂, hr, rfl⟩ := h
    apply Meets.seq (evaluate_sound hl)
    intro l
    apply Meets.choose
    · refine Meets.pure fun s hs => ⟨hs.1.mono fun x hx => ?_, Or.inl hs.2⟩
      simp only [MovedVariables.union, hx, Bool.or_true]
    · intro s hs
      have hright : Meets (fun t => t = s) (evaluate true right)
          (Post.only fun t r => Tracks es σ m₂ t ∧ Carries right r) := by
        refine (evaluate_sound hr).only ?_ fun _ _ => id
        rintro t rfl
        exact hs.1
      refine Meets.seq hright ?_ s rfl
      intro r
      refine Meets.pure fun t ht => ⟨ht.1.mono fun x hx => ?_, Or.inr ⟨l, r, rfl, hs.2, ht.2⟩⟩
      simp only [MovedVariables.union, hx, Bool.true_or]
  | .ternary c a b, m, m', h => by
    simp only [generateExpression, bind_eq_bind, bind_eq_some_iff, Option.pure_def, Option.some.injEq] at h
    obtain ⟨mc, hcond, ma, ha, mb, hb, rfl⟩ := h
    apply Meets.seq (undisturbed_sound (evaluate_sound hcond))
    intro _
    apply Meets.choose
    · refine (evaluate_sound ha).only (fun _ => id) fun s names hs => ⟨hs.1.mono fun x hx => ?_, Or.inl hs.2⟩
      simp only [MovedVariables.union, hx, Bool.true_or]
    · refine (evaluate_sound hb).only (fun _ => id) fun s names hs => ⟨hs.1.mono fun x hx => ?_, Or.inr hs.2⟩
      simp only [MovedVariables.union, hx, Bool.or_true]

theorem evaluateArguments_sound : ∀ {arguments : ArgumentListNode} {m m' : MovedVariables},
    generateArguments isVisible arguments m = some m' →
      Meets (Tracks es σ m) (evaluateArguments true arguments)
        (Post.only fun s values => Tracks es σ m' s ∧ CarriesAll arguments values)
  | .nil, m, m', h => by
    cases h
    exact Meets.pure fun s hs => ⟨hs, trivial⟩
  | .cons _ argument arguments, m, m', h => by
    simp only [generateArguments, bind_eq_bind, bind_eq_some_iff] at h
    obtain ⟨m₁, ha, hrest⟩ := h
    apply Meets.seq (evaluate_sound ha)
    rintro names s ⟨hs, hnames⟩
    refine Meets.seq (evaluateArguments_sound hrest) ?_ s hs
    intro values
    exact Meets.pure fun t ht => ⟨ht.1, hnames, ht.2⟩

end

end Mlang.MoveExpressions
