import Mathlib.Data.Option.Basic

namespace Mlang.Transitions

/-! Systems that take one step for each action, and what holds along their runs. -/

variable {S A : Type} (step : A → S → Option S)

def run : List A → S → Option S
  | [], s => some s
  | a :: actions, s => (step a s).bind (run actions)

inductive Reached (meets : A → S → Prop) (start : S) : S → Prop
  | start : Reached meets start start
  | step {s s' : S} {a : A} (hs : Reached meets start s) (hmeets : meets a s)
      (hstep : step a s = some s') : Reached meets start s'

abbrev Reachable (start s : S) : Prop := Reached step (fun _ _ => True) start s

def Along (P : A → S → Prop) : S → List A → Prop
  | _, [] => True
  | s, a :: actions => P a s ∧ ∀ s', step a s = some s' → Along P s' actions

variable {step} {meets : A → S → Prop} {start s s' : S} {actions : List A}

theorem Reached.invariant {P : S → Prop} (h : Reached step meets start s) (hstart : P start)
    (hstep : ∀ a s s', P s → meets a s → step a s = some s' → P s') : P s := by
  induction h with
  | start => exact hstart
  | step _ hmeets hs ih => exact hstep _ _ _ ih hmeets hs

theorem Reached.trans (h : Reached step meets start s) (h' : Reached step meets s s') :
    Reached step meets start s' := by
  induction h' with
  | start => exact h
  | step _ hmeets hs ih => exact .step ih hmeets hs

theorem reached_of_run (h : run step actions start = some s)
    (hmeets : ∀ a ∈ actions, ∀ s, meets a s) : Reached step meets start s := by
  induction actions generalizing start with
  | nil =>
    cases h
    exact .start
  | cons a actions ih =>
    obtain ⟨next, hnext, h⟩ := Option.bind_eq_some_iff.1 h
    obtain ⟨ha, hmeets⟩ := List.forall_mem_cons.1 hmeets
    exact (Reached.step .start (ha start) hnext).trans (ih h hmeets)

theorem reachable_of_run (h : run step actions start = some s) : Reachable step start s :=
  reached_of_run h fun _ _ _ => trivial

instance decidableAlong {P : A → S → Prop} [∀ a s, Decidable (P a s)] :
    (start : S) → (actions : List A) → Decidable (Along step P start actions)
  | _, [] => .isTrue trivial
  | s, a :: actions =>
    match hnext : step a s with
    | none =>
      decidable_of_iff (P a s) ⟨fun hP => ⟨hP, fun _ hs' => nomatch hnext.symm.trans hs'⟩, And.left⟩
    | some next =>
      have := decidableAlong (P := P) next actions
      decidable_of_iff (P a s ∧ Along step P next actions)
        ⟨fun h => ⟨h.1, fun _ hs' => Option.some.inj (hnext.symm.trans hs') ▸ h.2⟩,
          fun h => ⟨h.1, h.2 next hnext⟩⟩

theorem along_iff {P Q : A → S → Prop} {I : S → Prop} (hiff : ∀ a s, I s → (P a s ↔ Q a s))
    (hstep : ∀ a s s', I s → Q a s → step a s = some s' → I s') (hs : I s) :
    Along step P s actions ↔ Along step Q s actions := by
  induction actions generalizing s with
  | nil => exact Iff.rfl
  | cons a actions ih =>
    constructor
    · rintro ⟨hP, hrest⟩
      have hQ := (hiff a s hs).1 hP
      exact ⟨hQ, fun s' hs' => (ih (hstep a s s' hs hQ hs')).1 (hrest s' hs')⟩
    · rintro ⟨hQ, hrest⟩
      exact ⟨(hiff a s hs).2 hQ, fun s' hs' => (ih (hstep a s s' hs hQ hs')).2 (hrest s' hs')⟩

theorem along_at {P : A → S → Prop} {a : A} (halong : Along step P start (actions ++ [a]))
    (h : run step actions start = some s) : P a s := by
  induction actions generalizing start with
  | nil =>
    cases h
    exact halong.1
  | cons b actions ih =>
    obtain ⟨next, hnext, h⟩ := Option.bind_eq_some_iff.1 h
    exact ih (halong.2 next hnext) h

theorem invariant_of_along {Q : A → S → Prop} {I : S → Prop}
    (hstep : ∀ a s s', I s → Q a s → step a s = some s' → I s') (hstart : I start)
    (halong : Along step Q start actions) (h : run step actions start = some s) : I s := by
  induction actions generalizing start with
  | nil =>
    cases h
    exact hstart
  | cons a actions ih =>
    obtain ⟨next, hnext, h⟩ := Option.bind_eq_some_iff.1 h
    exact ih (hstep a _ _ hstart halong.1 hnext) (halong.2 next hnext) h

end Mlang.Transitions
