import Mathlib.Logic.Function.Basic

namespace Mlang.ObservedRuns

/-! Systems that answer each action, and two of them that cannot be told apart. -/

universe u

variable {A : Type u} {S T O : Type}

def runs (step : A → S → S × O) : List A → S → S × List O
  | [], s => (s, [])
  | a :: actions, s =>
    let r := step a s
    let rest := runs step actions r.1
    (rest.1, r.2 :: rest.2)

structure Agrees (R : S → T → Prop) (r : S × O) (r' : T × O) : Prop where
  related : R r.1 r'.1
  answer : r.2 = r'.2

theorem runs_agree {step : A → S → S × O} {spec : A → T → T × O} {R : S → T → Prop}
    (hstep : ∀ a s t, R s t → Agrees R (step a s) (spec a t)) {s : S} {t : T} (hst : R s t)
    (actions : List A) : Agrees R (runs step actions s) (runs spec actions t) := by
  induction actions generalizing s t with
  | nil => exact ⟨hst, rfl⟩
  | cons a actions ih =>
    have hone := hstep a s t hst
    have hrest := ih hone.related
    exact ⟨hrest.related, congrArg₂ List.cons hone.answer hrest.answer⟩

variable {I C D : Type} [DecidableEq I]

inductive Action (I : Type) (Op : Type u) : Type u
  | on (i : I) (op : Op)
  | both (i j : I) (hne : i ≠ j)

variable (one : C → A → C × O) (two : C → C → C × C × O)

def familyStep : Action I A → (I → C) → (I → C) × O
  | .on i op, s =>
    let r := one (s i) op
    (Function.update s i r.1, r.2)
  | .both i j _, s =>
    let r := two (s i) (s j)
    (Function.update (Function.update s i r.1) j r.2.1, r.2.2)

variable {one two} {specOne : D → A → D × O} {specTwo : D → D → D × D × O} {R : C → D → Prop}

theorem familyStep_agrees (hone : ∀ op c d, R c d → Agrees R (one c op) (specOne d op))
    (htwo : ∀ c c' d d', R c d → R c' d' → R (two c c').1 (specTwo d d').1 ∧
      R (two c c').2.1 (specTwo d d').2.1 ∧ (two c c').2.2 = (specTwo d d').2.2)
    (a : Action I A) (s : I → C) (t : I → D) (hst : ∀ i, R (s i) (t i)) :
    Agrees (fun s t => ∀ i, R (s i) (t i)) (familyStep one two a s) (familyStep specOne specTwo a t) := by
  cases a with
  | on i op =>
    have hagrees := hone op _ _ (hst i)
    refine ⟨fun k => ?_, hagrees.answer⟩
    by_cases hk : k = i
    · subst hk
      simpa only [familyStep, Function.update_self] using hagrees.related
    · simpa only [familyStep, Function.update_of_ne hk] using hst k
  | both i j hne =>
    obtain ⟨hi, hj, hanswer⟩ := htwo _ _ _ _ (hst i) (hst j)
    refine ⟨fun k => ?_, hanswer⟩
    by_cases hkj : k = j
    · subst hkj
      simpa only [familyStep, Function.update_self] using hj
    · by_cases hki : k = i
      · subst hki
        simpa only [familyStep, Function.update_of_ne hkj, Function.update_self] using hi
      · simpa only [familyStep, Function.update_of_ne hkj, Function.update_of_ne hki] using hst k

end Mlang.ObservedRuns
