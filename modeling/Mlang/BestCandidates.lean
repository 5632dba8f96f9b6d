import Mlang.DisjunctiveTerms
import Mathlib.Data.Set.Finite.List

namespace Mlang.BestCandidates

open DisjunctiveTerms (undominated)
open List

/-! The best of some candidates: those of least cost, and among these the ones that no other of
them is better than. -/

variable {β : Type} (cost : β → Option Nat) (better : β → β → Bool)

section Cheapest

structure Selection (β : Type) where
  bestCost : Option Nat
  equallyGood : List β

def consider (selection : Selection β) (x : β) : Selection β :=
  match cost x with
  | none => selection
  | some c =>
    match selection.bestCost with
    | none => ⟨some c, [x]⟩
    | some best =>
      if c < best then ⟨some c, [x]⟩
      else if c = best then ⟨some best, selection.equallyGood ++ [x]⟩
      else selection

def cheapest (xs : List β) : Selection β := xs.foldl (consider cost) ⟨none, []⟩

/-- After some candidates: the selection has those of least cost. -/
structure HasLeast (seen : List β) (selection : Selection β) : Prop where
  least : ∀ x ∈ seen, ∀ c, cost x = some c → ∃ best, selection.bestCost = some best ∧ best ≤ c
  taken : ∀ best, selection.bestCost = some best → ∃ x ∈ seen, cost x = some best
  equallyGood : selection.equallyGood =
    seen.filter fun x => (cost x).isSome && cost x == selection.bestCost

variable {cost}
variable {seen : List β} {selection : Selection β}

theorem HasLeast.consider (h : HasLeast cost seen selection) (x : β) :
    HasLeast cost (seen ++ [x]) (consider cost selection x) := by
  unfold BestCandidates.consider
  cases hc : cost x with
  | none =>
    refine ⟨?_, fun best hbest => ?_, ?_⟩
    · intro y hy c hcost
      rcases mem_append.1 hy with hy | hy
      · exact h.least y hy c hcost
      · obtain rfl := mem_singleton.1 hy
        exact nomatch hc.symm.trans hcost
    · obtain ⟨y, hy, hcost⟩ := h.taken best hbest
      exact ⟨y, mem_append_left _ hy, hcost⟩
    · simp [h.equallyGood, filter_append, hc]
  | some c =>
    cases hb : selection.bestCost with
    | none =>
      have hnone : ∀ y ∈ seen, cost y = none := by
        intro y hy
        cases hcost : cost y with
        | none => rfl
        | some d =>
          obtain ⟨best, hbest, -⟩ := h.least y hy d hcost
          exact nomatch hb.symm.trans hbest
      refine ⟨?_, fun best hbest => ?_, ?_⟩
      · intro y hy d hcost
        rcases mem_append.1 hy with hy | hy
        · exact nomatch (hnone y hy).symm.trans hcost
        · obtain rfl := mem_singleton.1 hy
          obtain rfl := Option.some.inj (hc.symm.trans hcost)
          exact ⟨c, rfl, Nat.le_refl c⟩
      · cases hbest
        exact ⟨x, mem_append_right _ mem_cons_self, hc⟩
      · have hfilter : (seen.filter fun y => (cost y).isSome && cost y == some c) = [] := by
          rw [filter_eq_nil_iff]
          intro y hy
          simp [hnone y hy]
        simp [filter_append, hfilter, hc]
    | some best =>
      dsimp only
      by_cases hlt : c < best
      · rw [if_pos hlt]
        refine ⟨?_, fun b hbest => ?_, ?_⟩
        · intro y hy d hcost
          rcases mem_append.1 hy with hy | hy
          · obtain ⟨b, hb', hle⟩ := h.least y hy d hcost
            obtain rfl := Option.some.inj (hb.symm.trans hb')
            exact ⟨c, rfl, by omega⟩
          · obtain rfl := mem_singleton.1 hy
            obtain rfl := Option.some.inj (hc.symm.trans hcost)
            exact ⟨c, rfl, Nat.le_refl c⟩
        · cases hbest
          exact ⟨x, mem_append_right _ mem_cons_self, hc⟩
        · have hfilter : (seen.filter fun y => (cost y).isSome && cost y == some c) = [] := by
            rw [filter_eq_nil_iff]
            intro y hy hy'
            simp only [Bool.and_eq_true, beq_iff_eq] at hy'
            obtain ⟨b, hb', hle⟩ := h.least y hy c hy'.2
            obtain rfl := Option.some.inj (hb.symm.trans hb')
            omega
          simp [filter_append, hfilter, hc]
      · rw [if_neg hlt]
        have hold : ∀ y ∈ seen ++ [x], ∀ d, cost y = some d →
            ∃ b, some best = some b ∧ b ≤ d := by
          intro y hy d hcost
          rcases mem_append.1 hy with hy | hy
          · rw [← hb]
            exact h.least y hy d hcost
          · obtain rfl := mem_singleton.1 hy
            obtain rfl := Option.some.inj (hc.symm.trans hcost)
            exact ⟨best, rfl, by omega⟩
        have htaken : ∀ b, some best = some b → ∃ y ∈ seen ++ [x], cost y = some b := by
          intro b hbest
          obtain ⟨y, hy, hcost⟩ := h.taken b (hb.trans hbest)
          exact ⟨y, mem_append_left _ hy, hcost⟩
        have hgood := h.equallyGood
        rw [hb] at hgood
        by_cases heq : c = best
        · subst heq
          rw [if_pos rfl]
          exact ⟨hold, htaken, by simp [filter_append, hgood, hc]⟩
        · rw [if_neg heq]
          refine ⟨hb ▸ hold, hb ▸ htaken, ?_⟩
          rw [hb]
          simp [filter_append, hgood, hc, heq]

theorem HasLeast.foldl (h : HasLeast cost seen selection) (xs : List β) :
    HasLeast cost (seen ++ xs) (xs.foldl (BestCandidates.consider cost) selection) := by
  induction xs generalizing seen selection with
  | nil => simpa using h
  | cons x xs ih => simpa using ih (h.consider x)

theorem cheapest_hasLeast (xs : List β) : HasLeast cost xs (cheapest cost xs) :=
  @HasLeast.foldl _ _ [] ⟨none, []⟩ ⟨fun _ hx => (nomatch hx), fun _ h => (nomatch h), rfl⟩ xs

end Cheapest

def beats (x y : β) : Bool :=
  match cost x, cost y with
  | some c, some d => c < d || (c == d && better x y)
  | _, _ => false

def best (xs : List β) : List β := undominated better (cheapest cost xs).equallyGood

variable {cost better}
variable {x : β} {xs : List β}

theorem beats_iff {y : β} : beats cost better x y = true ↔ ∃ c d, cost x = some c ∧ cost y = some d ∧
    (c < d ∨ (c = d ∧ better x y = true)) := by
  unfold beats
  cases cost x <;> cases cost y <;> simp

theorem best_eq_filter (xs : List β) : best cost better xs =
    xs.filter fun x => (cost x).isSome && !xs.any fun y => beats cost better y x := by
  have h := @cheapest_hasLeast _ cost xs
  unfold best undominated
  rw [h.equallyGood, filter_filter]
  apply filter_congr
  intro x hx
  rw [Bool.eq_iff_iff]
  simp only [Bool.and_eq_true, Bool.not_eq_true', any_eq_false, mem_filter, beq_iff_eq,
    Option.isSome_iff_exists, beats_iff]
  constructor
  · rintro ⟨hno, ⟨c, hc⟩, hbest⟩
    refine ⟨⟨c, hc⟩, ?_⟩
    rintro y hy ⟨d, e, hd, he, hlt | ⟨rfl, hbetter⟩⟩
    · obtain rfl := Option.some.inj (hc.symm.trans he)
      obtain ⟨b, hb, hle⟩ := h.least y hy d hd
      obtain rfl := Option.some.inj (hc.symm.trans (hbest.trans hb))
      omega
    · exact hno y ⟨hy, ⟨d, hd⟩, hd.trans (he.symm.trans hbest)⟩ hbetter
  · rintro ⟨⟨c, hc⟩, hno⟩
    obtain ⟨b, hb, hle⟩ := h.least x hx c hc
    obtain ⟨z, hz, hcost⟩ := h.taken b hb
    have hcb : c = b := by
      by_contra hne
      exact hno z hz ⟨b, c, hcost, hc, .inl (by omega)⟩
    subst hcb
    refine ⟨?_, ⟨c, hc⟩, hc.trans hb.symm⟩
    rintro y ⟨hy, ⟨d, hd⟩, hdb⟩ hbetter
    obtain rfl := Option.some.inj (hd.symm.trans (hdb.trans hb))
    exact hno y hy ⟨d, d, hd, hc, .inr ⟨rfl, hbetter⟩⟩

theorem mem_best : x ∈ best cost better xs ↔ x ∈ xs ∧ (cost x).isSome = true ∧ ∀ y ∈ xs,
    beats cost better y x = false := by
  simp [best_eq_filter, mem_filter]

theorem eq_singleton_of_nodup (hnodup : xs.Nodup) (hx : x ∈ xs) (honly : ∀ y ∈ xs, y = x) : xs = [x] := by
  rw [eq_replicate_of_mem honly] at hnodup hx ⊢
  have hle := nodup_replicate.1 hnodup
  have hne := (mem_replicate.1 hx).1
  rw [show xs.length = 1 by omega]
  rfl

theorem best_perm {ys : List β} (h : xs.Perm ys) : (best cost better xs).Perm (best cost better ys) := by
  rw [best_eq_filter, best_eq_filter]
  simp only [h.any_eq]
  exact h.filter _

variable (hirrefl : ∀ x, better x x = false)
  (htrans : ∀ x y z, better x y = true → better y z = true → better x z = true)

include hirrefl in
theorem beats_irrefl (x : β) : beats cost better x x = false := by
  rw [← Bool.not_eq_true, beats_iff]
  rintro ⟨c, d, hc, hd, hlt | ⟨-, hbetter⟩⟩
  · obtain rfl := Option.some.inj (hc.symm.trans hd)
    omega
  · rw [hirrefl] at hbetter
    cases hbetter

include htrans in
theorem beats_trans {x y z : β} (h : beats cost better x y = true)
    (h' : beats cost better y z = true) : beats cost better x z = true := by
  rw [beats_iff] at h h' ⊢
  obtain ⟨c, d, hc, hd, h⟩ := h
  obtain ⟨d', e, hd', he, h'⟩ := h'
  obtain rfl := Option.some.inj (hd.symm.trans hd')
  refine ⟨c, e, hc, he, ?_⟩
  rcases h with h | ⟨rfl, h⟩
  · rcases h' with h' | ⟨rfl, -⟩
    · exact .inl (by omega)
    · exact .inl h
  · rcases h' with h' | ⟨rfl, h'⟩
    · exact .inl h'
    · exact .inr ⟨rfl, htrans _ _ _ h h'⟩

include hirrefl htrans in
theorem exists_best_beats {xs : List β} {x : β} (hx : x ∈ xs) (hcost : (cost x).isSome = true)
    (hnot : x ∉ best cost better xs) : ∃ y ∈ best cost better xs, beats cost better y x = true := by
  have hwf : WellFounded fun a b : {y // y ∈ xs} => beats cost better a.1 b.1 = true := by
    have : Finite {y // y ∈ xs} := xs.finite_toSet
    have : IsTrans {y // y ∈ xs} fun a b => beats cost better a.1 b.1 = true :=
      ⟨fun _ _ _ h h' => beats_trans htrans h h'⟩
    have : Std.Irrefl fun a b : {y // y ∈ xs} => beats cost better a.1 b.1 = true :=
      ⟨fun a h => by rw [beats_irrefl hirrefl] at h; cases h⟩
    exact Finite.wellFounded_of_trans_of_irrefl _
  have hbeaten : ∃ y ∈ xs, beats cost better y x = true := by
    by_contra hall
    simp only [not_exists, not_and, Bool.not_eq_true] at hall
    exact hnot (mem_best.2 ⟨hx, hcost, hall⟩)
  obtain ⟨y, hy, hyx⟩ := hbeaten
  obtain ⟨m, hm, hmin⟩ := hwf.has_min {a | beats cost better a.1 x = true} ⟨⟨y, hy⟩, hyx⟩
  refine ⟨m.1, mem_best.2 ⟨m.2, ?_, fun z hz => ?_⟩, hm⟩
  · obtain ⟨c, -, hc, -⟩ := beats_iff.1 hm
    rw [hc]
    rfl
  · rw [← Bool.not_eq_true]
    exact fun hzm => hmin ⟨z, hz⟩ (beats_trans htrans hzm hm) hzm

end Mlang.BestCandidates
