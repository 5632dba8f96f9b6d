import Mathlib

namespace Mlang.Worklists

open List

/-! A loop that takes nodes from the end of a list, and puts the members of each node there when it
takes the node for the first time. -/

section Loops

variable {N : Type} [DecidableEq N] (ignored : N → Prop) [DecidablePred ignored] (members : N → List N)

/-- The nodes that were taken once none is pending; the number bounds the rounds. -/
def drain : Nat → List N → List N → Option (List N)
  | 0, _, _ => none
  | rounds + 1, pending, taken =>
    match pending.getLast? with
    | none => some taken
    | some n =>
      if ignored n ∨ n ∈ taken then drain rounds pending.dropLast taken
      else drain rounds (pending.dropLast ++ members n) (n :: taken)

structure Closed (seeds : List N) (S : Set N) : Prop where
  starts : ∀ n ∈ seeds, ¬ ignored n → n ∈ S
  follows : ∀ n ∈ S, ∀ m ∈ members n, ¬ ignored m → m ∈ S

def weight (nodes taken : List N) : Nat :=
  ((nodes.filter (· ∉ taken)).map fun n => (members n).length).sum

end Loops

section Weights

variable {N : Type} [DecidableEq N] {members : N → List N} {nodes taken : List N} {n : N}

theorem weight_nil : weight members nodes [] = (nodes.map fun n => (members n).length).sum := by
  simp [weight]

theorem weight_cons_le : weight members nodes (n :: taken) ≤ weight members nodes taken := by
  induction nodes with
  | nil => exact le_rfl
  | cons k nodes ih =>
    simp only [weight, filter_cons, mem_cons, not_or, decide_eq_true_eq] at ih ⊢
    by_cases hk : k ∈ taken
    · simpa only [hk, not_true_eq_false, and_false, if_false] using ih
    · by_cases hn : k = n
      · subst hn
        simp only [hk, not_true_eq_false, false_and, if_false, not_false_eq_true, if_true,
          map_cons, sum_cons]
        exact Nat.le_add_left_of_le ih
      · simp only [hk, hn, not_false_eq_true, and_self, if_true, map_cons, sum_cons]
        exact Nat.add_le_add_left ih _

theorem weight_take (hmem : n ∈ nodes) (hnew : n ∉ taken) :
    weight members nodes (n :: taken) + (members n).length ≤ weight members nodes taken := by
  induction nodes with
  | nil => exact absurd hmem not_mem_nil
  | cons k nodes ih =>
    have hmono := @weight_cons_le N _ members nodes taken n
    simp only [weight, filter_cons, mem_cons, not_or, decide_eq_true_eq] at ih hmono ⊢
    by_cases hn : k = n
    · subst hn
      simp only [hnew, not_true_eq_false, false_and, if_false, not_false_eq_true, if_true,
        map_cons, sum_cons]
      omega
    · have ih := ih ((mem_cons.1 hmem).resolve_left (Ne.symm hn))
      by_cases hk : k ∈ taken
      · simpa only [hk, not_true_eq_false, and_false, if_false] using ih
      · simp only [hk, hn, not_false_eq_true, and_self, if_true, map_cons, sum_cons]
        omega

end Weights

variable {N : Type} [DecidableEq N] {ignored : N → Prop} [DecidablePred ignored] {members : N → List N}
  {seeds pending taken : List N} {n : N}

structure Draining (ignored : N → Prop) (members : N → List N) (seeds pending taken : List N) : Prop where
  nodup : taken.Nodup
  starts : ∀ n ∈ seeds, ¬ ignored n → n ∈ taken ∨ n ∈ pending
  follows : ∀ n ∈ taken, ∀ m ∈ members n, ¬ ignored m → m ∈ taken ∨ m ∈ pending
  least : ∀ S, Closed ignored members seeds S →
    (∀ n ∈ taken, n ∈ S) ∧ ∀ n ∈ pending, ¬ ignored n → n ∈ S

omit [DecidableEq N] [DecidablePred ignored] in
theorem draining_start : Draining ignored members seeds seeds [] where
  nodup := nodup_nil
  starts := fun _ hn _ => .inr hn
  follows := forall_mem_nil _
  least := fun _ hclosed => ⟨forall_mem_nil _, hclosed.starts⟩

omit [DecidableEq N] [DecidablePred ignored] in
theorem Draining.skip (h : Draining ignored members seeds (pending ++ [n]) taken)
    (hskip : ignored n ∨ n ∈ taken) : Draining ignored members seeds pending taken := by
  have hmoved : ∀ m, ¬ ignored m → m ∈ taken ∨ m ∈ pending ++ [n] → m ∈ taken ∨ m ∈ pending := by
    rintro m hm (htaken | hpending)
    · exact .inl htaken
    · rcases mem_append.1 hpending with hpending | hlast
      · exact .inr hpending
      · obtain rfl := mem_singleton.1 hlast
        exact .inl (hskip.resolve_left hm)
  refine ⟨h.nodup, fun m hm hkept => hmoved m hkept (h.starts m hm hkept),
    fun k hk m hm hkept => hmoved m hkept (h.follows k hk m hm hkept), fun S hclosed => ?_⟩
  obtain ⟨htaken, hpending⟩ := h.least S hclosed
  exact ⟨htaken, fun m hm => hpending m (mem_append_left _ hm)⟩

omit [DecidableEq N] [DecidablePred ignored] in
theorem Draining.take (h : Draining ignored members seeds (pending ++ [n]) taken) (hkept : ¬ ignored n)
    (hnew : n ∉ taken) : Draining ignored members seeds (pending ++ members n) (n :: taken) := by
  have hmoved : ∀ m, m ∈ taken ∨ m ∈ pending ++ [n] → m ∈ n :: taken ∨ m ∈ pending ++ members n := by
    rintro m (htaken | hpending)
    · exact .inl (mem_cons_of_mem n htaken)
    · rcases mem_append.1 hpending with hpending | hlast
      · exact .inr (mem_append_left _ hpending)
      · exact .inl (mem_singleton.1 hlast ▸ mem_cons_self)
  refine ⟨nodup_cons.2 ⟨hnew, h.nodup⟩, fun m hm hkept => hmoved m (h.starts m hm hkept),
    fun k hk m hm hkept => ?_, fun S hclosed => ?_⟩
  · rcases mem_cons.1 hk with rfl | hk
    · exact .inr (mem_append_right _ hm)
    · exact hmoved m (h.follows k hk m hm hkept)
  · obtain ⟨htaken, hpending⟩ := h.least S hclosed
    have hn : n ∈ S := hpending n (mem_append_right _ (mem_singleton_self n)) hkept
    refine ⟨forall_mem_cons.2 ⟨hn, htaken⟩, fun m hm hkept => ?_⟩
    rcases mem_append.1 hm with hm | hm
    · exact hpending m (mem_append_left _ hm) hkept
    · exact hclosed.follows n hn m hm hkept

omit [DecidableEq N] [DecidablePred ignored] in
theorem Draining.isLeast (h : Draining ignored members seeds [] taken) :
    IsLeast {S | Closed ignored members seeds S} {n | n ∈ taken} := by
  refine ⟨⟨fun n hn hkept => ?_, fun n hn m hm hkept => ?_⟩, fun S hclosed => (h.least S hclosed).1⟩
  · exact (h.starts n hn hkept).resolve_right not_mem_nil
  · exact (h.follows n hn m hm hkept).resolve_right not_mem_nil

theorem Draining.drains {nodes : List N} (hnodes : ∀ n, members n ≠ [] → n ∈ nodes)
    {rounds : Nat} (h : Draining ignored members seeds pending taken)
    (hrounds : pending.length + weight members nodes taken < rounds) :
    ∃ out, drain ignored members rounds pending taken = some out ∧ out.Nodup ∧
      IsLeast {S | Closed ignored members seeds S} {n | n ∈ out} := by
  induction rounds generalizing pending taken with
  | zero => exact absurd hrounds (Nat.not_lt_zero _)
  | succ rounds ih =>
    rcases eq_nil_or_concat pending with rfl | ⟨front, n, rfl⟩
    · exact ⟨taken, rfl, h.nodup, h.isLeast⟩
    · rw [concat_eq_append] at h hrounds ⊢
      rw [length_append, length_singleton] at hrounds
      rw [drain, getLast?_concat, dropLast_concat]
      dsimp only
      by_cases hskip : ignored n ∨ n ∈ taken
      · rw [if_pos hskip]
        exact ih (h.skip hskip) (by omega)
      · rw [if_neg hskip]
        obtain ⟨hkept, hnew⟩ := not_or.1 hskip
        refine ih (h.take hkept hnew) ?_
        rw [length_append]
        by_cases hmembers : members n = []
        · have hmono := @weight_cons_le N _ members nodes taken n
          rw [hmembers, length_nil]
          omega
        · have htake := @weight_take N _ members nodes taken n (hnodes n hmembers) hnew
          omega

theorem drains {nodes : List N} (hnodes : ∀ n, members n ≠ [] → n ∈ nodes) {rounds : Nat}
    (hrounds : seeds.length + (nodes.map fun n => (members n).length).sum < rounds) :
    ∃ out, drain ignored members rounds seeds [] = some out ∧ out.Nodup ∧
      IsLeast {S | Closed ignored members seeds S} {n | n ∈ out} :=
  draining_start.drains hnodes (by rwa [weight_nil])

end Mlang.Worklists
