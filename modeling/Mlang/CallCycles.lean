import Mathlib.Data.Fintype.Pigeonhole

namespace Mlang.CallCycles

open List

variable {α : Type}
variable {branch last : α}

section Paths

variable (leads : α → α → Prop) (stack : List α)

def LeadsPast (a b : α) : Prop := leads a b ∧ a ∉ stack ∧ b ∉ stack

variable {leads stack}

theorem leadsPast_last {a : α} {rest : List α} (hchain : (a :: rest).IsChain leads)
    (hpast : ∀ b ∈ a :: rest, b ∉ stack) (hlast : (a :: rest).getLast? = some last) :
    Relation.ReflTransGen (LeadsPast leads stack) a last := by
  induction rest generalizing a with
  | nil =>
    obtain rfl : a = last := by simpa using hlast
    exact .refl
  | cons b rest ih =>
    obtain ⟨hab, hchain⟩ := isChain_cons_cons.1 hchain
    have hb := hpast b (mem_cons_of_mem _ mem_cons_self)
    refine .head ⟨hab, hpast a mem_cons_self, hb⟩ (ih hchain ?_ ?_)
    · exact fun c hc => hpast c (mem_cons_of_mem _ hc)
    · rwa [getLast?_cons_cons] at hlast

theorem leadsPast_branch {path : List α} (hstarts : stack ++ [branch] <+: path) (hchain : path.IsChain leads)
    (hnodup : path.Nodup) (hlast : path.getLast? = some last) :
    Relation.ReflTransGen (LeadsPast leads stack) branch last := by
  obtain ⟨rest, rfl⟩ := hstarts
  rw [append_assoc, singleton_append] at hchain hnodup hlast
  refine leadsPast_last hchain.right_of_append (fun b hb hstack => ?_) ?_
  · exact (nodup_append.1 hnodup).2.2 b hstack b hb rfl
  · rwa [getLast?_append_of_ne_nil _ (cons_ne_nil _ _)] at hlast

end Paths

section Cycles

open Relation

variable {r r' : α → α → Prop} {i k l : α}

/-- A cycle does not go through what leads nowhere. -/
theorem transGen_of_sinks (h : ∀ a b, r' a b → r a b ∨ ∀ c, ¬ r' b c) (hcycle : TransGen r' k k) :
    TransGen r k k := by
  have hpath : ∀ {l c}, TransGen r' k l → r' l c → TransGen r k l := by
    intro l c hpath
    induction hpath generalizing c with
    | single hab => exact fun hc => .single ((h _ _ hab).resolve_right fun hsink => hsink c hc)
    | tail _ hab ih => exact fun hc => (ih hab).tail ((h _ _ hab).resolve_right fun hsink => hsink c hc)
  obtain ⟨c, hc, -⟩ := TransGen.head'_iff.1 hcycle
  exact hpath hcycle hc

variable (h : ∀ a b, r' a b → r a b ∨ a = i)
include h

/-- Where only one element leads to more than before, a new cycle goes through it. -/
theorem transGen_or_through (hcycle : TransGen r' k k) : TransGen r k k ∨ TransGen r' i i := by
  have hpath : ∀ {l}, TransGen r' k l → TransGen r k l ∨ (ReflTransGen r' k i ∧ TransGen r' i l) := by
    intro l hpath
    induction hpath with
    | single hab =>
      rcases h _ _ hab with hr | rfl
      · exact .inl (.single hr)
      · exact .inr ⟨.refl, .single hab⟩
    | tail hkb hab ih =>
      rcases ih with ih | ⟨hki, hib⟩
      · rcases h _ _ hab with hr | rfl
        · exact .inl (ih.tail hr)
        · exact .inr ⟨hkb.to_reflTransGen, .single hab⟩
      · exact .inr ⟨hki, hib.tail hab⟩
  rcases hpath hcycle with hr | ⟨hki, hik⟩
  · exact .inl hr
  · exact .inr (hik.trans_left hki)

theorem reflTransGen_before (hpath : ReflTransGen r' k i) : ReflTransGen r k i := by
  induction hpath using ReflTransGen.head_induction_on with
  | refl => exact .refl
  | head hab _ ih =>
    rcases h _ _ hab with hr | rfl
    · exact .head hr ih
    · exact .refl

end Cycles

theorem exists_periodic {β : Type} [Finite β] {next : β → β → Prop} (h : ∀ b, ∃ c, next b c) (b : β) :
    ∃ (member : Nat → β) (period : Nat), 0 < period ∧
      (∀ n, member (n + period) = member n) ∧ ∀ n, next (member n) (member (n + 1)) := by
  choose f hf using h
  obtain ⟨i, j, hne, hij⟩ := Finite.exists_ne_map_eq_of_infinite fun n => f^[n] b
  wlog hlt : i < j generalizing i j
  · exact this j i hne.symm hij.symm (by omega)
  obtain ⟨period, rfl⟩ := Nat.exists_eq_add_of_lt hlt
  have hcycle : f^[period + 1] (f^[i] b) = f^[i] b := by
    rw [← Function.iterate_add_apply, Nat.add_comm, ← Nat.add_assoc]
    exact hij.symm
  refine ⟨fun n => f^[n] (f^[i] b), period + 1, Nat.succ_pos _, fun n => ?_, fun n => ?_⟩
  · exact (Function.iterate_add_apply f n _ _).trans (congrArg f^[n] hcycle)
  · have hnext := hf (f^[n] (f^[i] b))
    rwa [← Function.iterate_succ_apply' f] at hnext

variable {past : List α} {leads : α → α → Prop} {root : α} {stack : Nat → List α} {call : Nat → α}
  {waiting : Nat → Prop} {period : Nat}

variable (hperiod : 0 < period) (hstack : ∀ n, stack (n + period) = stack n)
  (hcall : ∀ n, call (n + period) = call n) (hwaiting : ∀ n, waiting (n + period) ↔ waiting n)
  (hstep : ∀ n, (¬ waiting n ∧ stack (n + 1) = stack n ++ [call n]) ∨
    (waiting n ∧ ¬ waiting (n + 1) ∧ call (n + 1) = call n))
  (hnodup : ∀ n, (stack n ++ [call n]).Nodup) (hchain : ∀ n, (stack n ++ [call n]).IsChain leads)

variable (hpast : ∀ n, past <+: stack n)
include hpast

include hstep hnodup hchain in
theorem leadsPast_step (n : Nat) :
    (¬ waiting n ∧ LeadsPast leads past (call n) (call (n + 1))) ∨ (waiting n ∧ call (n + 1) = call n) := by
  have hfresh : ∀ m, call m ∉ past := fun m hmem =>
    (nodup_append.1 (hnodup m)).2.2 _ ((hpast m).subset hmem) _ (mem_singleton_self _) rfl
  rcases hstep n with ⟨hwait, hnext⟩ | ⟨hwait, -, hsame⟩
  · refine .inl ⟨hwait, ?_, hfresh n, hfresh (n + 1)⟩
    have hlinked := hchain (n + 1)
    rw [hnext, append_assoc] at hlinked
    exact (isChain_cons_cons.1 hlinked.right_of_append).1
  · exact .inr ⟨hwait, hsame⟩

include hstep hnodup hchain in
theorem leadsPast_run (n k : Nat) :
    Relation.ReflTransGen (LeadsPast leads past) (call n) (call (n + k)) := by
  induction k with
  | zero => exact .refl
  | succ k ih =>
    rcases leadsPast_step hstep hnodup hchain hpast (n + k) with ⟨-, h⟩ | ⟨-, h⟩
    · exact ih.tail h
    · rw [← Nat.add_assoc, h]; exact ih

include hperiod hcall hwaiting hstep hnodup hchain in
theorem leadsPast_cycle {n : Nat} (hn : waiting n) :
    Relation.TransGen (LeadsPast leads past) (call n) (call n) := by
  have hnot : ¬ waiting (n + 1) := by
    rcases hstep n with ⟨h, -⟩ | ⟨-, h, -⟩
    · exact absurd hn h
    · exact h
  have htwo : 2 ≤ period := by
    rcases Nat.lt_or_ge period 2 with h | h
    · obtain rfl : period = 1 := by omega
      exact absurd ((hwaiting n).2 hn) hnot
    · exact h
  have hfirst : LeadsPast leads past (call n) (call (n + 2)) := by
    rcases leadsPast_step hstep hnodup hchain hpast n with ⟨h, -⟩ | ⟨-, hsame⟩
    · exact absurd hn h
    · rcases leadsPast_step hstep hnodup hchain hpast (n + 1) with ⟨-, h⟩ | ⟨h, -⟩
      · rwa [hsame] at h
      · exact absurd h hnot
  have hrest := leadsPast_run hstep hnodup hchain hpast (n + 2) (period - 2)
  have hback : n + 2 + (period - 2) = n + period := by omega
  rw [hback, hcall] at hrest
  exact .head' hfirst hrest

omit hpast

theorem branch_of_ne {l : List α} {a : α} (hpast : past <+: l) (hbranch : past ++ [branch] <+: l ++ [a])
    (hne : l ≠ past) : past ++ [branch] <+: l := by
  refine prefix_of_prefix_length_le hbranch (prefix_append l [a]) ?_
  have hlen := hpast.length_le
  rcases Nat.lt_or_ge past.length l.length with h | h
  · rwa [length_append, length_singleton]
  · exact absurd (hpast.eq_of_length (Nat.le_antisymm hlen h)).symm hne

include hperiod hstack hwaiting hstep hnodup in
theorem stack_ne_past (hpast : ∀ n, past <+: stack n)
    (hbranch : ∀ n, past ++ [branch] <+: stack n ++ [call n]) (n : Nat) : stack n ≠ past := by
  have hpred : ∀ m, stack m = past → ∃ m', stack (m' + 1) = past ∧ waiting m' ∧
      ¬ waiting m ∧ call (m' + 1) = call m' := by
    intro m hm
    obtain ⟨p, rfl⟩ : ∃ p, period = p + 1 := ⟨period - 1, by omega⟩
    have hsame : stack (m + p + 1) = past := by rw [Nat.add_assoc, hstack, hm]
    refine ⟨m + p, hsame, ?_⟩
    rcases hstep (m + p) with ⟨-, h⟩ | ⟨hwait, hnot, h⟩
    · have hlen := (hpast (m + p)).length_le
      have hsucc := congrArg List.length (hsame.symm.trans h)
      rw [length_append, length_singleton] at hsucc
      omega
    · rw [Nat.add_assoc, hwaiting] at hnot
      exact ⟨hwait, hnot, h⟩
  intro hn
  obtain ⟨m, hm, hwait, -, hsame⟩ := hpred n hn
  have hcalled : call m = branch := by
    have h := hbranch (m + 1)
    rw [hm, hsame] at h
    exact (singleton_inj.1 (append_cancel_left (h.eq_of_length (by simp)))).symm
  by_cases hends : stack m = past
  · obtain ⟨-, -, -, hnot, -⟩ := hpred m hends
    exact hnot hwait
  · have hlonger := branch_of_ne (hpast m) (hbranch m) hends
    have hmem : call m ∈ stack m :=
      hcalled ▸ hlonger.subset (mem_append_right _ (mem_singleton_self _))
    exact (nodup_append.1 (hnodup m)).2.2 _ hmem _ (mem_singleton_self _) rfl

include hperiod hstack hcall hwaiting hstep hnodup hchain in
/-- Calls that wait for one another in a cycle meet where one of them waits. -/
theorem exists_crossing (hroot : ∀ n, (stack n ++ [call n]).head? = some root) :
    ∃ n past branch branch', past ≠ [] ∧ branch ≠ branch' ∧ waiting n ∧
      past ++ [branch] <+: stack n ++ [call n] ∧
      past ++ [branch'] <+: stack (n + 1) ++ [call (n + 1)] ∧ call (n + 1) = call n ∧
      Relation.ReflTransGen (LeadsPast leads past) branch (call n) ∧
      Relation.ReflTransGen (LeadsPast leads past) branch' (call n) ∧
      Relation.TransGen (LeadsPast leads past) (call n) (call n) := by
  by_contra hnone
  have hshared : ∀ length, ∃ past : List α, past.length = length ∧ ∀ n, past <+: stack n := by
    intro length
    induction length with
    | zero => exact ⟨[], rfl, fun n => nil_prefix⟩
    | succ length ih =>
      obtain ⟨past, rfl, hpast⟩ := ih
      have hnext : ∀ n, ∃ branch, past ++ [branch] <+: stack n ++ [call n] := by
        intro n
        obtain ⟨rest, hrest⟩ := hpast n
        obtain ⟨branch, tail, htail⟩ := exists_cons_of_ne_nil
          (append_ne_nil_of_right_ne_nil rest (cons_ne_nil (call n) []))
        exact ⟨branch, tail, by rw [← hrest, append_assoc past rest, htail]; simp⟩
      choose branch hbranch using hnext
      have hsame : ∀ n, branch (n + 1) = branch n := by
        intro n
        rcases hstep n with ⟨-, hlonger⟩ | ⟨hwait, -, hcalls⟩
        · have hle : past ++ [branch n] <+: stack (n + 1) ++ [call (n + 1)] := by
            rw [hlonger]
            exact (hbranch n).trans (prefix_append _ _)
          have heq : past ++ [branch (n + 1)] = past ++ [branch n] :=
            (prefix_of_prefix_length_le (hbranch (n + 1)) hle (by simp)).eq_of_length (by simp)
          exact singleton_inj.1 (append_cancel_left heq)
        · by_contra hne
          have hlast : ∀ m, (stack m ++ [call m]).getLast? = some (call m) := fun m => by simp
          refine hnone ⟨n, past, branch n, branch (n + 1), ?_, Ne.symm hne, hwait, hbranch n,
            hbranch (n + 1), hcalls, leadsPast_branch (hbranch n) (hchain n) (hnodup n) (hlast n),
            ?_, leadsPast_cycle hperiod hcall hwaiting hstep hnodup hchain hpast hwait⟩
          · rintro rfl
            have hhead : ∀ m, branch m = root := by
              intro m
              obtain ⟨rest, hrest⟩ := hbranch m
              have h := hroot m
              rw [← hrest] at h
              exact Option.some.inj h
            exact hne ((hhead (n + 1)).trans (hhead n).symm)
          · have h := leadsPast_branch (hbranch (n + 1)) (hchain (n + 1)) (hnodup (n + 1))
              (hlast (n + 1))
            rwa [hcalls] at h
      have hconst : ∀ n, branch n = branch 0 := by
        intro n
        induction n with
        | zero => rfl
        | succ n ih => exact (hsame n).trans ih
      have hall : ∀ n, past ++ [branch 0] <+: stack n ++ [call n] := fun n => hconst n ▸ hbranch n
      refine ⟨past ++ [branch 0], by simp, fun n => branch_of_ne (hpast n) (hall n) ?_⟩
      exact stack_ne_past hperiod hstack hwaiting hstep hnodup hpast hall n
  obtain ⟨past, hlen, hpast⟩ := hshared ((stack 0).length + 1)
  exact absurd (hpast 0).length_le (by omega)

end Mlang.CallCycles
