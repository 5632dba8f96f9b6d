import Mathlib.Data.List.Nodup
import Mathlib.Data.List.Perm.Subperm

namespace Mlang.DepthFirstOrders

open List

/-! A depth-first search that lists each node behind the nodes that its edges lead to. -/

open Relation (TransGen ReflTransGen)

section Search

variable {N E : Type}

inductive Fault (N E : Type)
  | refused (e : E)
  | cycle (n : N)
  | depth
  deriving DecidableEq

def visitEach (visit : N → List N → Except (Fault N E) (List N)) :
    List (Except E N) → List N → Except (Fault N E) (List N)
  | [], done => .ok done
  | .error e :: _, _ => .error (.refused e)
  | .ok m :: edges, done => (visit m done).bind (visitEach visit edges)

variable (edges : N → List (Except E N))

/-- The nodes in `active` are entered and not yet left, those in `done` are left. The first number
bounds the depth. -/
def visit [DecidableEq N] : Nat → List N → N → List N → Except (Fault N E) (List N)
  | 0, _, _, _ => .error .depth
  | depth + 1, active, n, done =>
    if n ∈ done then .ok done
    else if n ∈ active then .error (.cycle n)
    else (visitEach (visit depth (n :: active)) (edges n) done).map (· ++ [n])

def Step (n m : N) : Prop := .ok m ∈ edges n

structure Settled (done : List N) : Prop where
  nodup : done.Nodup
  behind : ∀ before n after, done = before ++ n :: after → ∀ e ∈ edges n, ∃ m ∈ before, e = .ok m

variable {edges} {depth : Nat} {active before done done' : List N} {n m : N}

theorem settled_nil : Settled edges ([] : List N) where
  nodup := nodup_nil
  behind := fun _ _ _ h => absurd h.symm (append_ne_nil_of_right_ne_nil _ (cons_ne_nil _ _))

variable (h : Settled edges done)
include h

theorem Settled.concat (hnew : n ∉ done)
    (hedges : ∀ e ∈ edges n, ∃ m ∈ done, e = .ok m) : Settled edges (done ++ [n]) where
  nodup := concat_eq_append ▸ List.Nodup.concat hnew h.nodup
  behind := by
    intro before k after hsplit
    rcases append_eq_append_iff.1 hsplit with ⟨middle, rfl, hmiddle⟩ | ⟨middle, hdone, hmiddle⟩
    · cases middle with
      | nil =>
        obtain ⟨rfl, -⟩ := List.cons.inj hmiddle
        rwa [append_nil]
      | cons a middle => simp at hmiddle
    · cases middle with
      | nil =>
        rw [nil_append] at hmiddle
        rw [append_nil] at hdone
        obtain ⟨rfl, -⟩ := List.cons.inj hmiddle
        rwa [← hdone]
      | cons a middle =>
        obtain ⟨rfl, -⟩ := List.cons.inj hmiddle
        exact h.behind before k middle hdone

theorem Settled.trans {after : List N} (hsplit : done = before ++ n :: after)
    (hreach : TransGen (Step edges) n m) : m ∈ before := by
  induction hreach with
  | single hstep =>
    obtain ⟨k, hk, heq⟩ := h.behind before n after hsplit _ hstep
    exact Except.ok.inj heq ▸ hk
  | tail _ hstep ih =>
    obtain ⟨front, back, rfl⟩ := append_of_mem ih
    rw [append_assoc, cons_append] at hsplit
    obtain ⟨k, hk, heq⟩ := h.behind front _ _ hsplit _ hstep
    exact mem_append_left _ (Except.ok.inj heq ▸ hk)

theorem Settled.acyclic (hn : n ∈ done) : ¬ TransGen (Step edges) n n := by
  intro hcycle
  obtain ⟨before, after, hsplit⟩ := append_of_mem hn
  have hnodup := h.nodup
  rw [hsplit] at hnodup
  exact (nodup_append.1 hnodup).2.2 n (h.trans hsplit hcycle) n mem_cons_self rfl

theorem Settled.accepted (hn : n ∈ done) : ∀ e ∈ edges n, ∃ m, e = .ok m := by
  obtain ⟨before, after, hsplit⟩ := append_of_mem hn
  intro e he
  obtain ⟨m, -, heq⟩ := h.behind before n after hsplit e he
  exact ⟨m, heq⟩

end Search

section Success

variable {N E : Type} {edges : N → List (Except E N)} {roots : List (Except E N)}
  {depth : Nat} {active done done' : List N} {n : N}

/-- What a search adds to the nodes that are left: none that is active, and only such as `from` leads
to. -/
structure Extends (edges : N → List (Except E N)) (active : List N) (origin : N → Prop)
    (done done' : List N) : Prop where
  settled : Settled edges done'
  subset : done ⊆ done'
  added : ∀ m ∈ done', m ∈ done ∨ m ∉ active ∧ ∃ k, origin k ∧ ReflTransGen (Step edges) k m

theorem visitEach_ok {visit : N → List N → Except (Fault N E) (List N)}
    (hvisit : ∀ n done done', .ok n ∈ roots → Settled edges done → visit n done = .ok done' →
      Extends edges active (· = n) done done' ∧ n ∈ done')
    (hdone : Settled edges done) (h : visitEach visit roots done = .ok done') :
    Extends edges active (fun k => .ok k ∈ roots) done done' ∧ ∀ e ∈ roots, ∃ m ∈ done', e = .ok m := by
  induction roots generalizing done with
  | nil =>
    cases h
    exact ⟨⟨hdone, List.Subset.refl _, fun m hm => .inl hm⟩, forall_mem_nil _⟩
  | cons e roots ih =>
    cases e with
    | error e => cases h
    | ok m =>
      rw [visitEach] at h
      cases hm : visit m done with
      | error f =>
        rw [hm] at h
        cases h
      | ok middle =>
        rw [hm] at h
        obtain ⟨hfirst, hmem⟩ := hvisit m done middle mem_cons_self hdone hm
        obtain ⟨hrest, hall⟩ := ih (fun n done done' hn => hvisit n done done' (mem_cons_of_mem _ hn))
          hfirst.settled h
        refine ⟨⟨hrest.settled, List.Subset.trans hfirst.subset hrest.subset, fun k hk => ?_⟩, ?_⟩
        · rcases hrest.added k hk with hk | ⟨hactive, j, hj, hreach⟩
          · rcases hfirst.added k hk with hk | ⟨hactive, j, rfl, hreach⟩
            · exact .inl hk
            · exact .inr ⟨hactive, j, mem_cons_self, hreach⟩
          · exact .inr ⟨hactive, j, mem_cons_of_mem _ hj, hreach⟩
        · exact forall_mem_cons.2 ⟨⟨m, hrest.subset hmem, rfl⟩, hall⟩

theorem visit_ok [DecidableEq N] (hdone : Settled edges done) (h : visit edges depth active n done = .ok done') :
    Extends edges active (· = n) done done' ∧ n ∈ done' := by
  induction depth generalizing active n done done' with
  | zero => cases h
  | succ depth ih =>
    rw [visit] at h
    split_ifs at h with hmem hactive
    · cases h
      exact ⟨⟨hdone, List.Subset.refl _, fun m hm => .inl hm⟩, hmem⟩
    · cases hinner : visitEach (visit edges depth (n :: active)) (edges n) done with
      | error f =>
        rw [hinner] at h
        cases h
      | ok inner =>
        rw [hinner] at h
        cases h
        obtain ⟨hext, hall⟩ := visitEach_ok (fun m done done' _ hdone hm => ih hdone hm) hdone hinner
        -- the node itself is active while its edges are followed
        have hnew : n ∉ inner := fun hn => (hext.added n hn).elim hmem fun h => h.1 mem_cons_self
        refine ⟨⟨hext.settled.concat hnew hall, fun m hm => mem_append_left _ (hext.subset hm), ?_⟩,
          mem_append_right _ (mem_singleton_self n)⟩
        intro m hm
        rcases mem_append.1 hm with hm | hm
        · rcases hext.added m hm with hm | ⟨hm, k, hk, hreach⟩
          · exact .inl hm
          · exact .inr ⟨fun h => hm (mem_cons_of_mem _ h), n, rfl, ReflTransGen.head hk hreach⟩
        · obtain rfl := mem_singleton.1 hm
          exact .inr ⟨hactive, m, rfl, ReflTransGen.refl⟩

end Success

variable {N E : Type} {edges : N → List (Except E N)} {roots : List (Except E N)}
  {depth : Nat} {active done : List N} {n : N} {f : Fault N E}

def Explains (edges : N → List (Except E N)) (nodes : List N) : Fault N E → Prop
  | .refused e => ∃ n ∈ nodes, .error e ∈ edges n
  | .cycle n => n ∈ nodes ∧ TransGen (Step edges) n n
  | .depth => False

theorem visitEach_error {visit : N → List N → Except (Fault N E) (List N)} {P : Fault N E → Prop}
    (hvisit : ∀ n done f, .ok n ∈ roots → visit n done = .error f → P f)
    (hrefused : ∀ e, .error e ∈ roots → P (.refused e))
    (h : visitEach visit roots done = .error f) : P f := by
  induction roots generalizing done with
  | nil => cases h
  | cons e roots ih =>
    cases e with
    | error e =>
      obtain rfl := Except.error.inj h
      exact hrefused e mem_cons_self
    | ok m =>
      rw [visitEach] at h
      cases hm : visit m done with
      | error g =>
        rw [hm] at h
        obtain rfl := Except.error.inj h
        exact hvisit m done g mem_cons_self hm
      | ok middle =>
        rw [hm] at h
        exact ih (fun n done f hn => hvisit n done f (mem_cons_of_mem _ hn))
          (fun e he => hrefused e (mem_cons_of_mem _ he)) h

variable [DecidableEq N]

theorem visit_error {nodes : List N} (hnodes : ∀ n ∈ nodes, ∀ m, Step edges n m → m ∈ nodes)
    (hn : n ∈ nodes) (hactive : active.Nodup) (hsubset : active ⊆ nodes)
    (hchain : ∀ a ∈ active, TransGen (Step edges) a n) (hdepth : nodes.length < depth + active.length)
    (h : visit edges depth active n done = .error f) : Explains edges nodes f := by
  induction depth generalizing active n done f with
  | zero =>
    have hlen := (subperm_of_subset hactive hsubset).length_le
    omega
  | succ depth ih =>
    rw [visit] at h
    split_ifs at h with hmem hentered
    · obtain rfl := Except.error.inj h
      exact ⟨hn, hchain n hentered⟩
    · cases hinner : visitEach (visit edges depth (n :: active)) (edges n) done with
      | ok inner =>
        rw [hinner] at h
        cases h
      | error g =>
        rw [hinner] at h
        obtain rfl := Except.error.inj h
        refine visitEach_error (fun m done f hm hvisit => ?_) (fun e he => ⟨n, hn, he⟩) hinner
        refine ih (hnodes n hn m hm) (nodup_cons.2 ⟨hentered, hactive⟩)
          (cons_subset.2 ⟨hn, hsubset⟩) ?_ ?_ hvisit
        · exact forall_mem_cons.2 ⟨TransGen.single hm, fun a ha => (hchain a ha).tail hm⟩
        · rw [length_cons]
          omega

end Mlang.DepthFirstOrders
