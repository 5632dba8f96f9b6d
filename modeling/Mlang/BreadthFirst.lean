import Mathlib.Data.List.Nodup
import Mathlib.Data.List.Perm.Subperm

namespace Mlang.BreadthFirst

open List

/-! A search that puts each node in its queue once, the first time that it is met. -/

variable {α : Type} [DecidableEq α]

structure Frontier (α : Type) where
  visited : List α
  queue : List α

def empty : Frontier α := ⟨[], []⟩

def meet (f : Frontier α) (x : α) : Frontier α :=
  if x ∈ f.visited then f else ⟨x :: f.visited, f.queue ++ [x]⟩

def search (next : α → List α) : Nat → Frontier α → Option (List α)
  | 0, _ => none
  | fuel + 1, f =>
    match f.queue with
    | [] => some []
    | x :: queue =>
      (search next fuel ((next x).foldl meet { f with queue := queue })).map (x :: ·)

inductive Reached (next : α → List α) (roots : List α) : α → Prop
  | root (x : α) : x ∈ roots → Reached next roots x
  | next (x y : α) : Reached next roots x → y ∈ next x → Reached next roots y

theorem foldl_meet (xs : List α) (f : Frontier α) :
    (∀ x, x ∈ (xs.foldl meet f).visited ↔ x ∈ f.visited ∨ x ∈ xs) ∧
      ∃ fresh, (xs.foldl meet f).queue = f.queue ++ fresh ∧ fresh.Nodup ∧
        ∀ x, x ∈ fresh ↔ x ∈ xs ∧ x ∉ f.visited := by
  induction xs generalizing f with
  | nil => exact ⟨by simp, [], by simp⟩
  | cons y xs ih =>
    obtain ⟨hvisited, fresh, hqueue, hnodup, hfresh⟩ := ih (meet f y)
    rw [foldl_cons]
    by_cases hy : y ∈ f.visited
    · rw [meet, if_pos hy] at hvisited hqueue hfresh
      refine ⟨fun x => ?_, fresh, by rwa [meet, if_pos hy], hnodup, fun x => ?_⟩
      · rw [meet, if_pos hy, hvisited, mem_cons]
        constructor
        · exact Or.imp_right .inr
        · rintro (h | rfl | h)
          · exact .inl h
          · exact .inl hy
          · exact .inr h
      · rw [hfresh, mem_cons]
        constructor
        · exact fun h => ⟨.inr h.1, h.2⟩
        · rintro ⟨rfl | h, hx⟩
          · exact absurd hy hx
          · exact ⟨h, hx⟩
    · rw [meet, if_neg hy] at hvisited hqueue hfresh
      dsimp only at hvisited hqueue hfresh
      refine ⟨fun x => ?_, y :: fresh, ?_, ?_, fun x => ?_⟩
      · rw [meet, if_neg hy, hvisited, mem_cons, mem_cons]
        tauto
      · rw [meet, if_neg hy, hqueue, append_assoc, singleton_append]
      · refine List.nodup_cons.2 ⟨fun h => ((hfresh y).1 h).2 mem_cons_self, hnodup⟩
      · rw [mem_cons, mem_cons, hfresh, mem_cons]
        constructor
        · rintro (rfl | ⟨h, hx⟩)
          · exact ⟨.inl rfl, hy⟩
          · exact ⟨.inr h, fun hv => hx (.inr hv)⟩
        · rintro ⟨rfl | h, hx⟩
          · exact .inl rfl
          · by_cases heq : x = y
            · exact .inl heq
            · exact .inr ⟨h, fun hor => hor.elim heq hx⟩

variable {next : α → List α} {roots taken : List α} {f : Frontier α}

/-- What holds between the steps of the search, behind the nodes that it has taken from the queue. -/
structure Searching (next : α → List α) (roots taken : List α) (f : Frontier α) : Prop where
  nodup : (taken ++ f.queue).Nodup
  visited : ∀ x, x ∈ f.visited ↔ x ∈ taken ++ f.queue
  starts : ∀ x ∈ roots, x ∈ f.visited
  closed : ∀ x ∈ taken, ∀ y ∈ next x, y ∈ f.visited
  reached : ∀ x ∈ f.visited, Reached next roots x

theorem searching_start : Searching next roots [] (roots.foldl meet empty) := by
  obtain ⟨hvisited, fresh, hqueue, hnodup, hfresh⟩ := foldl_meet roots (empty : Frontier α)
  rw [empty, nil_append, ← empty] at hqueue
  refine ⟨?_, fun x => ?_, fun x hx => (hvisited x).2 (.inr hx), fun x hx => absurd hx not_mem_nil,
    fun x hx => ?_⟩
  · rwa [hqueue, nil_append]
  · rw [hvisited, hqueue, nil_append, hfresh]
    simp [empty]
  · exact .root x (((hvisited x).1 hx).resolve_left not_mem_nil)

variable (h : Searching next roots taken f)
include h

theorem Searching.step {x : α} {queue : List α} (hqueue : f.queue = x :: queue) :
    Searching next roots (taken ++ [x]) ((next x).foldl meet { f with queue := queue }) := by
  obtain ⟨hvisited, fresh, hfront, hnodup, hfresh⟩ := foldl_meet (next x) { f with queue := queue }
  have hsplit : taken ++ f.queue = taken ++ [x] ++ queue := by rw [hqueue, append_cons]
  have hx : x ∈ f.visited :=
    (h.visited x).2 (hqueue ▸ mem_append_right taken mem_cons_self)
  refine ⟨?_, fun y => ?_, fun y hy => (hvisited y).2 (.inl (h.starts y hy)), fun z hz y hy => ?_,
    fun y hy => ?_⟩
  · rw [hfront, ← append_assoc, ← hsplit]
    refine h.nodup.append hnodup fun y hy hnew => ((hfresh y).1 hnew).2 ((h.visited y).2 hy)
  · rw [hvisited, hfront, ← append_assoc, ← hsplit, mem_append, hfresh, ← h.visited]
    tauto
  · rw [hvisited]
    rcases List.mem_append.1 hz with hz | hz
    · exact .inl (h.closed z hz y hy)
    · exact .inr (List.mem_singleton.1 hz ▸ hy)
  · rcases (hvisited y).1 hy with hy | hy
    · exact h.reached y hy
    · exact .next x y (h.reached x hx) hy

omit [DecidableEq α] in
theorem Searching.reached_mem (hdone : f.queue = []) {x : α} :
    x ∈ taken ↔ Reached next roots x := by
  have hvisited : ∀ y, y ∈ f.visited ↔ y ∈ taken := by
    intro y
    rw [h.visited, hdone, append_nil]
  constructor
  · exact fun hx => h.reached x ((hvisited x).2 hx)
  · intro hx
    induction hx with
    | root x hroot => exact (hvisited x).1 (h.starts x hroot)
    | next x y _ hy ih => exact (hvisited y).1 (h.closed x ih y hy)

theorem Searching.ends (hdone : f.queue = []) (n : Nat) :
    ∃ out, search next (n + 1) f = some out ∧ (taken ++ out).Nodup ∧
      ∀ x, x ∈ taken ++ out ↔ Reached next roots x := by
  have htaken := h.nodup
  rw [hdone] at htaken
  refine ⟨[], by rw [search, hdone], htaken, fun x => ?_⟩
  rw [append_nil, h.reached_mem hdone]

omit h

theorem Searching.search {nodes : List α} (hnodes : ∀ x, Reached next roots x → x ∈ nodes)
    (h : Searching next roots taken f) {n : Nat} (hn : nodes.length ≤ n + taken.length) :
    ∃ out, search next (n + 1) f = some out ∧ (taken ++ out).Nodup ∧
      ∀ x, x ∈ taken ++ out ↔ Reached next roots x := by
  induction n generalizing taken f with
  | zero =>
    cases hqueue : f.queue with
    | nil => exact h.ends hqueue 0
    | cons x queue =>
      have hstep := h.step hqueue
      have hsub : (taken ++ [x]).Subperm nodes := by
        refine (List.Nodup.of_append_left hstep.nodup).subperm fun y hy => hnodes y ?_
        exact hstep.reached y ((hstep.visited y).2 (mem_append_left _ hy))
      have hle := hsub.length_le
      rw [length_append, length_singleton] at hle
      omega
  | succ n ih =>
    cases hqueue : f.queue with
    | nil => exact h.ends hqueue (n + 1)
    | cons x queue =>
      have hmore : nodes.length ≤ n + (taken ++ [x]).length := by
        rw [length_append, length_singleton]
        omega
      obtain ⟨out, hout, hnodup, hmem⟩ := ih (h.step hqueue) hmore
      rw [← append_cons] at hnodup hmem
      refine ⟨x :: out, ?_, hnodup, hmem⟩
      rw [BreadthFirst.search, hqueue]
      exact congrArg (Option.map (x :: ·)) hout

end Mlang.BreadthFirst
