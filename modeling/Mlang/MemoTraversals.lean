import Mathlib.Data.List.Lex
import Mathlib.Data.List.Nodup

namespace Mlang.MemoTraversals

open List Option


/-! A depth-first traversal that visits each node once, under the configuration that it is first
reached with, although what leads out of a node depends on the configuration. -/

variable {path : List Nat} {i : Nat} {path' : List Nat} {j : Nat}

theorem lt_concat (path : List Nat) (i : Nat) : path < path ++ [i] := by
  induction path with
  | nil => exact nil_lt_cons i []
  | cons k path ih => exact cons_lt_cons_iff.2 (.inr ⟨rfl, ih⟩)

theorem append_cons_lt (path rest : List Nat) (h : i < j) : path ++ i :: rest < path ++ [j] := by
  induction path with
  | nil => exact cons_lt_cons_iff.2 (.inl h)
  | cons k path ih => exact cons_lt_cons_iff.2 (.inr ⟨rfl, ih⟩)

theorem lt_concat_succ (h : path' < path ++ [i + 1]) :
    path' < path ++ [i] ∨ ∃ rest, path' = path ++ i :: rest := by
  induction path generalizing path' with
  | nil =>
    cases path' with
    | nil => exact .inl (nil_lt_cons i [])
    | cons k rest =>
      rcases cons_lt_cons_iff.1 h with hlt | ⟨-, hnil⟩
      · rcases Nat.lt_succ_iff_lt_or_eq.1 hlt with hlt | rfl
        · exact .inl (cons_lt_cons_iff.2 (.inl hlt))
        · exact .inr ⟨rest, rfl⟩
      · exact absurd hnil (not_lt_nil rest)
  | cons k path ih =>
    cases path' with
    | nil => exact .inl (nil_lt_cons k _)
    | cons k' rest =>
      rcases cons_lt_cons_iff.1 h with hlt | ⟨rfl, hrest⟩
      · exact .inl (cons_lt_cons_iff.2 (.inl hlt))
      · rcases ih hrest with hlt | ⟨behind, rfl⟩
        · exact .inl (cons_lt_cons_iff.2 (.inr ⟨rfl, hlt⟩))
        · exact .inr ⟨behind, rfl⟩

theorem lt_concat_zero (h : path' < path ++ [0]) : path' < path ∨ path' = path := by
  induction path generalizing path' with
  | nil =>
    cases path' with
    | nil => exact .inr rfl
    | cons k rest =>
      rcases cons_lt_cons_iff.1 h with hlt | ⟨-, hnil⟩
      · exact absurd hlt (Nat.not_lt_zero k)
      · exact absurd hnil (not_lt_nil rest)
  | cons k path ih =>
    cases path' with
    | nil => exact .inl (nil_lt_cons k _)
    | cons k' rest =>
      rcases cons_lt_cons_iff.1 h with hlt | ⟨rfl, hrest⟩
      · exact .inl (cons_lt_cons_iff.2 (.inl hlt))
      · rcases ih hrest with hlt | rfl
        · exact .inl (cons_lt_cons_iff.2 (.inr ⟨rfl, hlt⟩))
        · exact .inr rfl

variable {rest : List Nat}

section Graphs

variable {N C L : Type}

/-- What leads out of a node under a configuration, in its order. -/
abbrev Edges (N C L : Type) := N → C → List (L × Option (N × C))

variable (edges : Edges N C L)

def labels (n : N) (c : C) : List L := (edges n c).map Prod.fst

def follow : N × C → List Nat → Option (N × C)
  | place, [] => some place
  | place, i :: path =>
    ((edges place.1 place.2)[i]?.bind Prod.snd).bind fun next => follow next path

theorem follow_append (place : N × C) (path path' : List Nat) :
    follow edges place (path ++ path') =
      (follow edges place path).bind fun next => follow edges next path' := by
  induction path generalizing place with
  | nil => rfl
  | cons i path ih =>
    rw [cons_append, follow, follow]
    cases (edges place.1 place.2)[i]?.bind Prod.snd with
    | none => rfl
    | some next => exact ih next

variable (root : N × C)

def Reaches (path : List Nat) (n : N) (c : C) : Prop := follow edges root path = some (n, c)

variable {edges root} {n m : N} {c d : C}

theorem reaches_nil : Reaches edges root [] root.1 root.2 := rfl

variable (h : Reaches edges root path n c)
include h

theorem Reaches.det (h' : Reaches edges root path m d) :
    n = m ∧ c = d := Prod.mk.inj (some.inj (h.symm.trans h'))

theorem Reaches.edge {l : L}
    (hedge : (edges n c)[i]? = some (l, some (m, d))) : Reaches edges root (path ++ [i]) m d := by
  have hfollow : follow edges root path = some (n, c) := h
  rw [Reaches, follow_append, hfollow, bind_some, follow, hedge]
  rfl

theorem Reaches.of_append (hrest : Reaches edges root (path ++ i :: rest) m d) :
    ∃ l n' c', (edges n c)[i]? = some (l, some (n', c')) ∧ Reaches edges root (path ++ [i]) n' c' := by
  have hfollow : follow edges root path = some (n, c) := h
  rw [Reaches, follow_append, hfollow, bind_some, follow] at hrest
  obtain ⟨next, hnext, -⟩ := bind_eq_some_iff.1 hrest
  obtain ⟨⟨l, target⟩, hedge, rfl⟩ := bind_eq_some_iff.1 hnext
  exact ⟨l, next.1, next.2, hedge, h.edge hedge⟩

omit h

variable (edges root)

/-- Wherever a label of a node leads to a node, it leads there under each configuration. -/
def Stable : Prop :=
  ∀ n, n ≠ root.1 → ∀ path c path' c', Reaches edges root path n c →
    Reaches edges root path' n c' → ∀ l target target', (l, target) ∈ edges n c →
      (l, target') ∈ edges n c' → target.map Prod.fst = target'.map Prod.fst

structure First (path : List Nat) (n : N) (c : C) : Prop where
  reaches : Reaches edges root path n c
  least : ∀ path' c', Reaches edges root path' n c' → ¬ path' < path

def FirstsSuffice : Prop :=
  ∀ path n c, First edges root path n c → ∀ path' c', Reaches edges root path' n c' →
    ∀ l ∈ labels edges n c', l ∈ labels edges n c

/-- The traversal of the edges of the node that it is inside of last. -/
inductive Runs : List N → N → List (L × Option (N × C)) → List (N × C) → List (N × C) →
    List (N × L) → Prop
  | nil {active n done} : Runs active n [] done done []
  | leaf {active n l rest done done' log} (hrest : Runs active n rest done done' log) :
      Runs active n ((l, none) :: rest) done done' ((n, l) :: log)
  | seen {active n l m c rest done done' log} (hseen : m ∈ done.map Prod.fst)
      (hrest : Runs active n rest done done' log) :
      Runs active n ((l, some (m, c)) :: rest) done done' ((n, l) :: log)
  | fresh {active n l m c rest done done₁ done' inner log} (hnew : m ∉ done.map Prod.fst)
      (hactive : m ∉ active) (hinside : Runs (m :: active) m (edges m c) done done₁ inner)
      (hrest : Runs active n rest (done₁ ++ [(m, c)]) done' log) :
      Runs active n ((l, some (m, c)) :: rest) done done' ((n, l) :: (inner ++ log))

def Traversed (done : List (N × C)) (log : List (N × L)) : Prop :=
  ∃ inside, Runs edges [root.1] root.1 (edges root.1 root.2) [] inside log ∧
    done = inside ++ [root]

end Graphs

variable {position : List Nat}

section Sweeping

variable {N C L : Type} (edges : Edges N C L) (root : N × C)

/-- What holds where the traversal has come to a position. -/
structure Swept (active : List N) (position : List Nat) (done : List (N × C)) : Prop where
  first : ∀ x ∈ done, ∃ path, First edges root path x.1 x.2
  closed : ∀ x ∈ done, ∀ l n c, (l, some (n, c)) ∈ edges x.1 x.2 → n ∈ done.map Prod.fst
  before : ∀ path < position, ∀ n c, Reaches edges root path n c →
    n ∈ done.map Prod.fst ∨ n ∈ active

structure Distinct (active : List N) (done : List (N × C)) : Prop where
  apart : ∀ n ∈ active, n ∉ done.map Prod.fst
  nodup : (done.map Prod.fst).Nodup

variable {edges root} {active : List N} {done done' : List (N × C)}

theorem Distinct.enter {n : N} (h : Distinct active done) (hnew : n ∉ done.map Prod.fst) :
    Distinct (n :: active) done := ⟨forall_mem_cons.2 ⟨hnew, h.apart⟩, h.nodup⟩

theorem Distinct.finish {n : N} (h : Distinct (n :: active) done) (hactive : n ∉ active) (c : C) :
    Distinct active (done ++ [(n, c)]) where
  apart := by
    intro m hm
    rw [map_append, mem_append, not_or]
    refine ⟨h.apart m (mem_cons_of_mem n hm), fun hmem => ?_⟩
    have hmn : m = n := mem_singleton.1 hmem
    exact hactive (hmn ▸ hm)
  nodup := by
    rw [map_append]
    refine nodup_append.2 ⟨h.nodup, nodup_cons.2 ⟨not_mem_nil, nodup_nil⟩, ?_⟩
    intro m hm m' hm' heq
    have hmn : m' = n := mem_singleton.1 hm'
    exact h.apart n mem_cons_self (hmn ▸ heq ▸ hm)

section Running

variable {n : N} {rest : List (L × Option (N × C))} {log : List (N × L)}
  (h : Runs edges active n rest done done' log)
include h

theorem Runs.distinct (hd : Distinct active done) : Distinct active done' := by
  induction h with
  | nil => exact hd
  | leaf _ ih => exact ih hd
  | seen _ _ ih => exact ih hd
  | fresh hnew hactive _ _ ihInside ihRest =>
    exact ihRest ((ihInside (hd.enter hnew)).finish hactive _)

theorem Runs.subset : done ⊆ done' := by
  induction h with
  | nil => exact List.Subset.refl _
  | leaf _ ih => exact ih
  | seen _ _ ih => exact ih
  | fresh _ _ _ _ ihInside ihRest =>
    exact List.Subset.trans ihInside (List.Subset.trans (subset_append_left _ _) ihRest)

theorem Runs.targets :
    ∀ l m c, (l, some (m, c)) ∈ rest → m ∈ done'.map Prod.fst := by
  induction h with
  | nil =>
    intro l m c hmem
    cases hmem
  | leaf _ ih =>
    intro l m c hmem
    rcases mem_cons.1 hmem with heq | hmem
    · cases heq
    · exact ih l m c hmem
  | seen hseen hrest ih =>
    intro l m c hmem
    rcases mem_cons.1 hmem with heq | hmem
    · cases heq
      exact map_subset _ hrest.subset hseen
    · exact ih l m c hmem
  | @fresh _ _ _ m₁ c₁ _ _ done₁ _ _ _ _ _ _ hrest _ ih =>
    intro l m c hmem
    rcases mem_cons.1 hmem with heq | hmem
    · cases heq
      have hfinished : (m₁, c₁) ∈ done₁ ++ [(m₁, c₁)] :=
        mem_append_right _ mem_cons_self
      exact mem_map.2 ⟨_, hrest.subset hfinished, rfl⟩
    · exact ih l m c hmem

theorem Runs.logged :
    (∀ e ∈ rest, (n, e.1) ∈ log) ∧
      ∀ x ∈ done', x ∈ done ∨ ∀ l ∈ labels edges x.1 x.2, (x.1, l) ∈ log := by
  induction h with
  | nil => exact ⟨forall_mem_nil _, fun x hx => .inl hx⟩
  | leaf _ ih =>
    refine ⟨forall_mem_cons.2 ⟨mem_cons_self, fun e he =>
      mem_cons_of_mem _ (ih.1 e he)⟩, fun x hx => (ih.2 x hx).imp_right fun h l hl => ?_⟩
    exact mem_cons_of_mem _ (h l hl)
  | seen _ _ ih =>
    refine ⟨forall_mem_cons.2 ⟨mem_cons_self, fun e he =>
      mem_cons_of_mem _ (ih.1 e he)⟩, fun x hx => (ih.2 x hx).imp_right fun h l hl => ?_⟩
    exact mem_cons_of_mem _ (h l hl)
  | @fresh _ _ _ m c _ _ _ _ _ _ _ _ _ _ ihInside ihRest =>
    refine ⟨forall_mem_cons.2 ⟨mem_cons_self, fun e he =>
      mem_cons_of_mem _ (mem_append_right _ (ihRest.1 e he))⟩, fun x hx => ?_⟩
    rcases ihRest.2 x hx with hx | hlogged
    · rcases mem_append.1 hx with hx | hx
      · refine (ihInside.2 x hx).imp_right fun h l hl => ?_
        exact mem_cons_of_mem _ (mem_append_left _ (h l hl))
      · rw [mem_singleton.1 hx]
        refine .inr fun l hl => ?_
        obtain ⟨e, he, rfl⟩ := mem_map.1 hl
        exact mem_cons_of_mem _ (mem_append_left _ (ihInside.1 e he))
    · exact .inr fun l hl =>
        mem_cons_of_mem _ (mem_append_right _ (hlogged l hl))

theorem Runs.of_mem_log :
    ∀ p ∈ log, (p.1 = n ∧ ∃ e ∈ rest, e.1 = p.2) ∨ ∃ d, (p.1, d) ∈ done' ∧ p.2 ∈ labels edges p.1 d := by
  induction h with
  | nil => exact forall_mem_nil _
  | leaf _ ih =>
    refine forall_mem_cons.2 ⟨.inl ⟨rfl, _, mem_cons_self, rfl⟩, fun p hp => ?_⟩
    exact (ih p hp).imp_left fun ⟨hn, e, he, hl⟩ => ⟨hn, e, mem_cons_of_mem _ he, hl⟩
  | seen _ _ ih =>
    refine forall_mem_cons.2 ⟨.inl ⟨rfl, _, mem_cons_self, rfl⟩, fun p hp => ?_⟩
    exact (ih p hp).imp_left fun ⟨hn, e, he, hl⟩ => ⟨hn, e, mem_cons_of_mem _ he, hl⟩
  | @fresh _ _ _ m c _ _ done₁ _ _ _ _ _ _ hrest ihInside ihRest =>
    have hfinished : (m, c) ∈ done₁ ++ [(m, c)] := mem_append_right _ mem_cons_self
    refine forall_mem_cons.2 ⟨.inl ⟨rfl, _, mem_cons_self, rfl⟩, fun p hp => ?_⟩
    rcases mem_append.1 hp with hp | hp
    · rcases ihInside p hp with ⟨rfl, e, he, hl⟩ | ⟨d, hd, hl⟩
      · exact .inr ⟨c, hrest.subset hfinished, mem_map.2 ⟨e, he, hl⟩⟩
      · exact .inr ⟨d, hrest.subset (mem_append_left _ hd), hl⟩
    · exact (ihRest p hp).imp_left fun ⟨hn, e, he, hl⟩ => ⟨hn, e, mem_cons_of_mem _ he, hl⟩

end Running

theorem Swept.stays (h : Swept edges root active position done) (hstable : Stable edges root)
    (hroot : root.1 ∉ done.map Prod.fst)
    (hcovers : ∀ x ∈ done, ∀ path c, Reaches edges root path x.1 c → ∀ l ∈ labels edges x.1 c, l ∈ labels
      edges x.1 x.2)
    {n m : N} {c d : C} (hn : n ∈ done.map Prod.fst) (hpath : Reaches edges root path n c)
    (hrest : Reaches edges root (path ++ rest) m d) : m ∈ done.map Prod.fst := by
  induction rest generalizing path n c with
  | nil =>
    rw [append_nil] at hrest
    exact (hpath.det hrest).1 ▸ hn
  | cons i rest ih =>
    obtain ⟨l, n', c', hedge, hreach⟩ := hpath.of_append hrest
    obtain ⟨⟨n, c₁⟩, hdone, rfl⟩ := mem_map.1 hn
    have hmem : (l, some (n', c')) ∈ edges n c := mem_of_getElem? hedge
    obtain ⟨⟨l, target⟩, htarget, rfl⟩ := mem_map.1
      (hcovers _ hdone path c hpath l (mem_map.2 ⟨_, hmem, rfl⟩))
    obtain ⟨first, hfirst⟩ := h.first _ hdone
    have hne : n ≠ root.1 := fun heq => hroot (heq ▸ hn)
    have hsame := hstable n hne first c₁ path c hfirst.reaches hpath l target _ htarget hmem
    obtain ⟨⟨n', c''⟩, rfl, rfl⟩ := map_eq_some_iff.1 hsame
    refine ih (h.closed _ hdone l n' c'' htarget) hreach ?_
    rwa [append_assoc]

theorem Swept.mono {position' : List Nat} (h : Swept edges root active position done)
    (hbefore : ∀ path < position', ∀ n c, Reaches edges root path n c → n ∈ done.map Prod.fst ∨ n ∈ active) :
    Swept edges root active position' done :=
  { h with before := hbefore }

theorem Swept.enter {n : N} {c : C} (h : Swept edges root active path done)
    (hpath : Reaches edges root path n c) (hnew : n ∉ done.map Prod.fst) (hactive : n ∉ active) :
    First edges root path n c ∧ Swept edges root (n :: active) (path ++ [0]) done := by
  refine ⟨⟨hpath, fun path' c' hreach hlt => ?_⟩, h.first, h.closed, ?_⟩
  · exact (h.before path' hlt n c' hreach).elim hnew hactive
  · intro path' hlt m d hreach
    rcases lt_concat_zero hlt with hlt | rfl
    · exact (h.before path' hlt m d hreach).imp_right (mem_cons_of_mem n)
    · exact .inr ((hpath.det hreach).1 ▸ mem_cons_self)

theorem Swept.finish {n : N} {c : C} (h : Swept edges root (n :: active) position done)
    (hfirst : First edges root path n c)
    (hclosed : ∀ l m d, (l, some (m, d)) ∈ edges n c → m ∈ done.map Prod.fst) :
    Swept edges root active position (done ++ [(n, c)]) where
  first := forall_mem_append.2 ⟨h.first, forall_mem_singleton.2 ⟨path, hfirst⟩⟩
  closed := by
    rw [map_append]
    refine forall_mem_append.2 ⟨fun x hx l m d hedge => ?_, ?_⟩
    · exact mem_append_left _ (h.closed x hx l m d hedge)
    · exact forall_mem_singleton.2 fun l m d hedge =>
        mem_append_left _ (hclosed l m d hedge)
  before := by
    intro path' hlt m d hreach
    rw [map_append, mem_append]
    rcases h.before path' hlt m d hreach with hdone | hactive
    · exact .inl (.inl hdone)
    · rcases mem_cons.1 hactive with rfl | hactive
      · exact .inl (.inr mem_cons_self)
      · exact .inr hactive

theorem Runs.swept {n rest log} (h : Runs edges active n rest done done' log) (hstable : Stable edges root)
    (hcovers : ∀ x ∈ done', (∃ path, First edges root path x.1 x.2) → ∀ path c, Reaches edges root path x.1 c
      → ∀ l ∈ labels edges x.1 c, l ∈ labels edges x.1 x.2)
    (hroot : root.1 ∈ active) (hdistinct : Distinct active done) {c : C} (hpath : Reaches edges root path n c)
    {front} (hedges : edges n c = front ++ rest)
    (hswept : Swept edges root active (path ++ [front.length]) done) :
    Swept edges root active (path ++ [(edges n c).length]) done' := by
  induction h generalizing path c front with
  | nil =>
    rw [hedges, append_nil]
    exact hswept
  | @leaf active n l rest done done' log hrest ih =>
    have hedge : (edges n c)[front.length]? = some (l, none) := by
      rw [hedges, getElem?_append_right (Nat.le_refl _), Nat.sub_self]
      rfl
    have hedges' : edges n c = (front ++ [(l, none)]) ++ rest := by
      rw [hedges, append_assoc, singleton_append]
    refine ih hcovers hroot hdistinct hpath hedges' (hswept.mono fun path' hlt m d hreach => ?_)
    rw [length_append, length_singleton] at hlt
    rcases lt_concat_succ hlt with hlt | ⟨behind, rfl⟩
    · exact hswept.before path' hlt m d hreach
    · obtain ⟨l', n', c', hedge', -⟩ := hpath.of_append hreach
      rw [hedge] at hedge'
      cases hedge'
  | @seen active n l n' c' rest done done' log hseen hrest ih =>
    have hedge : (edges n c)[front.length]? = some (l, some (n', c')) := by
      rw [hedges, getElem?_append_right (Nat.le_refl _), Nat.sub_self]
      rfl
    have hedges' : edges n c = (front ++ [(l, some (n', c'))]) ++ rest := by
      rw [hedges, append_assoc, singleton_append]
    have hchild := hpath.edge hedge
    refine ih hcovers hroot hdistinct hpath hedges' (hswept.mono fun path' hlt m d hreach => ?_)
    rw [length_append, length_singleton] at hlt
    rcases lt_concat_succ hlt with hlt | ⟨behind, rfl⟩
    · exact hswept.before path' hlt m d hreach
    · rw [← singleton_append, ← append_assoc] at hreach
      refine .inl (hswept.stays hstable (hdistinct.apart _ hroot) (fun x hx => ?_) hseen hchild hreach)
      exact hcovers x (hrest.subset hx) (hswept.first x hx)
  | @fresh active n l n' c' rest done done₁ done' inner log hnew hactive hinside hrest ihInside
      ihRest =>
      have hedge : (edges n c)[front.length]? = some (l, some (n', c')) := by
        rw [hedges, getElem?_append_right (Nat.le_refl _), Nat.sub_self]
        rfl
      have hedges' : edges n c = (front ++ [(l, some (n', c'))]) ++ rest := by
        rw [hedges, append_assoc, singleton_append]
      have hchild := hpath.edge hedge
      obtain ⟨hfirst, hentered⟩ := hswept.enter hchild hnew hactive
      have hdone₁ : done₁ ⊆ done' :=
        List.Subset.trans (subset_append_left _ _) hrest.subset
      have hentered' := hdistinct.enter hnew
      have hinner := ihInside (fun x hx => hcovers x (hdone₁ hx)) (mem_cons_of_mem n' hroot)
        hentered' hchild (nil_append _).symm hentered
      have hfinished := hinner.finish hfirst hinside.targets
      refine ihRest hcovers hroot ((hinside.distinct hentered').finish hactive c') hpath hedges' (hfinished.mono fun path' hlt m d hreach => ?_)
      refine hfinished.before path' ?_ m d hreach
      rw [length_append, length_singleton] at hlt
      rcases lt_concat_succ hlt with hlt | ⟨behind, rfl⟩
      · exact lt_trans hlt (lt_concat _ _)
      · rw [← singleton_append, ← append_assoc] at hreach ⊢
        cases behind with
        | nil =>
          rw [append_nil]
          exact lt_concat _ _
        | cons j behind =>
          obtain ⟨l', n'', c'', hinner', -⟩ := hchild.of_append hreach
          exact append_cons_lt _ _ (List.getElem?_eq_some_iff.1 hinner').1

end Sweeping

variable {N C L : Type} {edges : Edges N C L} {root : N × C} {done : List (N × C)}
  {log : List (N × L)}

def Covered (edges : Edges N C L) (root : N × C) (log : List (N × L)) : Prop :=
  ∀ path n c, Reaches edges root path n c → ∀ l ∈ labels edges n c, (n, l) ∈ log

theorem Traversed.swept (h : Traversed edges root done log) (hstable : Stable edges root)
    (hcovers : ∀ x ∈ done, (∃ path, First edges root path x.1 x.2) →
      ∀ path c, Reaches edges root path x.1 c → ∀ l ∈ labels edges x.1 c, l ∈ labels edges x.1 x.2) :
    Swept edges root [] [(edges root.1 root.2).length] done := by
  obtain ⟨inside, hruns, rfl⟩ := h
  have hfirst : First edges root [] root.1 root.2 :=
    ⟨reaches_nil, fun path' _ _ => not_lt_nil path'⟩
  have hbegin : Swept edges root [root.1] ([] ++ [([] : List (L × Option (N × C))).length]) [] := by
    refine ⟨forall_mem_nil _, forall_mem_nil _, ?_⟩
    intro path hlt n c hreach
    rcases lt_concat_zero hlt with hlt | rfl
    · exact absurd hlt (not_lt_nil path)
    · exact .inr ((reaches_nil.det hreach).1 ▸ mem_cons_self)
  have hinner := hruns.swept hstable
    (fun x hx => hcovers x (mem_append_left _ hx)) mem_cons_self
    ⟨fun n _ => not_mem_nil, nodup_nil⟩ reaches_nil (nil_append _).symm hbegin
  exact hinner.finish hfirst hruns.targets

theorem Traversed.nodup (h : Traversed edges root done log) : (done.map Prod.fst).Nodup := by
  obtain ⟨inside, hruns, rfl⟩ := h
  have hdistinct := hruns.distinct ⟨fun n _ => not_mem_nil, nodup_nil⟩
  exact (hdistinct.finish not_mem_nil root.2).nodup

theorem Swept.reached (h : Swept edges root [] [(edges root.1 root.2).length] done) {n : N} {c : C}
    (hpath : Reaches edges root path n c) : n ∈ done.map Prod.fst := by
  refine (h.before path ?_ n c hpath).resolve_right not_mem_nil
  cases path with
  | nil => exact nil_lt_cons _ _
  | cons i path =>
    have hcons : Reaches edges root ([] ++ i :: path) n c := hpath
    obtain ⟨l, n', c', hedge, -⟩ := reaches_nil.of_append hcons
    exact append_cons_lt [] _ (List.getElem?_eq_some_iff.1 hedge).1

theorem Traversed.mem_log_iff (h : Traversed edges root done log) (n : N) (l : L) :
    (n, l) ∈ log ↔ ∃ d, (n, d) ∈ done ∧ l ∈ labels edges n d := by
  obtain ⟨inside, hruns, rfl⟩ := h
  constructor
  · intro hlog
    rcases hruns.of_mem_log _ hlog with ⟨hn, e, he, hl⟩ | ⟨d, hd, hl⟩
    · have hroot : n = root.1 := hn
      refine ⟨root.2, mem_append_right _ (mem_singleton.2 ?_), ?_⟩
      · rw [hroot]
      · rw [hroot]
        exact mem_map.2 ⟨e, he, hl⟩
    · exact ⟨d, mem_append_left _ hd, hl⟩
  · rintro ⟨d, hd, hl⟩
    rcases mem_append.1 hd with hd | hd
    · exact ((hruns.logged.2 _ hd).resolve_left not_mem_nil) l hl
    · obtain rfl := mem_singleton.1 hd
      obtain ⟨e, he, rfl⟩ := mem_map.1 hl
      exact hruns.logged.1 e he

theorem Traversed.covered_iff (h : Traversed edges root done log) (hstable : Stable edges root) :
    Covered edges root log ↔ FirstsSuffice edges root := by
  constructor
  · intro hcovered path n c hfirst path' c' hpath' l hl
    have hswept := h.swept hstable fun x hx _ path c hpath l hl => by
      obtain ⟨d, hd, hl⟩ := (h.mem_log_iff x.1 l).1 (hcovered path x.1 c hpath l hl)
      rwa [(Prod.mk.inj (inj_on_of_nodup_map h.nodup hd hx rfl)).2] at hl
    obtain ⟨d, hd, hl⟩ := (h.mem_log_iff n l).1 (hcovered path' n c' hpath' l hl)
    obtain ⟨visited, hvisited⟩ := hswept.first _ hd
    have heq : path = visited := le_antisymm
      (not_lt.1 (hfirst.least visited d hvisited.reaches))
      (not_lt.1 (hvisited.least path c hfirst.reaches))
    subst heq
    rwa [(hfirst.reaches.det hvisited.reaches).2]
  · intro hfirsts path n c hpath l hl
    have hswept := h.swept hstable fun x _ hfirst path c hpath => by
      obtain ⟨visited, hvisited⟩ := hfirst
      exact hfirsts visited x.1 x.2 hvisited path c hpath
    obtain ⟨⟨n, d⟩, hd, rfl⟩ := mem_map.1 (hswept.reached hpath)
    obtain ⟨visited, hvisited⟩ := hswept.first _ hd
    exact (h.mem_log_iff n l).2 ⟨d, hd, hfirsts visited n d hvisited path c hpath l hl⟩

end Mlang.MemoTraversals
