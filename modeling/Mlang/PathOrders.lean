import Mathlib.Data.List.Perm.Subperm
import Mlang.MemoTraversals

namespace Mlang.PathOrders

open List Option


/-! A search that lists each node when it is first met, in front of what its own edges lead to. -/

open MemoTraversals (lt_concat append_cons_lt lt_concat_succ lt_concat_zero)
open Relation (TransGen ReflTransGen)

variable {N : Type} (children : N → List N)

/-- The nodes that are met from a list of options on, behind those that were met before. The number
bounds the depth. -/
def gather [DecidableEq N] : Nat → List N → List N → List N
  | 0, _, found => found
  | depth + 1, options, found =>
    options.foldl (fun found m => if m ∈ found then found else gather depth (children m) (found ++ [m]))
      found

def walk : List N → List Nat → Option N
  | _, [] => none
  | options, [i] => options[i]?
  | options, i :: j :: path => (options[i]?).bind fun m => walk (children m) (j :: path)

structure First (roots : List N) (path : List Nat) (n : N) : Prop where
  leads : walk children roots path = some n
  least : ∀ path', walk children roots path' = some n → path ≤ path'

def Child (n m : N) : Prop := m ∈ children n

variable {roots options : List N} {path : List Nat} {n m : N} {i : Nat}

section Walks

variable {children} {rest : List Nat}

theorem walk_append (hpath : path ≠ []) (hrest : rest ≠ []) :
    walk children options (path ++ rest) =
      (walk children options path).bind fun m => walk children (children m) rest := by
  induction path generalizing options with
  | nil => exact absurd rfl hpath
  | cons i path ih =>
    cases path with
    | nil =>
      cases rest with
      | nil => exact absurd rfl hrest
      | cons j rest => rfl
    | cons j path =>
      rw [cons_append, cons_append, walk, walk, ← cons_append]
      cases options[i]? with
      | none => rfl
      | some m => exact ih (cons_ne_nil _ _)

theorem ne_nil_of_walk (h : walk children options path = some n) : path ≠ [] := by
  rintro rfl
  cases h

theorem walk_concat (h : walk children roots path = some n) (i : Nat) :
    walk children roots (path ++ [i]) = (children n)[i]? := by
  rw [walk_append (ne_nil_of_walk h) (cons_ne_nil _ _), h]
  rfl

theorem getElem?_of_walk (h : walk children options (i :: rest) = some n) :
    ∃ m, options[i]? = some m := by
  cases rest with
  | nil => exact ⟨n, h⟩
  | cons j rest =>
    obtain ⟨m, hm, -⟩ := bind_eq_some_iff.1 h
    exact ⟨m, hm⟩

theorem trans_of_walk (h : walk children (children m) path = some n) : TransGen (Child children) m n := by
  induction path generalizing m with
  | nil => cases h
  | cons i path ih =>
    cases path with
    | nil => exact TransGen.single (mem_of_getElem? h)
    | cons j path =>
      obtain ⟨k, hk, hwalk⟩ := bind_eq_some_iff.1 h
      exact TransGen.head (mem_of_getElem? hk) (ih hwalk)

theorem walk_iff : (∃ path, walk children roots path = some n) ↔
    ∃ k ∈ roots, ReflTransGen (Child children) k n := by
  constructor
  · rintro ⟨path, hpath⟩
    cases path with
    | nil => cases hpath
    | cons i path =>
      obtain ⟨k, hk⟩ := getElem?_of_walk hpath
      refine ⟨k, mem_of_getElem? hk, ?_⟩
      cases path with
      | nil =>
        obtain rfl := some.inj (hk.symm.trans hpath)
        exact ReflTransGen.refl
      | cons j path =>
        rw [walk, hk] at hpath
        exact (trans_of_walk hpath).to_reflTransGen
  · rintro ⟨k, hk, hreach⟩
    induction hreach with
    | refl =>
      obtain ⟨i, hi⟩ := getElem?_of_mem hk
      exact ⟨[i], hi⟩
    | tail _ hstep ih =>
      obtain ⟨path, hpath⟩ := ih
      obtain ⟨i, hi⟩ := getElem?_of_mem hstep
      exact ⟨path ++ [i], (walk_concat hpath i).trans hi⟩

theorem First.unique {path' : List Nat} (h : First children roots path n)
    (h' : First children roots path' n) : path = path' :=
  le_antisymm (h.least path' h'.leads) (h'.least path h.leads)

end Walks

variable {found : List N} {position : List Nat} {depth : Nat}

section Sweeping

variable {children} {nodes : List N}

structure Swept (children : N → List N) (roots : List N) (position : List Nat) (found : List N) : Prop where
  nodup : found.Nodup
  before : ∀ path n, walk children roots path = some n → path < position → n ∈ found
  first : ∀ n ∈ found, ∃ path < position, First children roots path n
  sorted : found.Pairwise fun n m => ∀ path path', First children roots path n →
    First children roots path' m → path < path'

theorem lt_append_of_lt (rest : List Nat) (h : path < position) (hfront : ¬ path <+: position) :
    path ++ rest < position := by
  induction path generalizing position with
  | nil => exact absurd (List.nil_prefix) hfront
  | cons i path ih =>
    cases position with
    | nil => exact absurd h (not_lt_nil _)
    | cons j position =>
      rcases List.cons_lt_cons_iff.1 h with hlt | ⟨rfl, hlt⟩
      · exact List.cons_lt_cons_iff.2 (.inl hlt)
      · refine List.cons_lt_cons_iff.2 (.inr ⟨rfl, ih hlt fun hpath => hfront ?_⟩)
        exact cons_prefix_cons.2 ⟨rfl, hpath⟩

theorem Swept.pass (h : Swept children roots (path ++ [i]) found)
    (hacyclic : ∀ n, ¬ TransGen (Child children) n n) (hleads : walk children roots (path ++ [i]) = some n)
    (hfound : n ∈ found) : Swept children roots (path ++ [i + 1]) found := by
  have hlt : path ++ [i] < path ++ [i + 1] := append_cons_lt path [] (Nat.lt_succ_self i)
  refine ⟨h.nodup, fun path' m hpath' hbefore => ?_, fun m hm => ?_, h.sorted⟩
  · rcases lt_concat_succ hbefore with hbefore | ⟨rest, rfl⟩
    · exact h.before path' m hpath' hbefore
    · rw [← singleton_append, ← append_assoc] at hpath'
      cases rest with
      | nil =>
        rw [append_nil, hleads] at hpath'
        exact some.inj hpath' ▸ hfound
      | cons j rest =>
        rw [walk_append (append_ne_nil_of_right_ne_nil _ (cons_ne_nil _ _))
          (cons_ne_nil _ _), hleads] at hpath'
        obtain ⟨first, hfirstlt, hfirst⟩ := h.first n hfound
        refine h.before (first ++ j :: rest) m ?_ (lt_append_of_lt _ hfirstlt ?_)
        · rw [walk_append (ne_nil_of_walk hfirst.leads) (cons_ne_nil _ _), hfirst.leads]
          exact hpath'
        · rintro ⟨behind, hbehind⟩
          -- a path to the node that goes on to it is a cycle
          have hne : behind ≠ [] := by
            rintro rfl
            rw [append_nil] at hbehind
            exact lt_irrefl _ (hbehind ▸ hfirstlt)
          rw [← hbehind, walk_append (ne_nil_of_walk hfirst.leads) hne, hfirst.leads] at hleads
          exact hacyclic n (trans_of_walk hleads)
  · obtain ⟨first, hfirstlt, hfirst⟩ := h.first m hm
    exact ⟨first, lt_trans hfirstlt hlt, hfirst⟩

theorem Swept.meet (h : Swept children roots path found) (hleads : walk children roots path = some n)
    (hnew : n ∉ found) : Swept children roots (path ++ [0]) (found ++ [n]) := by
  have hfirst : First children roots path n :=
    ⟨hleads, fun path' hpath' => not_lt.1 fun hlt => hnew (h.before path' n hpath' hlt)⟩
  refine ⟨?_, fun path' m hpath' hlt => ?_, fun m hm => ?_, ?_⟩
  · exact concat_eq_append ▸ List.Nodup.concat hnew h.nodup
  · rcases lt_concat_zero hlt with hlt | rfl
    · exact mem_append_left _ (h.before path' m hpath' hlt)
    · rw [hleads] at hpath'
      exact mem_append_right _ (mem_singleton.2 (some.inj hpath').symm)
  · rcases mem_append.1 hm with hm | hm
    · obtain ⟨first, hfirstlt, hfirst⟩ := h.first m hm
      exact ⟨first, lt_trans hfirstlt (lt_concat path 0), hfirst⟩
    · obtain rfl := mem_singleton.1 hm
      exact ⟨path, lt_concat path 0, hfirst⟩
  · refine pairwise_append.2 ⟨h.sorted, pairwise_singleton _ _, fun a ha b hb s t hs ht => ?_⟩
    obtain rfl := mem_singleton.1 hb
    obtain ⟨first, hfirstlt, hfirst'⟩ := h.first a ha
    rw [hs.unique hfirst', ht.unique hfirst]
    exact hfirstlt

theorem Swept.leave (h : Swept children roots (path ++ [i] ++ [(children n).length]) found)
    (hleads : walk children roots (path ++ [i]) = some n) (hfound : n ∈ found) :
    Swept children roots (path ++ [i + 1]) found := by
  refine ⟨h.nodup, fun path' m hpath' hbefore => ?_, fun m hm => ?_, h.sorted⟩
  · rcases lt_concat_succ hbefore with hbefore | ⟨rest, rfl⟩
    · exact h.before path' m hpath' (lt_trans hbefore (lt_concat _ _))
    · rw [← singleton_append, ← append_assoc] at hpath'
      cases rest with
      | nil =>
        rw [append_nil, hleads] at hpath'
        exact some.inj hpath' ▸ hfound
      | cons j rest =>
        refine h.before _ m hpath' (append_cons_lt _ rest ?_)
        rw [walk_append (append_ne_nil_of_right_ne_nil _ (cons_ne_nil _ _))
          (cons_ne_nil _ _), hleads] at hpath'
        obtain ⟨k, hk⟩ := getElem?_of_walk hpath'
        exact (List.getElem?_eq_some_iff.1 hk).1
  · obtain ⟨first, hfirstlt, hfirst⟩ := h.first m hm
    refine ⟨first, lt_trans hfirstlt ?_, hfirst⟩
    rw [append_assoc]
    exact append_cons_lt path _ (Nat.lt_succ_self i)

theorem gather_swept [DecidableEq N] (hacyclic : ∀ n, ¬ TransGen (Child children) n n)
    (hnodes : ∀ n ∈ nodes, ∀ m ∈ children n, m ∈ nodes) (hdepth : nodes.length < depth + found.length)
    (hfound : found ⊆ nodes) (hoptions : options ⊆ nodes)
    (hcontext : ∀ rest, rest ≠ [] → walk children roots (path ++ rest) = walk children options rest)
    (h : Swept children roots (path ++ [0]) found) :
    Swept children roots (path ++ [options.length]) (gather children depth options found) ∧
    found ⊆ gather children depth options found ∧ gather children depth options found ⊆ nodes := by
  induction depth generalizing options found path with
  | zero =>
    have hlength := (subperm_of_subset h.nodup hfound).length_le
    omega
  | succ depth ih =>
    have hloop : ∀ front rest found, options = front ++ rest → found ⊆ nodes →
        nodes.length < depth + 1 + found.length →
        Swept children roots (path ++ [front.length]) found →
        Swept children roots (path ++ [options.length]) (rest.foldl (fun found m =>
            if m ∈ found then found else gather children depth (children m) (found ++ [m])) found) ∧
          found ⊆ rest.foldl (fun found m =>
            if m ∈ found then found else gather children depth (children m) (found ++ [m])) found ∧
          rest.foldl (fun found m =>
            if m ∈ found then found else gather children depth (children m) (found ++ [m])) found ⊆
              nodes := by
      intro front rest
      induction rest generalizing front with
      | nil =>
        rintro found rfl hfound - h
        rw [append_nil]
        exact ⟨h, List.Subset.refl _, hfound⟩
      | cons m rest ihRest =>
        intro found hsplit hfound hdepth h
        have hoption : options[front.length]? = some m := by
          rw [hsplit, getElem?_append_right (Nat.le_refl _), Nat.sub_self]
          rfl
        have hleads : walk children roots (path ++ [front.length]) = some m :=
          (hcontext _ (cons_ne_nil _ _)).trans hoption
        have hsplit' : options = (front ++ [m]) ++ rest := by
          rw [hsplit, append_assoc, singleton_append]
        have hlength : (front ++ [m]).length = front.length + 1 := by
          rw [length_append, length_singleton]
        have hm : m ∈ nodes := hoptions (mem_of_getElem? hoption)
        rw [foldl_cons]
        by_cases hmem : m ∈ found
        · rw [if_pos hmem]
          refine ihRest (front ++ [m]) found hsplit' hfound hdepth ?_
          rw [hlength]
          exact h.pass hacyclic hleads hmem
        · rw [if_neg hmem]
          have hconcat : found ++ [m] ⊆ nodes :=
            append_subset.2 ⟨hfound, cons_subset.2 ⟨hm, nil_subset _⟩⟩
          have hinner := ih (by
              rw [length_append, length_singleton]
              omega) hconcat (hnodes m hm) (fun rest hrest => by
              rw [walk_append (ne_nil_of_walk hleads) hrest, hleads]
              rfl) (h.meet hleads hmem)
          have hsub : found ⊆ gather children depth (children m) (found ++ [m]) :=
            List.Subset.trans (subset_append_left _ _) hinner.2.1
          have hgrown := (subperm_of_subset h.nodup hsub).length_le
          have hnext := ihRest (front ++ [m]) _ hsplit' hinner.2.2 (by omega) (by
            rw [hlength]
            exact hinner.1.leave hleads (hinner.2.1 (mem_append_right _ (mem_singleton_self m))))
          exact ⟨hnext.1, List.Subset.trans hsub hnext.2.1, hnext.2.2⟩
    exact hloop [] options found rfl hfound hdepth h

end Sweeping

variable {children} {nodes : List N}

theorem gather_roots [DecidableEq N] (hacyclic : ∀ n, ¬ TransGen (Child children) n n)
    (hnodes : ∀ n ∈ nodes, ∀ m ∈ children n, m ∈ nodes) (hroots : roots ⊆ nodes)
    (hdepth : nodes.length < depth) :
    Swept children roots [roots.length] (gather children depth roots []) ∧
      ∀ n, n ∈ gather children depth roots [] ↔ ∃ k ∈ roots, ReflTransGen (Child children) k n := by
  have hstart : Swept children roots ([] ++ [0]) [] := by
    refine ⟨nodup_nil, fun path n hpath hlt => ?_, forall_mem_nil _, List.Pairwise.nil⟩
    rcases lt_concat_zero hlt with hlt | rfl
    · exact absurd hlt (not_lt_nil path)
    · cases hpath
  have hswept := (gather_swept hacyclic hnodes (by simpa using hdepth) (nil_subset _) hroots
    (fun rest _ => rfl) hstart).1
  rw [nil_append] at hswept
  refine ⟨hswept, fun n => ?_⟩
  rw [← walk_iff]
  constructor
  · intro hn
    obtain ⟨path, -, hfirst⟩ := hswept.first n hn
    exact ⟨path, hfirst.leads⟩
  · rintro ⟨path, hpath⟩
    refine hswept.before path n hpath ?_
    cases path with
    | nil => cases hpath
    | cons i path =>
      obtain ⟨k, hk⟩ := getElem?_of_walk hpath
      exact List.cons_lt_cons_iff.2 (.inl (List.getElem?_eq_some_iff.1 hk).1)

theorem Swept.forward_iff (h : Swept children roots position found)
    (hacyclic : ∀ n, ¬ TransGen (Child children) n n)
    (hall : ∀ n, n ∈ found ↔ ∃ k ∈ roots, ReflTransGen (Child children) k n) :
    (∀ before m after, found = before ++ m :: after → ∀ n ∈ after, m ∉ children n) ↔ ∀ n m path path',
    First children roots path n → First children roots path' m → Child children n m → path < path' := by
  constructor
  · intro hforward n m path path' hn hm hchild
    have hmem : ∀ {k path}, First children roots path k → k ∈ found := fun hk =>
      (hall _).2 (walk_iff.1 ⟨_, hk.leads⟩)
    obtain ⟨before, after, hsplit⟩ := append_of_mem (hmem hm)
    have hsorted := h.sorted
    rw [hsplit] at hsorted
    have hn' := hmem hn
    rw [hsplit] at hn'
    rcases mem_append.1 hn' with hbefore | hafter
    · exact (pairwise_append.1 hsorted).2.2 n hbefore m mem_cons_self path path' hn hm
    · rcases mem_cons.1 hafter with rfl | hafter
      · exact absurd (TransGen.single hchild) (hacyclic n)
      · exact absurd hchild (hforward before m after hsplit n hafter)
  · rintro hforward before m after rfl n hn hchild
    obtain ⟨path, -, hpath⟩ := h.first n (mem_append_right _ (mem_cons_of_mem _ hn))
    obtain ⟨path', -, hpath'⟩ := h.first m (mem_append_right _ mem_cons_self)
    have hlt := hforward n m path path' hpath hpath' hchild
    have hgt := (pairwise_cons.1 (pairwise_append.1 h.sorted).2.1).1 n hn path' path hpath' hpath
    exact lt_asymm hlt hgt

end Mlang.PathOrders
