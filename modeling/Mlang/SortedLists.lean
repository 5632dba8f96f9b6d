import Mathlib.Data.Finset.Sort

namespace Mlang.SortedLists

open List


/-! Lists that are kept in the order of the keys of their entries: the search that halves what is
left, the cut at a place that it found, and the walk that merges two of them. -/

variable {E K : Type}
variable {e : E} {entries : List E} {i : Nat}

/-- The loop of a search that has `count` entries left, from the first of them on. -/
def halve (test : E → Bool) (entries : List E) (first count : Nat) : Nat :=
  if count = 0 then first
  else
    let step := count / 2
    let middle := first + step
    if (entries[middle]?).any test then halve test entries (middle + 1) (count - step - 1)
    else halve test entries first step
termination_by count

def search (test : E → Bool) (entries : List E) : Nat := halve test entries 0 entries.length

def Parted (test : E → Bool) (entries : List E) : Prop :=
  entries.Pairwise fun a b => test b = true → test a = true

variable {test : E → Bool} {first count : Nat}

variable (h : Parted test entries)
include h

theorem Parted.filter_append :
    entries.filter test ++ entries.filter (fun e => !test e) = entries := by
  induction entries with
  | nil => rfl
  | cons a rest ih =>
    obtain ⟨ha, hrest⟩ := pairwise_cons.1 h
    cases hat : test a with
    | true => rw [filter_cons_of_pos hat, filter_cons_of_neg (by rw [hat]; decide),
        cons_append, ih hrest]
    | false =>
      have hnone : ∀ b ∈ rest, test b = false := fun b hb =>
        Bool.eq_false_iff.2 fun hbt => Bool.false_ne_true (hat.symm.trans (ha b hb hbt))
      have hempty : (a :: rest).filter test = [] := by
        rw [filter_eq_nil_iff]
        intro b hb
        rcases mem_cons.1 hb with rfl | hb
        · rw [hat]; exact Bool.false_ne_true
        · rw [hnone b hb]; exact Bool.false_ne_true
      have hall : (a :: rest).filter (fun e => !test e) = a :: rest := by
        rw [filter_eq_self]
        intro b hb
        rcases mem_cons.1 hb with rfl | hb
        · rw [hat]; rfl
        · rw [hnone b hb]; rfl
      rw [hempty, hall, nil_append]

theorem Parted.take_countP :
    entries.take (entries.countP test) = entries.filter test := by
  have htake : (entries.filter test ++ entries.filter fun e => !test e).take
      (entries.filter test).length = entries.filter test := take_left
  rwa [h.filter_append, ← countP_eq_length_filter] at htake

theorem Parted.drop_countP :
    entries.drop (entries.countP test) = entries.filter fun e => !test e := by
  have hdrop : (entries.filter test ++ entries.filter fun e => !test e).drop
      (entries.filter test).length = entries.filter fun e => !test e := drop_left
  rwa [h.filter_append, ← countP_eq_length_filter] at hdrop

theorem Parted.test_iff (he : entries[i]? = some e) :
    test e = true ↔ i < entries.countP test := by
  constructor
  · intro hpass
    by_contra hlt
    have hdrop : e ∈ entries.drop (entries.countP test) := by
      refine mem_of_getElem? (i := i - entries.countP test) ?_
      rwa [getElem?_drop, Nat.add_sub_cancel' (Nat.le_of_not_lt hlt)]
    rw [h.drop_countP] at hdrop
    have hfail := of_mem_filter hdrop
    rw [hpass] at hfail
    exact Bool.false_ne_true hfail
  · intro hlt
    have htake : e ∈ entries.take (entries.countP test) := by
      refine mem_of_getElem? (i := i) ?_
      rwa [getElem?_take_of_lt hlt]
    rw [h.take_countP] at htake
    exact of_mem_filter htake

theorem Parted.halve_eq (hlow : first ≤ entries.countP test)
    (hhigh : entries.countP test ≤ first + count) (hlen : first + count ≤ entries.length) :
    halve test entries first count = entries.countP test := by
  fun_induction halve test entries first count with
  | case1 first => exact Nat.le_antisymm hlow hhigh
  | case2 first count hcount step middle htest ih =>
    have hlt : middle < entries.length := by omega
    rw [getElem?_eq_getElem hlt, Option.any_some] at htest
    have hmiddle := (h.test_iff (getElem?_eq_getElem hlt)).1 htest
    exact ih hmiddle (by omega) (by omega)
  | case3 first count hcount step middle htest ih =>
    have hlt : middle < entries.length := by omega
    rw [getElem?_eq_getElem hlt, Option.any_some] at htest
    have hmiddle := mt (h.test_iff (getElem?_eq_getElem hlt)).2 htest
    exact ih hlow (Nat.le_of_not_lt hmiddle) (by omega)

theorem Parted.search_eq : search test entries = entries.countP test :=
  h.halve_eq (Nat.zero_le _) (by rw [Nat.zero_add]; exact countP_le_length)
    (Nat.le_of_eq (Nat.zero_add _))

theorem Parted.getElem?_search :
    entries[search test entries]? = (entries.filter fun e => !test e).head? := by
  rw [h.search_eq, ← h.drop_countP, head?_drop]

omit h

variable {C : Type} (gone : E → Bool) (mark : C → C)

def sieveStep (s : List E × C) (e : E) : List E × C :=
  if gone e then (s.1, mark s.2) else (s.1 ++ [e], s.2)

def sieve (entries : List E) (start : C) : List E × C :=
  entries.foldl (sieveStep gone mark) ([], start)

theorem foldl_sieveStep {gone : E → Bool} {mark : C → C} {kept : List E} {start : C} :
    entries.foldl (sieveStep gone mark) (kept, start) =
    (kept ++ entries.filter (fun e => !gone e), mark^[entries.countP gone] start) := by
  induction entries generalizing kept start with
  | nil => rw [foldl_nil, filter_nil, append_nil, countP_nil]; rfl
  | cons e entries ih =>
    rw [foldl_cons, sieveStep]
    cases he : gone e with
    | true =>
      rw [if_pos rfl, ih, filter_cons_of_neg (by rw [he]; decide), countP_cons_of_pos he]
      rfl
    | false =>
      rw [if_neg Bool.false_ne_true, ih, filter_cons_of_pos (by rw [he]; rfl),
        countP_cons_of_neg (by rw [he]; decide), append_assoc, singleton_append]

theorem sieve_eq {gone : E → Bool} {mark : C → C} {start : C} :
    sieve gone mark entries start = (entries.filter (fun e => !gone e), mark^[entries.countP gone] start) :=
  foldl_sieveStep

theorem sieve_count {gone : E → Bool} :
    sieve gone (· + 1) entries 0 = (entries.filter (fun e => !gone e), entries.countP gone) := by
  have hiterate : ∀ n : Nat, (· + 1)^[n] 0 = n := by
    intro n
    induction n with
    | zero => rfl
    | succ n ih => rw [Function.iterate_succ_apply', ih]
  rw [sieve_eq, hiterate]

theorem sieve_found {gone : E → Bool} :
    sieve gone (fun _ => true) entries false = (entries.filter (fun e => !gone e), entries.any gone) := by
  have hiterate : ∀ n : Nat, (fun _ : Bool => true)^[n] false = decide (0 < n) := by
    intro n
    cases n with
    | zero => rfl
    | succ n => rw [Function.iterate_succ_apply', decide_eq_true n.succ_pos]
  rw [sieve_eq, hiterate, Prod.mk.injEq, Bool.eq_iff_iff, decide_eq_true_eq, countP_pos_iff, any_eq_true]
  exact ⟨rfl, Iff.rfl⟩

variable {a : E} {k : K} {keys : List K}

section Increasing

def ascendsFrom [LT K] [DecidableLT K] : K → List K → Bool
  | _, [] => true
  | before, k :: keys => decide (before < k) && ascendsFrom k keys

def ascends [LT K] [DecidableLT K] : List K → Bool
  | [] => true
  | k :: keys => ascendsFrom k keys

variable [LinearOrder K] (key : E → K)

def Increasing (entries : List E) : Prop := entries.Pairwise fun a b => key a < key b

def place (e : E) (entries : List E) : List E :=
  entries.filter (fun a => decide (key a < key e)) ++
    e :: entries.filter (fun a => decide (key e < key a))

variable {key} {front back : List E}

theorem increasing_nil : Increasing key ([] : List E) := List.Pairwise.nil

theorem Increasing.filter (h : Increasing key entries) (p : E → Bool) :
    Increasing key (entries.filter p) := List.Pairwise.filter p h

theorem Increasing.nodup (h : Increasing key entries) : (entries.map key).Nodup := by
  rw [List.Nodup, pairwise_map]
  exact h.imp fun hlt => ne_of_lt hlt

theorem ascendsFrom_iff : ascendsFrom k keys = true ↔ (k :: keys).Pairwise (· < ·) := by
  rw [← isChain_iff_pairwise]
  induction keys generalizing k with
  | nil => exact ⟨fun _ => .singleton k, fun _ => rfl⟩
  | cons a keys ih =>
    rw [ascendsFrom, Bool.and_eq_true, decide_eq_true_eq, ih, isChain_cons_cons]

theorem ascends_iff : ascends keys = true ↔ keys.Pairwise (· < ·) := by
  cases keys with
  | nil => exact ⟨fun _ => .nil, fun _ => rfl⟩
  | cons k keys => exact ascendsFrom_iff

theorem Increasing.parted (h : Increasing key entries) {p : K → Bool}
    (hdown : ∀ a b, a < b → p b = true → p a = true) : Parted (fun e => p (key e)) entries :=
  h.imp fun hlt => hdown _ _ hlt

theorem Increasing.lt (h : Increasing key (front ++ e :: back)) :
    (∀ a ∈ front, key a < key e) ∧ ∀ a ∈ back, key e < key a := by
  obtain ⟨-, hback, hcross⟩ := List.pairwise_append.1 h
  exact ⟨fun a ha => hcross a ha e mem_cons_self, (pairwise_cons.1 hback).1⟩

theorem Increasing.filter_lt (h : Increasing key (front ++ e :: back)) :
    (front ++ e :: back).filter (fun a => decide (key a < key e)) = front := by
  obtain ⟨hfront, hback⟩ := h.lt
  have hkept : front.filter (fun a => decide (key a < key e)) = front :=
    filter_eq_self.2 fun a ha => decide_eq_true (hfront a ha)
  have hgone : back.filter (fun a => decide (key a < key e)) = [] :=
    filter_eq_nil_iff.2 fun a ha => by
      rw [decide_eq_true_eq]
      exact lt_asymm (hback a ha)
  rw [filter_append, filter_cons_of_neg (by simp), hkept, hgone, append_nil]

theorem Increasing.filter_gt (h : Increasing key (front ++ e :: back)) :
    (front ++ e :: back).filter (fun a => decide (key e < key a)) = back := by
  obtain ⟨hfront, hback⟩ := h.lt
  have hgone : front.filter (fun a => decide (key e < key a)) = [] :=
    filter_eq_nil_iff.2 fun a ha => by
      rw [decide_eq_true_eq]
      exact lt_asymm (hfront a ha)
  have hkept : back.filter (fun a => decide (key e < key a)) = back :=
    filter_eq_self.2 fun a ha => decide_eq_true (hback a ha)
  rw [filter_append, filter_cons_of_neg (by simp), hgone, hkept, nil_append]

theorem Increasing.filter_ne (h : Increasing key (front ++ e :: back)) :
    (front ++ e :: back).filter (fun a => decide (key a ≠ key e)) = front ++ back := by
  obtain ⟨hfront, hback⟩ := h.lt
  have hlow : front.filter (fun a => decide (key a ≠ key e)) = front :=
    filter_eq_self.2 fun a ha => decide_eq_true (hfront a ha).ne
  have hhigh : back.filter (fun a => decide (key a ≠ key e)) = back :=
    filter_eq_self.2 fun a ha => decide_eq_true (hback a ha).ne'
  rw [filter_append, filter_cons_of_neg (by simp), hlow, hhigh]

theorem increasing_place (h : Increasing key entries) : Increasing key (place key e entries) := by
  refine List.pairwise_append.2 ⟨h.filter _, pairwise_cons.2 ⟨?_, h.filter _⟩, ?_⟩
  · intro a ha
    exact of_decide_eq_true (mem_filter.1 ha).2
  · intro a ha b hb
    have hlow := of_decide_eq_true (mem_filter.1 ha).2
    rcases mem_cons.1 hb with rfl | hb
    · exact hlow
    · exact hlow.trans (of_decide_eq_true (mem_filter.1 hb).2)

theorem mem_place : a ∈ place key e entries ↔ a = e ∨ a ∈ entries ∧ key a ≠ key e := by
  rw [place, mem_append, mem_cons, mem_filter, mem_filter,
    decide_eq_true_eq, decide_eq_true_eq, ne_iff_lt_or_gt]
  tauto

theorem place_of_lt (h : ∀ a ∈ entries, key e < key a) : place key e entries = e :: entries := by
  have hlow : entries.filter (fun a => decide (key a < key e)) = [] :=
    filter_eq_nil_iff.2 fun a ha => by
      rw [decide_eq_true_eq]
      exact lt_asymm (h a ha)
  rw [place, hlow, nil_append, filter_eq_self.2 fun a ha => decide_eq_true (h a ha)]

theorem place_cons_of_lt (h : key a < key e) : place key e (a :: entries) = a :: place key e entries := by
  have hin : (a :: entries).filter (fun a => decide (key a < key e)) =
      a :: entries.filter (fun a => decide (key a < key e)) :=
    filter_cons_of_pos (decide_eq_true h)
  have hout : (a :: entries).filter (fun a => decide (key e < key a)) =
      entries.filter (fun a => decide (key e < key a)) :=
    filter_cons_of_neg (by rw [decide_eq_true_eq]; exact lt_asymm h)
  rw [place, hin, hout, place, cons_append]

theorem place_cons_of_eq (h : key a = key e) (hall : ∀ b ∈ entries, key e < key b) :
    place key e (a :: entries) = e :: entries := by
  have hlow : (a :: entries).filter (fun a => decide (key a < key e)) =
      entries.filter (fun a => decide (key a < key e)) :=
    filter_cons_of_neg (by rw [decide_eq_true_eq, h]; exact lt_irrefl _)
  have hhigh : (a :: entries).filter (fun a => decide (key e < key a)) =
      entries.filter (fun a => decide (key e < key a)) :=
    filter_cons_of_neg (by rw [decide_eq_true_eq, h]; exact lt_irrefl _)
  rw [place, hlow, hhigh, ← place, place_of_lt hall]

end Increasing

variable {key : E → K}

section Cutting

variable [LinearOrder K] {e' : E} {below : K → Bool}

theorem exists_cut (he : entries[i]? = some e) :
    entries = entries.take i ++ e :: entries.drop (i + 1) := by
  obtain ⟨hlt, rfl⟩ := List.getElem?_eq_some_iff.1 he
  rw [getElem_cons_drop, take_append_drop]

theorem Increasing.take_eq (h : Increasing key entries) (he : entries[i]? = some e) :
    entries.take i = entries.filter fun a => decide (key a < key e) := by
  have hcut := exists_cut he
  rw [hcut] at h
  conv_rhs => rw [hcut]
  exact h.filter_lt.symm

theorem Increasing.drop_eq (h : Increasing key entries) (he : entries[i]? = some e) :
    entries.drop (i + 1) = entries.filter fun a => decide (key e < key a) := by
  have hcut := exists_cut he
  rw [hcut] at h
  conv_rhs => rw [hcut]
  exact h.filter_gt.symm

theorem Increasing.without_eq (h : Increasing key entries) (he : entries[i]? = some e) :
    entries.take i ++ entries.drop (i + 1) = entries.filter fun a => decide (key a ≠ key e) := by
  have hcut := exists_cut he
  rw [hcut] at h
  conv_rhs => rw [hcut]
  exact h.filter_ne.symm

theorem Increasing.replaced_eq (h : Increasing key entries) (e' : E) (he : entries[i]? = some e)
    (hkey : key e = key e') : entries.take i ++ e' :: entries.drop (i + 1) = place key e' entries := by
  rw [h.take_eq he, h.drop_eq he, hkey, place]

theorem Increasing.search_eq (h : Increasing key entries)
    (hdown : ∀ a b, a < b → below b = true → below a = true) :
    search (fun e => below (key e)) entries = (entries.map key).countP below := by
  rw [(h.parted hdown).search_eq, countP_map]
  rfl

theorem Increasing.search_cases (h : Increasing key entries) (below : K → Bool)
    (hdown : ∀ a b, a < b → below b = true → below a = true) :
    (entries[search (fun e => below (key e)) entries]? = none ∧ ∀ a ∈ entries, below (key a) = true) ∨
      ∃ e, entries[search (fun e => below (key e)) entries]? = some e ∧ e ∈ entries ∧
        below (key e) = false ∧ ∀ a ∈ entries, below (key a) = false → key e ≤ key a := by
  have hfound := (h.parted hdown).getElem?_search
  cases hrest : entries.filter fun e => !below (key e) with
  | nil =>
    rw [hrest] at hfound
    refine .inl ⟨hfound, fun a ha => ?_⟩
    have hnot := filter_eq_nil_iff.1 hrest a ha
    rwa [Bool.not_eq_true, Bool.not_eq_false'] at hnot
  | cons e rest =>
    rw [hrest] at hfound
    have hsorted := h.filter fun e => !below (key e)
    rw [hrest] at hsorted
    have he : e ∈ entries.filter fun e => !below (key e) := by
      rw [hrest]
      exact mem_cons_self
    obtain ⟨hmem, hnot⟩ := mem_filter.1 he
    rw [Bool.not_eq_true'] at hnot
    refine .inr ⟨e, hfound, hmem, hnot, fun a ha hbelow => ?_⟩
    have hrest' : a ∈ e :: rest := by
      rw [← hrest]
      exact mem_filter.2 ⟨ha, by rw [hbelow]; rfl⟩
    rcases mem_cons.1 hrest' with rfl | hrest'
    · exact le_rfl
    · exact ((pairwise_cons.1 hsorted).1 a hrest').le

theorem below_lt {a b : K} (hlt : a < b) (hb : decide (b < k) = true) : decide (a < k) = true :=
  decide_eq_true (hlt.trans (of_decide_eq_true hb))

/-- The place of the first key that is not less than a key. -/
theorem Increasing.lower_cases (h : Increasing key entries) :
    (∃ e, entries[search (fun e => decide (key e < k)) entries]? = some e ∧ e ∈ entries ∧ key e = k) ∨
      (∀ a ∈ entries, key a ≠ k) ∧
        ∀ e, entries[search (fun e => decide (key e < k)) entries]? = some e → k < key e := by
  rcases h.search_cases (fun a => decide (a < k)) fun a b => below_lt with
    ⟨hnone, hall⟩ | ⟨e, he, hmem, hnot, hleast⟩
  · exact .inr ⟨fun a ha => (of_decide_eq_true (hall a ha)).ne, fun e he => nomatch hnone.symm.trans he⟩
  · have hle : k ≤ key e := not_lt.1 (of_decide_eq_false hnot)
    rcases hle.eq_or_lt with heq | hlt
    · exact .inl ⟨e, he, hmem, heq.symm⟩
    · refine .inr ⟨fun a ha hkey => ?_, fun e' he' => ?_⟩
      · have hle' := hleast a ha (decide_eq_false (by rw [hkey]; exact lt_irrefl k))
        rw [hkey] at hle'
        exact not_lt.2 hle' hlt
      · obtain rfl := Option.some.inj (he.symm.trans he')
        exact hlt

theorem Increasing.placed_eq (h : Increasing key entries) (hnew : ∀ a ∈ entries, key a ≠ key e) :
    entries.take (search (fun a => decide (key a < key e)) entries) ++
      e :: entries.drop (search (fun a => decide (key a < key e)) entries) = place key e entries := by
  have hparted : Parted (fun a => decide (key a < key e)) entries :=
    h.parted (p := fun a => decide (a < key e)) fun a b => below_lt
  rw [hparted.search_eq, hparted.take_countP, hparted.drop_countP, place]
  congr 2
  refine filter_congr fun a ha => ?_
  rcases lt_trichotomy (key a) (key e) with hlt | heq | hgt
  · rw [decide_eq_true hlt, decide_eq_false (lt_asymm hlt)]; rfl
  · exact absurd heq (hnew a ha)
  · rw [decide_eq_false (lt_asymm hgt), decide_eq_true hgt]; rfl

end Cutting

variable {destination : List E}

theorem mem_keys_cons_iff {d : E} (h : key d ≠ key a) :
    key a ∈ (d :: destination).map key ↔ key a ∈ destination.map key := by
  rw [map_cons, mem_cons, or_iff_right h.symm]

variable [LinearOrder K] (key : E → K)

/-- The entries that are kept of two lists, those of the second that stay behind because the first
has their keys, and how many of the second are kept. -/
def mergeWalk : List E → List E → List E × List E × Nat
  | [], source => (source, [], source.length)
  | d :: destination, [] => (d :: destination, [], 0)
  | d :: destination, s :: source =>
    if key d < key s then
      let r := mergeWalk destination (s :: source)
      (d :: r.1, r.2)
    else if key s < key d then
      let r := mergeWalk (d :: destination) source
      (s :: r.1, r.2.1, r.2.2 + 1)
    else
      let r := mergeWalk destination source
      (d :: r.1, s :: r.2.1, r.2.2)
termination_by destination source => destination.length + source.length

variable {key} {source : List E}

theorem notMem_keys_of_lt (h : ∀ a ∈ entries, k < key a) : k ∉ entries.map key := fun hk => by
  obtain ⟨a, ha, rfl⟩ := mem_map.1 hk
  exact lt_irrefl _ (h a ha)

theorem Increasing.all_lt {d s : E} (hs : Increasing key (s :: source)) (hlt : key d < key s) :
    ∀ a ∈ s :: source, key d < key a := by
  intro a ha
  rcases mem_cons.1 ha with rfl | ha
  · exact hlt
  · exact hlt.trans ((pairwise_cons.1 hs).1 a ha)

variable (hd : Increasing key destination)
include hd

variable (hs : Increasing key source)
include hs

theorem mem_mergeWalk :
    a ∈ (mergeWalk key destination source).1 ↔
      a ∈ destination ∨ a ∈ source ∧ key a ∉ destination.map key := by
  fun_induction mergeWalk key destination source with
  | case1 source => simp
  | case2 d destination => simp
  | case3 d destination s source hlt r ih =>
    have hall := hs.all_lt hlt
    rw [mem_cons, ih (pairwise_cons.1 hd).2 hs, mem_cons (l := destination), or_assoc]
    refine or_congr_right (or_congr_right (and_congr_right fun ha => ?_))
    rw [mem_keys_cons_iff (hall a ha).ne]
  | case4 d destination s source hnlt hlt r ih =>
    have hall := hd.all_lt hlt
    rw [mem_cons, ih hd (pairwise_cons.1 hs).2, mem_cons (l := source), or_and_right, or_left_comm]
    refine or_congr_right (or_congr_left ⟨?_, And.left⟩)
    rintro rfl
    exact ⟨rfl, notMem_keys_of_lt hall⟩
  | case5 d destination s source hnlt hnlt' r ih =>
    have heq : key d = key s := le_antisymm (not_lt.1 hnlt') (not_lt.1 hnlt)
    obtain ⟨hsource, hs'⟩ := pairwise_cons.1 hs
    rw [mem_cons, ih (pairwise_cons.1 hd).2 hs', mem_cons (l := destination),
      mem_cons (l := source), or_assoc]
    refine or_congr_right (or_congr_right ⟨?_, ?_⟩)
    · rintro ⟨ha, hnew⟩
      refine ⟨.inr ha, ?_⟩
      rwa [mem_keys_cons_iff (heq.trans_lt (hsource a ha)).ne]
    · rintro ⟨rfl | ha, hnew⟩
      · exact absurd (mem_map.2 ⟨d, mem_cons_self, heq⟩) hnew
      · rw [mem_keys_cons_iff (heq.trans_lt (hsource a ha)).ne] at hnew
        exact ⟨ha, hnew⟩

theorem increasing_mergeWalk :
    Increasing key (mergeWalk key destination source).1 := by
  fun_induction mergeWalk key destination source with
  | case1 source => exact hs
  | case2 d destination => exact hd
  | case3 d destination s source hlt r ih =>
    obtain ⟨hdest, hd'⟩ := pairwise_cons.1 hd
    refine pairwise_cons.2 ⟨fun a ha => ?_, ih hd' hs⟩
    rcases (mem_mergeWalk hd' hs).1 ha with ha | ⟨ha, -⟩
    · exact hdest a ha
    · exact hs.all_lt hlt a ha
  | case4 d destination s source hnlt hlt r ih =>
    obtain ⟨hsource, hs'⟩ := pairwise_cons.1 hs
    refine pairwise_cons.2 ⟨fun a ha => ?_, ih hd hs'⟩
    rcases (mem_mergeWalk hd hs').1 ha with ha | ⟨ha, -⟩
    · exact hd.all_lt hlt a ha
    · exact hsource a ha
  | case5 d destination s source hnlt hnlt' r ih =>
    have heq : key d = key s := le_antisymm (not_lt.1 hnlt') (not_lt.1 hnlt)
    obtain ⟨hdest, hd'⟩ := pairwise_cons.1 hd
    obtain ⟨hsource, hs'⟩ := pairwise_cons.1 hs
    refine pairwise_cons.2 ⟨fun a ha => ?_, ih hd' hs'⟩
    rcases (mem_mergeWalk hd' hs').1 ha with ha | ⟨ha, -⟩
    · exact hdest a ha
    · exact heq.trans_lt (hsource a ha)

theorem mergeWalk_retained :
    (mergeWalk key destination source).2.1 =
      source.filter fun a => decide (key a ∈ destination.map key) := by
  fun_induction mergeWalk key destination source with
  | case1 source => simp
  | case2 d destination => simp
  | case3 d destination s source hlt r ih =>
    rw [ih (pairwise_cons.1 hd).2 hs]
    refine filter_congr fun a ha => ?_
    exact decide_eq_decide.2 (mem_keys_cons_iff (hs.all_lt hlt a ha).ne).symm
  | case4 d destination s source hnlt hlt r ih =>
    rw [ih hd (pairwise_cons.1 hs).2, filter_cons_of_neg]
    rw [decide_eq_true_eq]
    exact notMem_keys_of_lt (hd.all_lt hlt)
  | case5 d destination s source hnlt hnlt' r ih =>
    have heq : key d = key s := le_antisymm (not_lt.1 hnlt') (not_lt.1 hnlt)
    obtain ⟨hsource, hs'⟩ := pairwise_cons.1 hs
    rw [ih (pairwise_cons.1 hd).2 hs', filter_cons_of_pos]
    · refine congrArg (s :: ·) (filter_congr fun a ha => ?_)
      exact decide_eq_decide.2 (mem_keys_cons_iff (heq.trans_lt (hsource a ha)).ne).symm
    · exact decide_eq_true (mem_map.2 ⟨d, mem_cons_self, heq⟩)

omit hs

omit hd

theorem mergeWalk_transferred (key : E → K) (destination source : List E) :
    (mergeWalk key destination source).2.2 + (mergeWalk key destination source).2.1.length =
      source.length := by
  fun_induction mergeWalk key destination source with
  | case1 source => rfl
  | case2 d destination => rfl
  | case3 d destination s source hlt r ih => exact ih
  | case4 d destination s source hnlt hlt r ih =>
    rw [length_cons, ← ih]
    exact Nat.add_right_comm _ _ _
  | case5 d destination s source hnlt hnlt' r ih =>
    rw [length_cons, length_cons, ← ih]
    exact (Nat.add_assoc _ _ _).symm

end Mlang.SortedLists
