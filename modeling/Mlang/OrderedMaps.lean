import Mlang.FiniteMaps
import Mlang.SortedLists

namespace Mlang.OrderedMaps

open FiniteMaps SortedLists List Bool

/-! What the operations of an ordered container do to a finite map, or to a finite set, whose keys
have an order, and what they answer. -/

variable {K V : Type} [LinearOrder K]
variable {keys : Finset K} {k : K} {p : K → Bool}

def amount (keys : Finset K) (p : K → Bool) : Nat := (keys.filter fun k => p k).card

def least (keys : Finset K) (p : K → Bool) : Option K := keys.sort.find? p

theorem card_new_cons {range : List K} :
    ((k :: range).toFinset \ keys).card =
      (if k ∈ keys then 0 else 1) + (range.toFinset \ insert k keys).card := by
  rw [toFinset_cons]
  by_cases hk : k ∈ keys
  · rw [Finset.insert_sdiff_of_mem _ hk, if_pos hk, Finset.insert_eq_of_mem hk, Nat.zero_add]
  · have hsplit : insert k range.toFinset \ keys = insert k (range.toFinset \ insert k keys) := by
      ext l
      by_cases hl : l = k
      · subst hl
        simp [hk]
      · simp [hl]
    rw [hsplit, Finset.card_insert_of_notMem (by simp), if_neg hk, Nat.add_comm]

theorem least_eq_none_iff : least keys p = none ↔ ∀ k ∈ keys, p k = false := by
  rw [least, find?_eq_none]
  exact forall_congr' fun k => by rw [Finset.mem_sort, not_eq_true]

theorem isSome_least_iff : (least keys p).isSome = true ↔ ∃ k ∈ keys, p k = true := by
  rw [least, find?_isSome]
  exact exists_congr fun k => by rw [Finset.mem_sort]

theorem least_eq_some (hk : k ∈ keys) (hp : p k = true)
    (hleast : ∀ l ∈ keys, p l = true → k ≤ l) : least keys p = some k := by
  cases hfound : least keys p with
  | none =>
    rw [least_eq_none_iff.1 hfound k hk] at hp
    exact nomatch hp
  | some l =>
    obtain ⟨hl, front, back, hsort, hfront⟩ := find?_eq_some_iff_append.1 hfound
    have hmem : l ∈ keys := by
      rw [← Finset.mem_sort (· ≤ ·), hsort]
      exact mem_append_right _ mem_cons_self
    have hle : l ≤ k := by
      have hk' := hk
      rw [← Finset.mem_sort (· ≤ ·), hsort, mem_append, mem_cons] at hk'
      rcases hk' with hk' | rfl | hk'
      · have hnot := hfront k hk'
        rw [hp] at hnot
        exact nomatch hnot
      · exact le_rfl
      · have hpair := Finset.pairwise_sort keys (· ≤ ·)
        rw [hsort] at hpair
        exact (pairwise_cons.1 (pairwise_append.1 hpair).2.1).1 k hk'
    exact congrArg some (le_antisymm hle (hleast l hmem hl))

variable {Query : Type}

/-- What a query of another type than the keys is compared by. -/
structure Comparators (K Query : Type) [LinearOrder K] where
  lessKeyQuery : K → Query → Bool
  lessQueryKey : Query → K → Bool
  down : ∀ {a b : K} {query : Query}, a < b → lessKeyQuery b query = true → lessKeyQuery a query = true
  up : ∀ {a b : K} {query : Query}, a < b → lessQueryKey query a = true → lessQueryKey query b = true

def Comparators.equivalent (c : Comparators K Query) (query : Query) (k : K) : Bool :=
  !c.lessKeyQuery k query && !c.lessQueryKey query k

theorem Comparators.not_or_eq (c : Comparators K Query) {query : Query} :
    (!(c.lessKeyQuery k query || c.lessQueryKey query k)) = c.equivalent query k := not_or _ _

variable {E : Type} {key : E → K} {entries : List E} {below : K → Bool} {less : Comparators K Query}
  {query : Query}

structure Keyed (key : E → K) (entries : List E) (keys : Finset K) : Prop where
  increasing : Increasing key entries
  mem_iff : ∀ k, k ∈ entries.map key ↔ k ∈ keys

variable (h : Keyed key entries keys)
include h

theorem Keyed.keys_eq : keys = (entries.map key).toFinset := by
  ext k
  rw [mem_toFinset, h.mem_iff]

theorem Keyed.mem {e : E} (he : e ∈ entries) : key e ∈ keys :=
  (h.mem_iff _).1 (mem_map_of_mem he)

theorem Keyed.sort_eq : keys.sort = entries.map key := by
  rw [h.keys_eq, toFinset_sort (· ≤ ·) h.increasing.nodup, pairwise_map]
  exact h.increasing.imp le_of_lt

theorem Keyed.amount_eq :
    amount keys below = (entries.map key).countP below := by
  have hnodup : ((entries.map key).filter below).Nodup := h.increasing.nodup.filter below
  rw [amount, h.keys_eq, ← toFinset_filter, toFinset_card_of_nodup hnodup, countP_eq_length_filter]

theorem Keyed.card_eq : keys.card = entries.length := by
  rw [h.keys_eq, toFinset_card_of_nodup h.increasing.nodup, length_map]

theorem Keyed.search_eq (below : K → Bool)
    (hdown : ∀ a b, a < b → below b = true → below a = true) :
    search (fun e => below (key e)) entries = amount keys below := by
  rw [h.increasing.search_eq hdown, h.amount_eq]

theorem Keyed.lower_eq :
    search (fun e => decide (key e < k)) entries = amount keys fun l => decide (l < k) :=
  h.search_eq (fun l => decide (l < k)) fun _ _ => below_lt

theorem Keyed.upper_eq :
    search (fun e => !decide (k < key e)) entries = amount keys fun l => decide (l ≤ k) := by
  have hnot : ∀ l, (!decide (k < l)) = decide (l ≤ k) := fun l => by
    rw [← decide_not]
    exact decide_eq_decide.2 not_lt
  simp only [hnot]
  refine h.search_eq (fun l => decide (l ≤ k)) fun a b hlt hb => ?_
  exact decide_eq_true (hlt.le.trans (of_decide_eq_true hb))

theorem Keyed.before_eq :
    search (fun e => less.lessKeyQuery (key e) query) entries =
      amount keys fun k => less.lessKeyQuery k query :=
  h.search_eq (fun k => less.lessKeyQuery k query) fun _ _ => less.down

theorem Keyed.after_eq :
    search (fun e => !less.lessQueryKey query (key e)) entries =
      amount keys fun k => !less.lessQueryKey query k := by
  refine h.search_eq (fun k => !less.lessQueryKey query k) fun a b hlt hb => ?_
  rw [not_eq_true'] at hb ⊢
  exact Bool.eq_false_iff.2 fun ha => false_ne_true (hb.symm.trans (less.up hlt ha))

theorem Keyed.found_cases (query : Query) (less : Comparators K Query) :
    (least keys (less.equivalent query) = none ∧
        ∀ e, entries[search (fun e => less.lessKeyQuery (key e) query) entries]? = some e →
          less.equivalent query (key e) = false) ∨
      ∃ e, entries[search (fun e => less.lessKeyQuery (key e) query) entries]? = some e ∧
        e ∈ entries ∧ less.equivalent query (key e) = true ∧
        least keys (less.equivalent query) = some (key e) := by
  have hbefore : ∀ k, less.equivalent query k = true → less.lessKeyQuery k query = false :=
    fun k hk => by
      rw [Comparators.equivalent, and_eq_true, not_eq_true'] at hk
      exact hk.1
  rcases h.increasing.search_cases (fun k => less.lessKeyQuery k query)
    fun _ _ => less.down with ⟨hnone, hall⟩ | ⟨e, he, hmem, hnot, hleast⟩
  · refine .inl ⟨least_eq_none_iff.2 fun k hk => ?_, fun e he => nomatch hnone.symm.trans he⟩
    obtain ⟨a, ha, rfl⟩ := mem_map.1 ((h.mem_iff k).2 hk)
    exact Bool.eq_false_iff.2 fun heq => nomatch (hall a ha).symm.trans (hbefore _ heq)
  · cases hequiv : less.equivalent query (key e) with
    | true =>
      refine .inr ⟨e, he, hmem, hequiv, least_eq_some (h.mem hmem) hequiv fun l hl hlequiv => ?_⟩
      obtain ⟨a, ha, rfl⟩ := mem_map.1 ((h.mem_iff l).2 hl)
      exact hleast a ha (hbefore _ hlequiv)
    | false =>
      refine .inl ⟨least_eq_none_iff.2 fun k hk => Bool.eq_false_iff.2 fun hkequiv => ?_,
        fun e' he' => ?_⟩
      · obtain ⟨a, ha, rfl⟩ := mem_map.1 ((h.mem_iff k).2 hk)
        have hafter : less.lessQueryKey query (key e) = true := by
          rw [Comparators.equivalent, hnot] at hequiv
          simpa using hequiv
        rw [Comparators.equivalent, and_eq_true, not_eq_true', not_eq_true'] at hkequiv
        rcases (hleast a ha hkequiv.1).eq_or_lt with heq | hlt
        · exact nomatch (heq ▸ hafter).symm.trans hkequiv.2
        · exact nomatch (less.up hlt hafter).symm.trans hkequiv.2
      · obtain rfl := Option.some.inj (he.symm.trans he')
        exact hequiv

theorem Keyed.lower_cases (k : K) :
    (∃ e, entries[search (fun e => decide (key e < k)) entries]? = some e ∧ e ∈ entries ∧
        key e = k ∧ k ∈ keys) ∨
      k ∉ keys ∧ (∀ a ∈ entries, key a ≠ k) ∧
        ∀ e, entries[search (fun e => decide (key e < k)) entries]? = some e → k < key e := by
  rcases h.increasing.lower_cases (k := k) with ⟨e, he, hmem, rfl⟩ | ⟨hnone, hlater⟩
  · exact .inl ⟨e, he, hmem, rfl, h.mem hmem⟩
  · refine .inr ⟨fun hk => ?_, hnone, hlater⟩
    obtain ⟨a, ha, heq⟩ := mem_map.1 ((h.mem_iff k).2 hk)
    exact hnone a ha heq

variable {source : List E} {sourceKeys : Finset K}

theorem Keyed.filter {q : E → Bool} (hpq : ∀ e ∈ entries, q e = p (key e)) :
    Keyed key (entries.filter q) (keys.filter fun k => p k) := by
  refine ⟨h.increasing.filter q, fun k => ?_⟩
  rw [Finset.mem_filter, ← h.mem_iff, mem_map, mem_map]
  constructor
  · rintro ⟨e, he, rfl⟩
    obtain ⟨he, hq⟩ := mem_filter.1 he
    exact ⟨⟨e, he, rfl⟩, by rw [← hpq e he]; exact hq⟩
  · rintro ⟨⟨e, he, rfl⟩, hp⟩
    exact ⟨e, mem_filter.2 ⟨he, by rw [hpq e he]; exact hp⟩, rfl⟩

variable (hs : Keyed key source sourceKeys)
include hs

theorem Keyed.merged :
    Keyed key (mergeWalk key entries source).1 (keys ∪ sourceKeys) := by
  refine ⟨increasing_mergeWalk h.increasing hs.increasing, fun k => ?_⟩
  rw [Finset.mem_union, ← h.mem_iff, ← hs.mem_iff]
  constructor
  · intro hk
    obtain ⟨e, he, rfl⟩ := mem_map.1 hk
    rcases (mem_mergeWalk h.increasing hs.increasing).1 he with he | ⟨he, -⟩
    · exact .inl (mem_map_of_mem he)
    · exact .inr (mem_map_of_mem he)
  · intro hk
    by_cases hin : k ∈ entries.map key
    · obtain ⟨e, he, rfl⟩ := mem_map.1 hin
      exact mem_map_of_mem ((mem_mergeWalk h.increasing hs.increasing).2 (.inl he))
    · obtain ⟨e, he, rfl⟩ := mem_map.1 (hk.resolve_left hin)
      exact mem_map_of_mem ((mem_mergeWalk h.increasing hs.increasing).2 (.inr ⟨he, hin⟩))

theorem Keyed.retained :
    Keyed key (mergeWalk key entries source).2.1 (sourceKeys ∩ keys) := by
  rw [mergeWalk_retained h.increasing hs.increasing]
  have hfilter := hs.filter (p := fun k => decide (k ∈ keys))
    (q := fun e => decide (key e ∈ entries.map key))
    fun e _ => decide_eq_decide.2 (h.mem_iff (key e))
  have hinter : (sourceKeys.filter fun k => decide (k ∈ keys) = true) = sourceKeys ∩ keys := by
    ext k
    rw [Finset.mem_filter, Finset.mem_inter, decide_eq_true_eq]
  rwa [hinter] at hfilter

theorem Keyed.transferred_eq :
    (mergeWalk key entries source).2.2 = (sourceKeys \ keys).card := by
  have hwalk := mergeWalk_transferred key entries source
  rw [← (h.retained hs).card_eq, ← hs.card_eq, ← Finset.card_sdiff_add_card_inter sourceKeys keys]
    at hwalk
  exact Nat.add_right_cancel hwalk

omit hs

omit h

inductive MapOperation (K V : Type) [LinearOrder K] : Type 1
  | len
  | isEmpty
  | lowerBound (key : K)
  | upperBound (key : K)
  | equalRange (key : K)
  | contains (key : K)
  | get (key : K)
  | keyAt (index : Nat)
  | valueAt (index : Nat)
  | keys
  | values
  | insert (key : K) (value : V)
  | tryEmplace (key : K) (value : V)
  | insertOrAssign (key : K) (value : V)
  | insertRange (range : List (K × V))
  | replace (keys : List K) (values : List V)
  | remove (key : K)
  | clear
  | lowerBoundBy {Query : Type} (query : Query) (less : Comparators K Query)
  | upperBoundBy {Query : Type} (query : Query) (less : Comparators K Query)
  | equalRangeBy {Query : Type} (query : Query) (less : Comparators K Query)
  | containsBy {Query : Type} (query : Query) (less : Comparators K Query)
  | getBy {Query : Type} (query : Query) (less : Comparators K Query)
  | removeBy {Query : Type} (query : Query) (less : Comparators K Query)
  | eraseIf (predicate : K → V → Bool)

inductive Answer (K V : Type)
  | nothing
  | flag (b : Bool)
  | index (n : Nat)
  | position (index : Nat) (inserted : Bool)
  | range (first last : Nat)
  | key (k : Option K)
  | value (v : Option V)
  | keys (ks : List K)
  | values (vs : List V)
  deriving DecidableEq

def mapValues (m : FiniteMap K V) : List V := m.keys.sort.filterMap m.lookup

def mapApply (m : FiniteMap K V) : MapOperation K V → FiniteMap K V × Answer K V
  | .len => (m, .index m.keys.card)
  | .isEmpty => (m, .flag (m.keys = ∅))
  | .lowerBound key => (m, .index (amount m.keys fun k => k < key))
  | .upperBound key => (m, .index (amount m.keys fun k => k ≤ key))
  | .equalRange key => (m, .range (amount m.keys fun k => k < key) (amount m.keys fun k => k ≤ key))
  | .contains key => (m, .flag (key ∈ m))
  | .get key => (m, .value (m.lookup key))
  | .keyAt index => (m, .key m.keys.sort[index]?)
  | .valueAt index => (m, .value (mapValues m)[index]?)
  | .keys => (m, .keys m.keys.sort)
  | .values => (m, .values (mapValues m))
  | .insert key value => (m.insert key value, .flag (key ∉ m))
  | .tryEmplace key value =>
    (if key ∈ m then m else m.insert key value,
      .position (amount m.keys fun k => k < key) (key ∉ m))
  | .insertOrAssign key value =>
    (m.insert key value, .position (amount m.keys fun k => k < key) (key ∉ m))
  | .insertRange range => (putAll m range, .index ((range.map Prod.fst).toFinset \ m.keys).card)
  | .replace keys values =>
    if keys.length = values.length ∧ keys.Pairwise (· < ·) then
      (putAll ∅ (keys.zip values), .flag true)
    else (m, .flag false)
  | .remove key => (m.erase key, .flag (key ∈ m))
  | .clear => (∅, .nothing)
  | .lowerBoundBy query less => (m, .index (amount m.keys fun k => less.lessKeyQuery k query))
  | .upperBoundBy query less => (m, .index (amount m.keys fun k => !less.lessQueryKey query k))
  | .equalRangeBy query less =>
    (m, .range (amount m.keys fun k => less.lessKeyQuery k query)
      (amount m.keys fun k => !less.lessQueryKey query k))
  | .containsBy query less => (m, .flag (∃ k ∈ m.keys, less.equivalent query k = true))
  | .getBy query less => (m, .value ((least m.keys (less.equivalent query)).bind m.lookup))
  | .removeBy query less =>
    match least m.keys (less.equivalent query) with
    | none => (m, .flag false)
    | some k => (m.erase k, .flag true)
  | .eraseIf predicate =>
    (keep (fun k v => !predicate k v) m, .index (amount m.keys fun k => (m.lookup k).any (predicate k)))

/-- The destination has its own bindings and those of the other keys. -/
def mapMerge (destination source : FiniteMap K V) : FiniteMap K V × FiniteMap K V × Answer K V :=
  (destination ∪ source, keep (fun k _ => k ∈ destination) source,
    .index (source.keys \ destination.keys).card)

inductive SetOperation (T : Type) [LinearOrder T] : Type 1
  | len
  | isEmpty
  | lowerBound (key : T)
  | upperBound (key : T)
  | equalRange (key : T)
  | contains (key : T)
  | keyAt (index : Nat)
  | insert (key : T)
  | insertRange (range : List T)
  | replace (keys : List T)
  | remove (key : T)
  | clear
  | lowerBoundBy {Query : Type} (query : Query) (less : Comparators T Query)
  | upperBoundBy {Query : Type} (query : Query) (less : Comparators T Query)
  | equalRangeBy {Query : Type} (query : Query) (less : Comparators T Query)
  | containsBy {Query : Type} (query : Query) (less : Comparators T Query)
  | removeBy {Query : Type} (query : Query) (less : Comparators T Query)
  | eraseIf (predicate : T → Bool)

def setApply (s : Finset K) : SetOperation K → Finset K × Answer K Unit
  | .len => (s, .index s.card)
  | .isEmpty => (s, .flag (s = ∅))
  | .lowerBound key => (s, .index (amount s fun k => k < key))
  | .upperBound key => (s, .index (amount s fun k => k ≤ key))
  | .equalRange key => (s, .range (amount s fun k => k < key) (amount s fun k => k ≤ key))
  | .contains key => (s, .flag (key ∈ s))
  | .keyAt index => (s, .key s.sort[index]?)
  | .insert key => (insert key s, .flag (key ∉ s))
  | .insertRange range => (range.toFinset ∪ s, .index (range.toFinset \ s).card)
  | .replace keys => if keys.Pairwise (· < ·) then (keys.toFinset, .flag true) else (s, .flag false)
  | .remove key => (s.erase key, .flag (key ∈ s))
  | .clear => (∅, .nothing)
  | .lowerBoundBy query less => (s, .index (amount s fun k => less.lessKeyQuery k query))
  | .upperBoundBy query less => (s, .index (amount s fun k => !less.lessQueryKey query k))
  | .equalRangeBy query less =>
    (s, .range (amount s fun k => less.lessKeyQuery k query)
      (amount s fun k => !less.lessQueryKey query k))
  | .containsBy query less => (s, .flag (∃ k ∈ s, less.equivalent query k = true))
  | .removeBy query less =>
    match least s (less.equivalent query) with
    | none => (s, .flag false)
    | some k => (s.erase k, .flag true)
  | .eraseIf predicate => (s.filter fun k => !predicate k, .index (amount s predicate))

def setMerge (destination source : Finset K) : Finset K × Finset K × Answer K Unit :=
  (destination ∪ source, source ∩ destination, .index (source \ destination).card)

end Mlang.OrderedMaps
