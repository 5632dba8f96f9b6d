import Mlang.ObservedRuns
import Mlang.OrderedMaps

namespace Mlang.FlatMaps

open SortedLists

variable {K V Query : Type} [LinearOrder K]

structure FlatMap (K V : Type) where
  entries : List (K × V)
  deriving DecidableEq

namespace FlatMap

variable (container : FlatMap K V)

def len : Nat := container.entries.length

def isEmpty : Bool := container.entries.length = 0

def lowerBound (key : K) : Nat := search (fun entry => decide (entry.1 < key)) container.entries

def upperBound (key : K) : Nat := search (fun entry => !decide (key < entry.1)) container.entries

def equalRange (key : K) : Nat × Nat := (container.lowerBound key, container.upperBound key)

def contains (key : K) : Bool :=
  match container.entries[container.lowerBound key]? with
  | none => false
  | some entry => entry.1 = key

def get (key : K) : Option V :=
  match container.entries[container.lowerBound key]? with
  | none => none
  | some entry => if entry.1 = key then some entry.2 else none

def keyAt (index : Nat) : Option K := container.entries[index]?.map Prod.fst

def valueAt (index : Nat) : Option V := container.entries[index]?.map Prod.snd

def keys : List K := container.entries.map Prod.fst

def values : List V := container.entries.map Prod.snd

variable (self : FlatMap K V)

def new : FlatMap K V := { entries := [] }

/-- What the loop of `insert` has at an entry. -/
structure Insertion (K V : Type) where
  updated : List (K × V)
  inserted : Bool
  placed : Bool

def insertStep (key : K) (value : V) (s : Insertion K V) (entry : K × V) : Insertion K V :=
  if entry.1 = key then { updated := s.updated ++ [(key, value)], inserted := false, placed := true }
  else
    let s :=
      if !s.placed && key < entry.1 then
        { s with updated := s.updated ++ [(key, value)], placed := true }
      else s
    { s with updated := s.updated ++ [entry] }

def insert (key : K) (value : V) : FlatMap K V × Bool :=
  let s := self.entries.foldl (insertStep key value) { updated := [], inserted := true, placed := false }
  let updated := if !s.placed then s.updated ++ [(key, value)] else s.updated
  ({ entries := updated }, s.inserted)

def tryEmplace (key : K) (value : V) : FlatMap K V × Nat × Bool :=
  let index := self.lowerBound key
  let emplaced : FlatMap K V :=
    { entries := self.entries.take index ++ (key, value) :: self.entries.drop index }
  match self.entries[index]? with
  | none => (emplaced, index, true)
  | some entry =>
    if !decide (entry.1 < key) && !decide (key < entry.1) then (self, index, false)
    else (emplaced, index, true)

def insertOrAssign (key : K) (value : V) : FlatMap K V × Nat × Bool :=
  let index := self.lowerBound key
  let emplaced : FlatMap K V :=
    { entries := self.entries.take index ++ (key, value) :: self.entries.drop index }
  match self.entries[index]? with
  | none => (emplaced, index, true)
  | some existing =>
    if !decide (existing.1 < key) && !decide (key < existing.1) then
      ({ entries := self.entries.take index ++ (key, value) :: self.entries.drop (index + 1) },
        index, false)
    else (emplaced, index, true)

/-- One pass of the loop of `insert_range`, with the number of keys that were new. -/
def rangeStep (s : FlatMap K V × Nat) (entry : K × V) : FlatMap K V × Nat :=
  let r := s.1.insert entry.1 entry.2
  (r.1, if r.2 then s.2 + 1 else s.2)

def insertRange (range : List (K × V)) : FlatMap K V × Nat := range.foldl rangeStep (self, 0)

def replace (keys : List K) (values : List V) : FlatMap K V × Bool :=
  if values.length ≠ keys.length then (self, false)
  else if !ascends keys then (self, false)
  else ({ entries := keys.zip values }, true)

def remove (key : K) : FlatMap K V × Bool :=
  let s := sieve (fun entry => decide (entry.1 = key)) (fun _ => true) self.entries false
  ({ entries := s.1 }, s.2)

def clear (_ : FlatMap K V) : FlatMap K V := { entries := [] }

variable (query : Query) (lessKeyQuery : K → Query → Bool) (lessQueryKey : Query → K → Bool)

def lowerBoundBy : Nat := search (fun entry => lessKeyQuery entry.1 query) container.entries

def upperBoundBy : Nat := search (fun entry => !lessQueryKey query entry.1) container.entries

def equalRangeBy : Nat × Nat :=
  (container.lowerBoundBy query lessKeyQuery, container.upperBoundBy query lessQueryKey)

def containsBy : Bool :=
  match container.entries[container.lowerBoundBy query lessKeyQuery]? with
  | none => false
  | some entry => !lessKeyQuery entry.1 query && !lessQueryKey query entry.1

def getBy : Option V :=
  match container.entries[container.lowerBoundBy query lessKeyQuery]? with
  | none => none
  | some entry =>
    if !lessKeyQuery entry.1 query && !lessQueryKey query entry.1 then some entry.2 else none

def removeBy : FlatMap K V × Bool :=
  let index := container.lowerBoundBy query lessKeyQuery
  match container.entries[index]? with
  | none => (container, false)
  | some entry =>
    if lessKeyQuery entry.1 query || lessQueryKey query entry.1 then (container, false)
    else
      ({ entries := container.entries.take index ++ container.entries.drop (index + 1) }, true)

def merge (destination sourceMap : FlatMap K V) : FlatMap K V × FlatMap K V × Nat :=
  let r := mergeWalk Prod.fst destination.entries sourceMap.entries
  ({ entries := r.1 }, { entries := r.2.1 }, r.2.2)

def eraseIf (container : FlatMap K V) (predicate : K → V → Bool) : FlatMap K V × Nat :=
  let s := sieve (fun entry => predicate entry.1 entry.2) (· + 1) container.entries 0
  ({ entries := s.1 }, s.2)

end FlatMap

end Mlang.FlatMaps

namespace Mlang.FlatMapRefinement

open FiniteMaps FlatMaps ObservedRuns OrderedMaps SortedLists List

variable {K V : Type} [LinearOrder K]

def apply (c : FlatMap K V) : MapOperation K V → FlatMap K V × Answer K V
  | .len => (c, .index c.len)
  | .isEmpty => (c, .flag c.isEmpty)
  | .lowerBound key => (c, .index (c.lowerBound key))
  | .upperBound key => (c, .index (c.upperBound key))
  | .equalRange key => (c, .range (c.equalRange key).1 (c.equalRange key).2)
  | .contains key => (c, .flag (c.contains key))
  | .get key => (c, .value (c.get key))
  | .keyAt index => (c, .key (c.keyAt index))
  | .valueAt index => (c, .value (c.valueAt index))
  | .keys => (c, .keys c.keys)
  | .values => (c, .values c.values)
  | .insert key value => ((c.insert key value).1, .flag (c.insert key value).2)
  | .tryEmplace key value =>
    let r := c.tryEmplace key value
    (r.1, .position r.2.1 r.2.2)
  | .insertOrAssign key value =>
    let r := c.insertOrAssign key value
    (r.1, .position r.2.1 r.2.2)
  | .insertRange range => ((c.insertRange range).1, .index (c.insertRange range).2)
  | .replace keys values => ((c.replace keys values).1, .flag (c.replace keys values).2)
  | .remove key => ((c.remove key).1, .flag (c.remove key).2)
  | .clear => (c.clear, .nothing)
  | .lowerBoundBy query less => (c, .index (c.lowerBoundBy query less.lessKeyQuery))
  | .upperBoundBy query less => (c, .index (c.upperBoundBy query less.lessQueryKey))
  | .equalRangeBy query less =>
    let r := c.equalRangeBy query less.lessKeyQuery less.lessQueryKey
    (c, .range r.1 r.2)
  | .containsBy query less => (c, .flag (c.containsBy query less.lessKeyQuery less.lessQueryKey))
  | .getBy query less => (c, .value (c.getBy query less.lessKeyQuery less.lessQueryKey))
  | .removeBy query less =>
    let r := c.removeBy query less.lessKeyQuery less.lessQueryKey
    (r.1, .flag r.2)
  | .eraseIf predicate => ((c.eraseIf predicate).1, .index (c.eraseIf predicate).2)

def merge (destination source : FlatMap K V) : FlatMap K V × FlatMap K V × Answer K V :=
  let r := destination.merge source
  (r.1, r.2.1, .index r.2.2)

structure Refines (c : FlatMap K V) (m : FiniteMap K V) : Prop where
  increasing : Increasing Prod.fst c.entries
  lists : Lists c.entries m

variable {m : FiniteMap K V} {c : FlatMap K V} {k : K} {entries : List (K × V)} {v : V}

theorem refines_of (h : Increasing Prod.fst entries) (hmem : ∀ k v, (k, v) ∈ entries ↔ m.lookup k = some v) :
    Refines { entries := entries } m :=
  ⟨h, h.nodup, hmem⟩

theorem refines_new : Refines (FlatMap.new : FlatMap K V) ∅ := ⟨increasing_nil, lists_nil⟩

variable (h : Refines c m)
include h

theorem Refines.mem_iff : (k, v) ∈ c.entries ↔ m.lookup k = some v :=
  h.lists.mem_iff k v

theorem Refines.mem_keys : k ∈ c.entries.map Prod.fst ↔ k ∈ m :=
  h.lists.mem_keys_iff

theorem Refines.keyed : Keyed Prod.fst c.entries m.keys :=
  ⟨h.increasing, fun _ => h.mem_keys.trans Finmap.mem_keys.symm⟩

theorem Refines.values_eq : mapValues m = c.entries.map Prod.snd := by
  rw [mapValues, h.keyed.sort_eq, filterMap_map]
  have hall : ∀ kv ∈ c.entries, (m.lookup ∘ Prod.fst) kv = some kv.2 := fun kv hkv =>
    h.lists.lookup_eq hkv
  rw [filterMap_congr hall, filterMap_eq_map']

theorem refines_place :
    Refines { entries := place Prod.fst (k, v) c.entries } (m.insert k v) := by
  refine refines_of (increasing_place h.increasing) fun l w => ?_
  rw [mem_place, h.mem_iff, Prod.mk.injEq]
  by_cases hl : l = k
  · rw [hl, Finmap.lookup_insert, Option.some.injEq]
    exact ⟨fun hor => hor.elim (fun heq => heq.2.symm) fun hne => absurd rfl hne.2,
      fun heq => .inl ⟨rfl, heq.symm⟩⟩
  · rw [Finmap.lookup_insert_of_ne m hl]
    exact ⟨fun hor => hor.elim (fun heq => absurd heq.1 hl) And.left, fun hm => .inr ⟨hm, hl⟩⟩

theorem refines_without :
    Refines { entries := c.entries.filter fun entry => decide (entry.1 ≠ k) } (m.erase k) := by
  refine refines_of (h.increasing.filter _) fun l w => ?_
  rw [mem_filter, h.mem_iff, decide_eq_true_eq]
  by_cases hl : l = k
  · rw [hl, Finmap.lookup_erase]
    exact ⟨fun hne => absurd rfl hne.2, fun heq => nomatch heq⟩
  · rw [Finmap.lookup_erase_ne hl]
    exact and_iff_left hl

theorem refines_keep (p : K → V → Bool) :
    Refines { entries := c.entries.filter fun entry => p entry.1 entry.2 } (keep p m) := by
  refine refines_of (h.increasing.filter _) fun l w => ?_
  rw [mem_filter, h.mem_iff, lookup_keep_iff]

omit h

variable {key : K} {value : V} {updated : List (K × V)} {inserted : Bool}

theorem foldl_placed (hall : ∀ entry ∈ entries, key < entry.1) :
    entries.foldl (FlatMap.insertStep key value) ⟨updated, inserted, true⟩ =
      ⟨updated ++ entries, inserted, true⟩ := by
  induction entries generalizing updated with
  | nil => rw [foldl_nil, append_nil]
  | cons entry entries ih =>
    obtain ⟨hentry, hall⟩ := forall_mem_cons.1 hall
    have hstep : FlatMap.insertStep key value ⟨updated, inserted, true⟩ entry =
        ⟨updated ++ [entry], inserted, true⟩ := by
      rw [FlatMap.insertStep, if_neg hentry.ne']
      rfl
    rw [foldl_cons, hstep, ih hall, append_assoc, singleton_append]

theorem foldl_insertStep (key : K) (value : V) (updated : List (K × V))
    (h : Increasing Prod.fst entries) :
    let s := entries.foldl (FlatMap.insertStep key value) ⟨updated, true, false⟩
    (if !s.placed then s.updated ++ [(key, value)] else s.updated) =
        updated ++ place Prod.fst (key, value) entries ∧
      s.inserted = decide (key ∉ entries.map Prod.fst) := by
  induction entries generalizing updated with
  | nil => exact ⟨rfl, rfl⟩
  | cons entry entries ih =>
    obtain ⟨hentry, hrest⟩ := pairwise_cons.1 h
    rcases lt_trichotomy entry.1 key with hlt | heq | hgt
    · have hstep : FlatMap.insertStep key value ⟨updated, true, false⟩ entry =
          ⟨updated ++ [entry], true, false⟩ := by
        rw [FlatMap.insertStep, if_neg hlt.ne, decide_eq_false (lt_asymm hlt)]
        rfl
      rw [foldl_cons, hstep, place_cons_of_lt hlt, append_cons updated entry (place _ _ _)]
      obtain ⟨hupdated, hinserted⟩ := ih (updated ++ [entry]) hrest
      refine ⟨hupdated, hinserted.trans (decide_eq_decide.2 (not_congr ?_))⟩
      rw [map_cons, mem_cons, or_iff_right hlt.ne']
    · have hall : ∀ b ∈ entries, key < b.1 := fun b hb => heq ▸ hentry b hb
      have hstep : FlatMap.insertStep key value ⟨updated, true, false⟩ entry =
          ⟨updated ++ [(key, value)], false, true⟩ := by
        rw [FlatMap.insertStep, if_pos heq]
      rw [foldl_cons, hstep, foldl_placed hall, place_cons_of_eq heq hall, ← append_cons]
      exact ⟨rfl, (decide_eq_false (not_not.2 (mem_cons.2 (.inl heq.symm)))).symm⟩
    · have hall : ∀ b ∈ entry :: entries, key < b.1 := by
        intro b hb
        rcases mem_cons.1 hb with rfl | hb
        · exact hgt
        · exact hgt.trans (hentry b hb)
      have hstep : FlatMap.insertStep key value ⟨updated, true, false⟩ entry =
          ⟨updated ++ [(key, value)] ++ [entry], true, true⟩ := by
        rw [FlatMap.insertStep, if_neg hgt.ne', decide_eq_true hgt]
        rfl
      rw [foldl_cons, hstep, foldl_placed fun b hb => hall b (mem_cons_of_mem _ hb),
        place_of_lt hall, ← append_cons, ← append_cons]
      exact ⟨rfl, (decide_eq_true (notMem_keys_of_lt hall)).symm⟩

theorem refines_insert (key : K) (value : V) (h : Refines c m) :
    Refines (c.insert key value).1 (m.insert key value) ∧ (c.insert key value).2 = decide (key ∉ m) := by
  obtain ⟨hentries, hinserted⟩ := foldl_insertStep key value [] h.increasing
  refine ⟨?_, ?_⟩
  · have hplace := refines_place h (k := key) (v := value)
    rwa [← nil_append (place _ _ _), ← hentries] at hplace
  · refine hinserted.trans (decide_eq_decide.2 (not_congr h.mem_keys))

section Places

variable (key : K) (value : V)

theorem Refines.contains_eq (h : Refines c m) : c.contains key = decide (key ∈ m) := by
  rw [FlatMap.contains, FlatMap.lowerBound]
  rcases h.keyed.lower_cases key with ⟨entry, hentry, -, rfl, hmem⟩ | ⟨hnone, -, hlater⟩
  · rw [hentry, decide_eq_true (Finmap.mem_keys.1 hmem)]
    exact decide_eq_true rfl
  · rw [decide_eq_false (mt Finmap.mem_keys.2 hnone)]
    split
    · rfl
    · exact decide_eq_false (hlater _ ‹_›).ne'

theorem Refines.get_eq (h : Refines c m) : c.get key = m.lookup key := by
  rw [FlatMap.get, FlatMap.lowerBound]
  rcases h.keyed.lower_cases key with ⟨entry, hentry, hmem, rfl, -⟩ | ⟨hnone, -, hlater⟩
  · rw [hentry, h.lists.lookup_eq hmem]
    exact if_pos rfl
  · rw [Finmap.lookup_eq_none.2 (mt Finmap.mem_keys.2 hnone)]
    split
    · rfl
    · exact if_neg (hlater _ ‹_›).ne'

theorem refines_tryEmplace (h : Refines c m) :
    Refines (c.tryEmplace key value).1 (if key ∈ m then m else m.insert key value) ∧
      (c.tryEmplace key value).2 = (amount m.keys fun k => decide (k < key), decide (key ∉ m)) := by
  have hindex : c.lowerBound key = _ := h.keyed.lower_eq
  rcases h.keyed.lower_cases key with ⟨entry, hentry, -, heq, hmem⟩ | ⟨hnone, hne, hlater⟩
  · have hsame : c.tryEmplace key value = (c, c.lowerBound key, false) := by
      rw [FlatMap.tryEmplace, FlatMap.lowerBound, hentry]
      simp [heq]
    have hin : key ∈ m := Finmap.mem_keys.1 hmem
    rw [hsame, if_pos hin, hindex, decide_eq_false (not_not.2 hin)]
    exact ⟨h, rfl⟩
  · have hnew : c.tryEmplace key value =
        ({ entries := place Prod.fst (key, value) c.entries }, c.lowerBound key, true) := by
      have hplaced := h.increasing.placed_eq (e := (key, value)) hne
      rw [FlatMap.tryEmplace, FlatMap.lowerBound, hplaced]
      split
      · rfl
      · rw [decide_eq_true (hlater _ ‹_›), Bool.not_true, Bool.and_false]
        rfl
    have hout : key ∉ m := mt Finmap.mem_keys.2 hnone
    rw [hnew, if_neg hout, hindex, decide_eq_true hout]
    exact ⟨refines_place h, rfl⟩

theorem insertOrAssign_eq_tryEmplace
    (hother : ∀ entry, c.entries[c.lowerBound key]? = some entry → key < entry.1) :
    c.insertOrAssign key value = c.tryEmplace key value := by
  rw [FlatMap.insertOrAssign, FlatMap.tryEmplace]
  cases hentry : c.entries[c.lowerBound key]? with
  | none => rfl
  | some entry =>
    dsimp only
    rw [decide_eq_true (hother entry hentry), Bool.not_true, Bool.and_false]
    rfl

theorem refines_insertOrAssign (h : Refines c m) :
    Refines (c.insertOrAssign key value).1 (m.insert key value) ∧
      (c.insertOrAssign key value).2 = (amount m.keys fun k => decide (k < key), decide (key ∉ m)) := by
  have hindex : c.lowerBound key = _ := h.keyed.lower_eq
  rcases h.keyed.lower_cases key with ⟨entry, hentry, -, heq, hmem⟩ | ⟨hnone, hne, hlater⟩
  · have hassigned : c.insertOrAssign key value =
        ({ entries := place Prod.fst (key, value) c.entries }, c.lowerBound key, false) := by
      have hreplaced := h.increasing.replaced_eq (key, value) hentry heq
      rw [FlatMap.insertOrAssign, FlatMap.lowerBound, hentry, hreplaced]
      simp [heq]
    have hin : key ∈ m := Finmap.mem_keys.1 hmem
    rw [hassigned, hindex, decide_eq_false (not_not.2 hin)]
    exact ⟨refines_place h, rfl⟩
  · have hout : key ∉ m := mt Finmap.mem_keys.2 hnone
    have htry := refines_tryEmplace key value h
    rw [if_neg hout] at htry
    rw [insertOrAssign_eq_tryEmplace key value hlater]
    exact htry

end Places

theorem keys_insert : (m.insert k v).keys = Insert.insert k m.keys := by
  ext l
  rw [Finmap.mem_keys, Finmap.mem_insert, Finset.mem_insert, Finmap.mem_keys]

theorem foldl_rangeStep (h : Refines c m) (range : List (K × V)) (count : Nat) :
    Refines (range.foldl FlatMap.rangeStep (c, count)).1 (putAll m range) ∧
      (range.foldl FlatMap.rangeStep (c, count)).2 =
        count + ((range.map Prod.fst).toFinset \ m.keys).card := by
  induction range generalizing c m count with
  | nil => exact ⟨h, by simp⟩
  | cons entry range ih =>
    obtain ⟨hrefines, hinserted⟩ := refines_insert entry.1 entry.2 h
    obtain ⟨hrest, hcount⟩ := ih hrefines (if (c.insert entry.1 entry.2).2 then count + 1 else count)
    refine ⟨hrest, hcount.trans ?_⟩
    rw [map_cons, card_new_cons, keys_insert, hinserted]
    by_cases hmem : entry.1 ∈ m
    · rw [decide_eq_false (not_not.2 hmem), if_pos (Finmap.mem_keys.2 hmem), Nat.zero_add]
      rfl
    · rw [decide_eq_true hmem, if_neg (mt Finmap.mem_keys.1 hmem), if_pos rfl, Nat.add_assoc]

theorem refines_replace (h : Refines c m) (keys : List K) (values : List V) :
    let r := mapApply m (.replace keys values)
    Refines (c.replace keys values).1 r.1 ∧ Answer.flag (c.replace keys values).2 = r.2 := by
  by_cases hvalid : keys.length = values.length ∧ keys.Pairwise (· < ·)
  · obtain ⟨hlen, hkeys⟩ := hvalid
    have hcode : c.replace keys values = ({ entries := keys.zip values }, true) := by
      rw [FlatMap.replace, if_neg (not_not.2 hlen.symm), ascends_iff.2 hkeys]
      rfl
    have hspec : mapApply m (.replace keys values) = (putAll ∅ (keys.zip values), .flag true) :=
      if_pos ⟨hlen, hkeys⟩
    have hfst : (keys.zip values).map Prod.fst = keys := map_fst_zip (Nat.le_of_eq hlen)
    have hincreasing : Increasing Prod.fst (keys.zip values) := by
      rw [← hfst, pairwise_map] at hkeys
      exact hkeys
    rw [hcode, hspec]
    refine ⟨refines_of hincreasing fun k v => ?_, rfl⟩
    rw [lookup_putAll_iff hincreasing.nodup fun _ _ => Finmap.notMem_empty, Finmap.lookup_empty]
    exact ⟨.inl, fun hor => hor.resolve_right fun hnone => nomatch hnone⟩
  · have hcode : c.replace keys values = (c, false) := by
      rw [FlatMap.replace]
      by_cases hlen : values.length = keys.length
      · have hfails : ascends keys = false :=
          Bool.eq_false_iff.2 fun hascends => hvalid ⟨hlen.symm, ascends_iff.1 hascends⟩
        rw [if_neg (not_not.2 hlen), hfails]
        rfl
      · exact if_pos hlen
    have hspec : mapApply m (.replace keys values) = (m, .flag false) := if_neg hvalid
    rw [hcode, hspec]
    exact ⟨h, rfl⟩

theorem refines_remove (h : Refines c m) (key : K) :
    Refines (c.remove key).1 (m.erase key) ∧ (c.remove key).2 = decide (key ∈ m) := by
  rw [FlatMap.remove, sieve_found]
  refine ⟨?_, ?_⟩
  · have hwithout := refines_without h (k := key)
    simpa only [decide_not] using hwithout
  · rw [Bool.eq_iff_iff, any_eq_true, decide_eq_true_eq, ← h.mem_keys, mem_map]
    exact exists_congr fun entry => and_congr_right fun _ => decide_eq_true_iff

theorem refines_eraseIf (h : Refines c m) (predicate : K → V → Bool) :
    Refines (c.eraseIf predicate).1 (keep (fun k v => !predicate k v) m) ∧
      (c.eraseIf predicate).2 = amount m.keys fun k => (m.lookup k).any (predicate k) := by
  rw [FlatMap.eraseIf, sieve_count, h.keyed.amount_eq, countP_map]
  refine ⟨refines_keep h fun k v => !predicate k v, countP_congr fun entry hentry => ?_⟩
  rw [Function.comp_apply, h.lists.lookup_eq hentry, Option.any_some]

variable {Query : Type} (query : Query) (less : Comparators K Query)

theorem Refines.containsBy_eq (h : Refines c m) :
    c.containsBy query less.lessKeyQuery less.lessQueryKey =
      decide (∃ k ∈ m.keys, less.equivalent query k = true) := by
  rw [Bool.eq_iff_iff, decide_eq_true_eq, ← isSome_least_iff, ← Bool.eq_iff_iff,
    FlatMap.containsBy, FlatMap.lowerBoundBy]
  rcases h.keyed.found_cases query less with
    ⟨hnone, hother⟩ | ⟨entry, hentry, -, hequiv, hsome⟩
  · rw [hnone]
    split
    · rfl
    · exact hother _ ‹_›
  · rw [hentry, hsome]
    exact hequiv

theorem Refines.getBy_eq (h : Refines c m) :
    c.getBy query less.lessKeyQuery less.lessQueryKey =
      (least m.keys (less.equivalent query)).bind m.lookup := by
  rw [FlatMap.getBy, FlatMap.lowerBoundBy]
  rcases h.keyed.found_cases query less with
    ⟨hnone, hother⟩ | ⟨entry, hentry, hmem, hequiv, hsome⟩
  · rw [hnone]
    split
    · rfl
    · exact if_neg (Bool.eq_false_iff.1 (hother _ ‹_›))
  · rw [hentry, hsome, Option.bind_some, h.lists.lookup_eq hmem]
    exact if_pos hequiv

theorem refines_removeBy (h : Refines c m) :
    let r := c.removeBy query less.lessKeyQuery less.lessQueryKey
    let r' := mapApply m (.removeBy query less)
    Refines r.1 r'.1 ∧ Answer.flag r.2 = r'.2 := by
  have hindex : c.lowerBoundBy query less.lessKeyQuery =
    search (fun entry => less.lessKeyQuery entry.1 query) c.entries := rfl
  rcases h.keyed.found_cases query less with
    ⟨hnone, hother⟩ | ⟨entry, hentry, hmem, hequiv, hsome⟩
  · have hcode : c.removeBy query less.lessKeyQuery less.lessQueryKey = (c, false) := by
      rw [FlatMap.removeBy, hindex]
      split
      · rfl
      · have hnot := hother _ ‹_›
        rw [← less.not_or_eq, Bool.not_eq_false'] at hnot
        exact if_pos hnot
    have hspec : mapApply m (.removeBy query less) = (m, .flag false) := by
      rw [mapApply, hnone]
    rw [hcode, hspec]
    exact ⟨h, rfl⟩
  · have hcode : c.removeBy query less.lessKeyQuery less.lessQueryKey =
        ({ entries := c.entries.filter fun a => decide (a.1 ≠ entry.1) }, true) := by
      rw [← less.not_or_eq, Bool.not_eq_true'] at hequiv
      rw [FlatMap.removeBy, hindex, hentry, ← h.increasing.without_eq hentry]
      exact if_neg (by rw [hequiv]; exact Bool.false_ne_true)
    have hspec : mapApply m (.removeBy query less) = (m.erase entry.1, .flag true) := by
      rw [mapApply, hsome]
    rw [hcode, hspec]
    exact ⟨refines_without h, rfl⟩

theorem refines_merge (c source : FlatMap K V) (m sourceMap : FiniteMap K V) (h : Refines c m)
    (hs : Refines source sourceMap) :
    Refines (merge c source).1 (mapMerge m sourceMap).1 ∧
      Refines (merge c source).2.1 (mapMerge m sourceMap).2.1 ∧
      (merge c source).2.2 = (mapMerge m sourceMap).2.2 := by
  have hretained := mergeWalk_retained h.increasing hs.increasing
  refine ⟨refines_of (increasing_mergeWalk h.increasing hs.increasing) fun k v => ?_, ?_, ?_⟩
  · rw [mem_mergeWalk h.increasing hs.increasing, h.mem_iff, hs.mem_iff, h.mem_keys, and_comm]
    exact Finmap.mem_lookup_union'.symm
  · have hkeep := refines_keep hs fun k _ => decide (k ∈ m)
    have hcode : (merge c source).2.1 =
        { entries := source.entries.filter fun entry => decide (entry.1 ∈ m) } := by
      refine congrArg FlatMap.mk (hretained.trans (filter_congr fun entry _ => ?_))
      exact decide_eq_decide.2 h.mem_keys
    rw [hcode]
    exact hkeep
  · exact congrArg Answer.index (h.keyed.transferred_eq hs.keyed)

/-- One step for each operation: the answer is that of the finite map, and the map refines it. -/
theorem apply_refines (op : MapOperation K V) (c : FlatMap K V) (m : FiniteMap K V)
    (h : Refines c m) : Agrees Refines (apply c op) (mapApply m op) := by
  have hbefore : ∀ {Query : Type} (query : Query) (less : Comparators K Query),
      c.lowerBoundBy query less.lessKeyQuery = _ := fun query less => h.keyed.before_eq
  have hafter : ∀ {Query : Type} (query : Query) (less : Comparators K Query),
      c.upperBoundBy query less.lessQueryKey = _ := fun query less => h.keyed.after_eq
  cases op with
  | len => exact ⟨h, congrArg Answer.index h.keyed.card_eq.symm⟩
  | isEmpty =>
    have hempty : c.isEmpty = decide (m.keys = ∅) :=
      decide_eq_decide.2 (by rw [← Finset.card_eq_zero, h.keyed.card_eq])
    exact ⟨h, congrArg Answer.flag hempty⟩
  | lowerBound key => exact ⟨h, congrArg Answer.index h.keyed.lower_eq⟩
  | upperBound key => exact ⟨h, congrArg Answer.index h.keyed.upper_eq⟩
  | equalRange key => exact ⟨h, congrArg₂ Answer.range h.keyed.lower_eq h.keyed.upper_eq⟩
  | contains key => exact ⟨h, congrArg Answer.flag (h.contains_eq key)⟩
  | get key => exact ⟨h, congrArg Answer.value (h.get_eq key)⟩
  | keyAt index =>
    have hkey : c.keyAt index = m.keys.sort[index]? := by
      rw [h.keyed.sort_eq, getElem?_map]
      rfl
    exact ⟨h, congrArg Answer.key hkey⟩
  | valueAt index =>
    have hvalue : c.valueAt index = (mapValues m)[index]? := by
      rw [h.values_eq, getElem?_map]
      rfl
    exact ⟨h, congrArg Answer.value hvalue⟩
  | keys => exact ⟨h, congrArg Answer.keys h.keyed.sort_eq.symm⟩
  | values => exact ⟨h, congrArg Answer.values h.values_eq.symm⟩
  | insert key value =>
    obtain ⟨hrefines, hanswer⟩ := refines_insert key value h
    exact ⟨hrefines, congrArg Answer.flag hanswer⟩
  | tryEmplace key value =>
    obtain ⟨hrefines, hanswer⟩ := refines_tryEmplace key value h
    exact ⟨hrefines, congrArg (fun p : Nat × Bool => Answer.position p.1 p.2) hanswer⟩
  | insertOrAssign key value =>
    obtain ⟨hrefines, hanswer⟩ := refines_insertOrAssign key value h
    exact ⟨hrefines, congrArg (fun p : Nat × Bool => Answer.position p.1 p.2) hanswer⟩
  | insertRange range =>
    obtain ⟨hrefines, hanswer⟩ := foldl_rangeStep h range 0
    exact ⟨hrefines, congrArg Answer.index (hanswer.trans (Nat.zero_add _))⟩
  | replace keys values =>
    obtain ⟨hrefines, hanswer⟩ := refines_replace h keys values
    exact ⟨hrefines, hanswer⟩
  | remove key =>
    obtain ⟨hrefines, hanswer⟩ := refines_remove h key
    exact ⟨hrefines, congrArg Answer.flag hanswer⟩
  | clear => exact ⟨refines_new, rfl⟩
  | lowerBoundBy query less => exact ⟨h, congrArg Answer.index (hbefore query less)⟩
  | upperBoundBy query less => exact ⟨h, congrArg Answer.index (hafter query less)⟩
  | equalRangeBy query less =>
    exact ⟨h, congrArg₂ Answer.range (hbefore query less) (hafter query less)⟩
  | containsBy query less => exact ⟨h, congrArg Answer.flag (h.containsBy_eq query less)⟩
  | getBy query less => exact ⟨h, congrArg Answer.value (h.getBy_eq query less)⟩
  | removeBy query less =>
    obtain ⟨hrefines, hanswer⟩ := refines_removeBy query less h
    exact ⟨hrefines, hanswer⟩
  | eraseIf predicate =>
    obtain ⟨hrefines, hanswer⟩ := refines_eraseIf h predicate
    exact ⟨hrefines, congrArg Answer.index hanswer⟩

end Mlang.FlatMapRefinement
