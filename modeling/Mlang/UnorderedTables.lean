import Mathlib.Data.Nat.Bitwise
import Mlang.FiniteMaps
import Mlang.LinearProbing

namespace Mlang.UnorderedMaps

open LinearProbing (forever)

abbrev I64 := BitVec 64

def hashU64 (x : BitVec 64) : BitVec 64 :=
  let x := x ^^^ (x >>> 33)
  let x := x * 0xff51afd7ed558ccd#64
  let x := x ^^^ (x >>> 33)
  let x := x * 0xc4ceb9fe1a85ec53#64
  x ^^^ (x >>> 33)

def hashI64 (k : I64) : BitVec 64 := hashU64 k

inductive BucketState
  | empty
  | full
  | tombstone
  deriving DecidableEq

structure Bucket where
  state : BucketState := .empty
  key : I64 := 0
  value : I64 := 0
  deriving DecidableEq, Inhabited

structure Map where
  len : Int
  cap : Nat
  buckets : List Bucket
  deriving DecidableEq

def Map.bucket (m : Map) (idx : Nat) : Bucket := m.buckets.getD idx {}

def Map.set (m : Map) (idx : Nat) (b : Bucket) : Map := { m with buckets := m.buckets.set idx b }

def homeOf (cap : Nat) (key : I64) : Nat := (hashI64 key).toNat &&& (cap - 1)

def nextOf (cap idx : Nat) : Nat := (idx + 1) &&& (cap - 1)

def doubled (minCap : Nat) : Nat → Nat → Nat
  | 0, target => target
  | fuel + 1, target => if target < minCap then doubled minCap fuel (target * 2) else target

def targetOf (cap minCap : Nat) : Nat := doubled minCap minCap (if cap < 8 then 8 else cap)

def placeBody (m : Map) (b : Bucket) (idx : Nat) : Map ⊕ Nat :=
  if (m.bucket idx).state ≠ .full then
    .inl { m.set idx { state := .full, key := b.key, value := b.value } with len := m.len + 1 }
  else .inr (nextOf m.cap idx)

def rehashStep (fuel : Nat) (m : Map) (b : Bucket) : Option Map :=
  if b.state ≠ .full then some m
  else forever (placeBody m b) fuel (homeOf m.cap b.key)

def ensureCapacity (fuel : Nat) (m : Map) (minCap : Nat) : Option Map :=
  let target := targetOf m.cap minCap
  if m.cap ≥ target then some m
  else m.buckets.foldlM (rehashStep fuel) { len := 0, cap := target, buckets := List.replicate target {} }

def Map.crowded (m : Map) : Prop := (m.len + 1) * 4 ≥ m.cap * 3

instance (m : Map) : Decidable m.crowded := inferInstanceAs (Decidable (_ ≥ _))

def maybeGrow (fuel : Nat) (m : Map) : Option Map :=
  if m.cap < 8 then ensureCapacity fuel m 8
  else if m.crowded then ensureCapacity fuel m (m.cap * 2)
  else some m

/-- The table that `ensure_capacity` gives a cleared map. -/
def mapNew : Map := { len := 0, cap := 8, buckets := List.replicate 8 {} }

example (fuel : Nat) :
    ensureCapacity fuel { len := 0, cap := 0, buckets := [] } 8 = some mapNew := rfl

/-- One pass of the loop of `insert`, at a bucket and with the first tombstone that was seen. -/
def insertBody (m : Map) (key value : I64) (s : Nat × Option Nat) : (Map × Int) ⊕ (Nat × Option Nat) :=
  let b := m.bucket s.1
  match b.state with
  | .empty =>
    let idx := s.2.getD s.1
    .inl ({ m.set idx { state := .full, key := key, value := value } with len := m.len + 1 }, 1)
  | .tombstone => .inr (nextOf m.cap s.1, s.2.orElse fun _ => some s.1)
  | .full =>
    if b.key = key then .inl (m.set s.1 { b with value := value }, 0)
    else .inr (nextOf m.cap s.1, s.2)

def insert (fuel : Nat) (m : Map) (key value : I64) : Option (Map × Int) :=
  (maybeGrow fuel m).bind fun m => forever (insertBody m key value) fuel (homeOf m.cap key, none)

/-- One pass of the loops that look for a key: its bucket, or none. -/
def searchBody (m : Map) (key : I64) (idx : Nat) : Option Nat ⊕ Nat :=
  let b := m.bucket idx
  if b.state = .empty then .inl none
  else if b.state = .full ∧ b.key = key then .inl (some idx)
  else .inr (nextOf m.cap idx)

def search (fuel : Nat) (m : Map) (key : I64) : Option (Option Nat) :=
  if m.cap = 0 then some none else forever (searchBody m key) fuel (homeOf m.cap key)

def contains (fuel : Nat) (m : Map) (key : I64) : Option Int :=
  (search fuel m key).map fun found =>
    match found with
    | none => 0
    | some _ => 1

def getOr (fuel : Nat) (m : Map) (key defaultValue : I64) : Option I64 :=
  (search fuel m key).map fun found =>
    match found with
    | none => defaultValue
    | some idx => (m.bucket idx).value

def remove (fuel : Nat) (m : Map) (key : I64) : Option (Map × Int) :=
  (search fuel m key).map fun found =>
    match found with
    | none => (m, 0)
    | some idx => ({ m.set idx { m.bucket idx with state := .tombstone } with len := m.len - 1 }, 1)

def Map.keys (m : Map) : List I64 :=
  if m.len ≤ 0 then [] else (m.buckets.filter fun b => b.state = .full).map Bucket.key

def Map.values (m : Map) : List I64 :=
  if m.len ≤ 0 then [] else (m.buckets.filter fun b => b.state = .full).map Bucket.value

structure VecMap where
  cap : Nat
  items : List (I64 × I64)
  deriving DecidableEq

def vecMapGrow (m : VecMap) (minCap : Nat) : VecMap :=
  let target := targetOf m.cap minCap
  if target ≤ m.cap then m else { m with cap := target }

def vecMapNew : VecMap := vecMapGrow { cap := 0, items := [] } 8

def VecMap.find (m : VecMap) (key : I64) : Option Nat := m.items.findIdx? fun item => item.1 = key

def vecMapSet (m : VecMap) (key value : I64) : VecMap × Int :=
  match m.find key with
  | some i => ({ m with items := m.items.set i (key, value) }, 0)
  | none =>
    let m := vecMapGrow m (m.items.length + 1)
    ({ m with items := m.items ++ [(key, value)] }, 1)

def vecMapHas (m : VecMap) (key : I64) : Int :=
  match m.find key with
  | some _ => 1
  | none => 0

def vecMapGetOr (m : VecMap) (key defaultValue : I64) : I64 :=
  match m.find key with
  | some i => (m.items.getD i (0, 0)).2
  | none => defaultValue

def vecMapDel (m : VecMap) (key : I64) : VecMap × Int :=
  match m.find key with
  | some i =>
    ({ m with items := (m.items.set i (m.items.getD (m.items.length - 1) (0, 0))).dropLast }, 1)
  | none => (m, 0)

def vecMapLen (m : VecMap) : Int := m.items.length

def VecMap.keys (m : VecMap) : List I64 := m.items.map Prod.fst

def VecMap.values (m : VecMap) : List I64 := m.items.map Prod.snd

inductive Call
  | insert (key value : I64)
  | contains (key : I64)
  | getOr (key defaultValue : I64)
  | remove (key : I64)
  | len
  | keys
  | values
  deriving DecidableEq

inductive Result
  | number (n : Int)
  | value (v : I64)
  | list (l : List I64)
  deriving DecidableEq

def Map.call (fuel : Nat) (m : Map) : Call → Option (Map × Result)
  | .insert key value => (insert fuel m key value).map fun (m, n) => (m, .number n)
  | .contains key => (contains fuel m key).map fun n => (m, .number n)
  | .getOr key defaultValue => (getOr fuel m key defaultValue).map fun v => (m, .value v)
  | .remove key => (remove fuel m key).map fun (m, n) => (m, .number n)
  | .len => some (m, .number m.len)
  | .keys => some (m, .list m.keys)
  | .values => some (m, .list m.values)

def VecMap.call (m : VecMap) : Call → VecMap × Result
  | .insert key value => ((vecMapSet m key value).1, .number (vecMapSet m key value).2)
  | .contains key => (m, .number (vecMapHas m key))
  | .getOr key defaultValue => (m, .value (vecMapGetOr m key defaultValue))
  | .remove key => ((vecMapDel m key).1, .number (vecMapDel m key).2)
  | .len => (m, .number (vecMapLen m))
  | .keys => (m, .list m.keys)
  | .values => (m, .list m.values)

end Mlang.UnorderedMaps

namespace Mlang.UnorderedTables

open FiniteMaps LinearProbing UnorderedMaps List Option

variable {b : Bucket} {k : I64} {m : Map} {i : Nat}

def entry (b : Bucket) : Option (I64 × I64) :=
  if b.state = .full then some (b.key, b.value) else none

def bindings (m : Map) : List (I64 × I64) := m.buckets.filterMap entry

def owner (m : Map) (i : Nat) : Option I64 := (entry (m.bucket i)).map Prod.fst

def Unused (m : Map) (i : Nat) : Prop := (m.bucket i).state = .empty

def write (m : Map) (i : Nat) (b : Bucket) (len : Int) : Map := { m.set i b with len := len }

variable {j : Nat} {len : Int}

theorem entry_full (h : b.state = .full) : entry b = some (b.key, b.value) := if_pos h

theorem entry_of_ne (h : b.state ≠ .full) : entry b = none := if_neg h

theorem getElem?_bucket (hi : i < m.buckets.length) : m.buckets[i]? = some (m.bucket i) := by
  rw [Map.bucket, getD_eq_getElem _ _ hi, getElem?_eq_getElem hi]

theorem bucket_mem (hi : i < m.buckets.length) : m.bucket i ∈ m.buckets :=
  mem_of_getElem? (getElem?_bucket hi)

theorem exists_bucket (h : b ∈ m.buckets) : ∃ i < m.buckets.length, m.bucket i = b := by
  obtain ⟨i, hi, hb⟩ := List.mem_iff_getElem.1 h
  exact ⟨i, hi, by rw [Map.bucket, getD_eq_getElem _ _ hi, hb]⟩

theorem bucket_write (hj : j < m.buckets.length) :
    (write m j b len).bucket i = if i = j then b else m.bucket i := by
  change (m.buckets.set j b).getD i {} = _
  rw [getD_eq_getElem?_getD, getElem?_set]
  by_cases hij : j = i
  · rw [if_pos hij, if_pos hj, if_pos hij.symm, getD_some]
  · rw [if_neg hij, if_neg (Ne.symm hij), Map.bucket, getD_eq_getElem?_getD]

theorem owner_eq_some (h : owner m i = some k) : (m.bucket i).state = .full ∧ (m.bucket i).key = k := by
  by_cases hfull : (m.bucket i).state = .full
  · rw [owner, entry_full hfull] at h
    exact ⟨hfull, some.inj h⟩
  · rw [owner, entry_of_ne hfull] at h
    cases h

theorem owner_of_full (h : (m.bucket i).state = .full) : owner m i = some (m.bucket i).key := by
  rw [owner, entry_full h]
  rfl

theorem bindings_write (hj : j < m.buckets.length) (b : Bucket) (len : Int) :
    ∃ rest, (bindings m).Perm ((entry (m.bucket j)).toList ++ rest) ∧
      (bindings (write m j b len)).Perm ((entry b).toList ++ rest) := by
  obtain ⟨rest, hold, hnew⟩ := filterMap_set (g := entry) (getElem?_bucket hj)
  exact ⟨rest, hold, hnew b⟩

variable {f : FiniteMap I64 I64} {v : I64}

def probed (m : Map) (k : I64) (d : Nat) : Nat := place m.cap (homeOf m.cap k) d

/-- The keys stand on chains, the length counts them, and the capacity is a power of two. -/
structure Consistent (m : Map) : Prop where
  power : ∃ e, m.cap = 2 ^ e
  large : 8 ≤ m.cap
  slots : m.buckets.length = m.cap
  len : m.len = (bindings m).length
  chained : Chained m.cap (homeOf m.cap) (owner m) (Unused m)

/-- What the map is for: its bindings are those of a finite map. -/
structure Represents (m : Map) (f : FiniteMap I64 I64) : Prop extends Consistent m where
  lists : Lists (bindings m) f

variable {d : Nat}

theorem nextOf_eq (h : ∃ e, m.cap = 2 ^ e) (i : Nat) : nextOf m.cap i = (i + 1) % m.cap := by
  obtain ⟨e, he⟩ := h
  rw [nextOf, he, Nat.and_two_pow_sub_one_eq_mod]

theorem homeOf_lt (h : ∃ e, m.cap = 2 ^ e) (k : I64) : homeOf m.cap k < m.cap := by
  obtain ⟨e, he⟩ := h
  rw [homeOf, he, Nat.and_two_pow_sub_one_eq_mod]
  exact Nat.mod_lt _ (Nat.two_pow_pos e)

variable (h : Consistent m)
include h

theorem Consistent.pos : 0 < m.cap := Nat.lt_of_lt_of_le (by decide) h.large

theorem Consistent.probed_zero (k : I64) : probed m k 0 = homeOf m.cap k :=
  place_zero _ (homeOf_lt h.power k)

theorem Consistent.next (k : I64) (d : Nat) :
    nextOf m.cap (probed m k d) = probed m k (d + 1) := by
  rw [nextOf_eq h.power, probed, place_succ, probed]

theorem Consistent.probed_lt (k : I64) (d : Nat) : probed m k d < m.cap :=
  place_lt h.pos

theorem Consistent.probed_lt_length (k : I64) (d : Nat) :
    probed m k d < m.buckets.length := h.slots.symm ▸ h.probed_lt k d

theorem Consistent.put (hd : d < m.cap)
    (hfree : (m.bucket (probed m k d)).state ≠ .full) (hbefore : ∀ e < d, ¬ Unused m (probed m k e)) :
    Consistent (write m (probed m k d) ⟨.full, k, v⟩ (m.len + 1)) ∧
      (bindings (write m (probed m k d) ⟨.full, k, v⟩ (m.len + 1))).Perm ((k, v) :: bindings m) := by
  have hj := h.probed_lt_length k d
  obtain ⟨rest, hold, hnew⟩ := bindings_write hj ⟨.full, k, v⟩ (m.len + 1)
  rw [entry_of_ne hfree] at hold
  have hperm : (bindings (write m (probed m k d) ⟨.full, k, v⟩ (m.len + 1))).Perm
      ((k, v) :: bindings m) := hnew.trans (hold.symm.cons (k, v))
  refine ⟨⟨h.power, h.large, ?_, ?_, ?_⟩, hperm⟩
  · exact (length_set ..).trans h.slots
  · change m.len + 1 = _
    rw [hperm.length_eq, length_cons, h.len]
    exact (Int.natCast_succ _).symm
  · refine h.chained.put (homeOf_lt h.power k) hd hbefore ?_ ?_
    · intro i _ l hl
      rw [owner, bucket_write hj] at hl
      by_cases hi : i = probed m k d
      · rw [if_pos hi] at hl
        exact .inl ⟨hi, (some.inj hl).symm⟩
      · rw [if_neg hi] at hl
        exact .inr hl
    · intro i _ hunused
      rw [Unused, bucket_write hj] at hunused
      by_cases hi : i = probed m k d
      · rw [if_pos hi] at hunused
        cases hunused
      · rwa [if_neg hi] at hunused

theorem Consistent.rewrite {n : Int} (hi : i < m.cap) (hused : b.state ≠ .empty)
    (howner : ∀ l, (entry b).map Prod.fst = some l → owner m i = some l)
    (hlen : n = (bindings (write m i b n)).length) : Consistent (write m i b n) where
  power := h.power
  large := h.large
  slots := (length_set ..).trans h.slots
  len := hlen
  chained := by
    have hj : i < m.buckets.length := h.slots ▸ hi
    refine h.chained.mono ?_ ?_
    · intro j _ l hl
      rw [owner, bucket_write hj] at hl
      by_cases hji : j = i
      · rw [if_pos hji] at hl
        rw [hji]
        exact howner l hl
      · rwa [if_neg hji] at hl
    · intro j _ hunused
      rw [Unused, bucket_write hj] at hunused
      by_cases hji : j = i
      · rw [if_pos hji] at hunused
        exact absurd hunused hused
      · rwa [if_neg hji] at hunused

omit h

theorem Represents.put (h : Represents m f) (hnew : k ∉ f) (hd : d < m.cap)
    (hfree : (m.bucket (probed m k d)).state ≠ .full) (hbefore : ∀ e < d, ¬ Unused m (probed m k e)) :
    Represents (write m (probed m k d) ⟨.full, k, v⟩ (m.len + 1)) (f.insert k v) := by
  obtain ⟨hconsistent, hperm⟩ := h.toConsistent.put hd hfree hbefore
  exact ⟨hconsistent, (h.lists.cons hnew).perm hperm⟩

theorem Represents.update (h : Represents m f) (hi : i < m.cap) (howner : owner m i = some k) (v : I64) :
    Represents (m.set i { m.bucket i with value := v }) (f.insert k v) := by
  obtain ⟨hfull, hkey⟩ := owner_eq_some howner
  have hj : i < m.buckets.length := h.slots ▸ hi
  obtain ⟨rest, hold, hnew⟩ := bindings_write hj { m.bucket i with value := v } m.len
  have hentry : entry { m.bucket i with value := v } = some (k, v) := by
    rw [entry_full (b := { m.bucket i with value := v }) hfull]
    exact congrArg (fun l => some (l, v)) hkey
  rw [entry_full hfull, hkey] at hold
  rw [hentry] at hnew
  refine ⟨h.toConsistent.rewrite (b := { m.bucket i with value := v }) (n := m.len) hi ?_ ?_ ?_, ?_⟩
  · intro hempty
    exact BucketState.noConfusion (hempty.symm.trans hfull)
  · intro l hl
    rw [hentry] at hl
    rw [howner]
    exact hl
  · rw [hnew.length_eq, h.len, hold.length_eq]
    rfl
  · exact (Lists.update (h.lists.perm hold.symm)).perm hnew

theorem Represents.erase (h : Represents m f) (hi : i < m.cap) (howner : owner m i = some k) :
    Represents (write m i { m.bucket i with state := .tombstone } (m.len - 1)) (f.erase k) := by
  obtain ⟨hfull, hkey⟩ := owner_eq_some howner
  have hj : i < m.buckets.length := h.slots ▸ hi
  obtain ⟨rest, hold, hnew⟩ :=
    bindings_write hj { m.bucket i with state := .tombstone } (m.len - 1)
  have hentry : entry { m.bucket i with state := .tombstone } = none :=
    entry_of_ne fun heq => nomatch heq
  rw [entry_full hfull, hkey] at hold
  rw [hentry] at hnew
  refine ⟨h.toConsistent.rewrite hi (fun heq => nomatch heq) ?_ ?_, ?_⟩
  · intro l hl
    rw [hentry] at hl
    cases hl
  · have hlen := h.len
    rw [hold.length_eq, toList_some, singleton_append, length_cons] at hlen
    rw [hnew.length_eq, toList_none, nil_append]
    omega
  · exact (Lists.of_cons (h.lists.perm hold.symm)).perm hnew

theorem Represents.unique (h : Represents m f) {j : Nat} (hi : i < m.cap) (hj : j < m.cap)
    (hki : owner m i = some k) (hkj : owner m j = some k) : j = i := by
  have hpairs := h.lists.nodup
  rw [bindings, map_filterMap, List.Nodup, pairwise_filterMap, pairwise_iff_getElem]
    at hpairs
  rw [← h.slots] at hi hj
  have hget : ∀ {i : Nat} (hi : i < m.buckets.length), m.buckets[i] = m.bucket i := fun hi =>
    some.inj ((getElem?_eq_getElem hi).symm.trans (getElem?_bucket hi))
  rcases Nat.lt_trichotomy i j with hlt | heq | hlt
  · refine absurd rfl (hpairs i j hi hj hlt k ?_ k ?_)
    · rwa [hget hi]
    · rwa [hget hj]
  · exact heq.symm
  · refine absurd rfl (hpairs j i hj hi hlt k ?_ k ?_)
    · rwa [hget hj]
    · rwa [hget hi]

variable {fuel : Nat}

def Stops (m : Map) (k : I64) (i : Nat) : Prop := Unused m i ∨ owner m i = some k

theorem searchBody_of_owner (h : owner m i = some k) : searchBody m k i = .inl (some i) := by
  obtain ⟨hfull, hkey⟩ := owner_eq_some h
  have hused : (m.bucket i).state ≠ .empty := by
    rw [hfull]
    exact fun heq => nomatch heq
  rw [searchBody, if_neg hused, if_pos ⟨hfull, hkey⟩]

theorem searchBody_of_unused (h : Unused m i) : searchBody m k i = .inl none := if_pos h

theorem searchBody_of_not_stops (h : ¬ Stops m k i) : searchBody m k i = .inr (nextOf m.cap i) := by
  obtain ⟨hused, howner⟩ := not_or.1 h
  have hother : ¬ ((m.bucket i).state = .full ∧ (m.bucket i).key = k) := by
    rintro ⟨hfull, hkey⟩
    exact howner ((owner_of_full hfull).trans (congrArg some hkey))
  exact (if_neg hused).trans (if_neg hother)

theorem Consistent.search_eq (h : Consistent m) (fuel : Nat) (k : I64) :
    search fuel m k = forever (searchBody m k) fuel (probed m k 0) := by
  rw [search, if_neg h.pos.ne', h.probed_zero]

theorem Consistent.search_of_first {r : Option Nat} (h : Consistent m)
    (hfirst : First m.cap (homeOf m.cap k) (Stops m k) d)
    (hend : searchBody m k (probed m k d) = .inl r) (hfuel : d < fuel) : search fuel m k = some r := by
  rw [h.search_eq]
  refine forever_of_ends (fun e he => ?_) hend hfuel
  have hbody : searchBody m k (probed m k e) = .inr (nextOf m.cap (probed m k e)) :=
    searchBody_of_not_stops (hfirst.before e he)
  rwa [h.next k e] at hbody

theorem Consistent.search_of_never (h : Consistent m) (hnever : ∀ i < m.cap, ¬ Stops m k i) :
    search fuel m k = none := by
  rw [h.search_eq]
  refine forever_of_passes (fun e => ?_) fuel
  rw [searchBody_of_not_stops (hnever _ (h.probed_lt k e)), h.next k e]

theorem Represents.exists_owner (h : Represents m f) (hk : k ∈ f) : ∃ i < m.cap, owner m i = some k := by
  obtain ⟨v, hv⟩ := Finmap.mem_iff.1 hk
  obtain ⟨b, hb, hentry⟩ := List.mem_filterMap.1 ((h.lists.mem_iff k v).2 hv)
  obtain ⟨i, hi, rfl⟩ := exists_bucket hb
  exact ⟨i, h.slots ▸ hi, by rw [owner, hentry]; rfl⟩

theorem Represents.lookup_of_owner (h : Represents m f) (hi : i < m.cap) (howner : owner m i = some k) :
    f.lookup k = some (m.bucket i).value := by
  obtain ⟨hfull, hkey⟩ := owner_eq_some howner
  refine h.lists.lookup_eq (List.mem_filterMap.2 ⟨m.bucket i, bucket_mem (h.slots ▸ hi), ?_⟩)
  rw [entry_full hfull, hkey]

theorem Represents.mem_of_owner (h : Represents m f) (hi : i < m.cap) (howner : owner m i = some k) :
    k ∈ f := Finmap.mem_of_lookup_eq_some (h.lookup_of_owner hi howner)

theorem Represents.search_of_mem (h : Represents m f) (hk : k ∈ f) :
    ∃ i < m.cap, owner m i = some k ∧ ∀ fuel ≥ m.cap, search fuel m k = some (some i) := by
  obtain ⟨i, hi, howner⟩ := h.exists_owner hk
  refine ⟨i, hi, howner, fun fuel hfuel => ?_⟩
  have hfirst := h.chained.first (homeOf_lt h.power k) hi howner fun j hj => h.unique hi hj howner
  have hplace : probed m k (distance m.cap (homeOf m.cap k) i) = i :=
    place_distance (homeOf_lt h.power k) hi
  refine h.toConsistent.search_of_first hfirst ?_ (Nat.lt_of_lt_of_le (distance_lt h.pos) hfuel)
  rw [hplace]
  exact searchBody_of_owner howner

theorem Represents.search_of_unused (h : Represents m f) (hk : k ∉ f) (hi : i < m.cap)
    (hunused : Unused m i) (hfuel : m.cap ≤ fuel) : search fuel m k = some none := by
  obtain ⟨d, hd, hfirst⟩ := exists_first (p := Stops m k) (homeOf_lt h.power k) hi (.inl hunused)
  refine h.toConsistent.search_of_first hfirst ?_ (Nat.lt_of_lt_of_le hd hfuel)
  refine searchBody_of_unused (hfirst.here.resolve_right fun howner => ?_)
  exact hk (h.mem_of_owner (h.probed_lt k d) howner)

def passedTomb (m : Map) (k : I64) : Nat → Option Nat
  | 0 => none
  | d + 1 =>
    (passedTomb m k d).orElse fun _ =>
      if (m.bucket (probed m k d)).state = .tombstone then some (probed m k d) else none

theorem exists_of_passedTomb (h : passedTomb m k d = some i) :
    ∃ e < d, probed m k e = i ∧ (m.bucket i).state = .tombstone := by
  induction d with
  | zero => cases h
  | succ d ih =>
    rw [passedTomb] at h
    cases hpassed : passedTomb m k d with
    | some j =>
      rw [hpassed] at h
      cases h
      obtain ⟨e, he, hrest⟩ := ih hpassed
      exact ⟨e, Nat.lt_succ_of_lt he, hrest⟩
    | none =>
      rw [hpassed] at h
      by_cases htomb : (m.bucket (probed m k d)).state = .tombstone
      · rw [if_pos htomb] at h
        cases h
        exact ⟨d, Nat.lt_succ_self d, rfl, htomb⟩
      · rw [if_neg htomb] at h
        cases h

theorem Consistent.insertBody_of_not_stops (h : Consistent m) (v : I64) {e : Nat}
    (hgoes : ¬ Stops m k (probed m k e)) :
    insertBody m k v (probed m k e, passedTomb m k e) =
      .inr (probed m k (e + 1), passedTomb m k (e + 1)) := by
  obtain ⟨hused, howner⟩ := not_or.1 hgoes
  rw [← h.next k e, passedTomb]
  cases hstate : (m.bucket (probed m k e)).state with
  | empty => exact absurd hstate hused
  | tombstone =>
    rw [if_pos rfl, insertBody, hstate]
  | full =>
    have hkey : (m.bucket (probed m k e)).key ≠ k := fun heq =>
      howner ((owner_of_full hstate).trans (congrArg some heq))
    rw [if_neg fun heq => nomatch heq]
    simp only [insertBody, hstate, if_neg hkey]
    cases passedTomb m k e <;> rfl

theorem insertBody_of_owner (h : owner m i = some k) (v : I64) (tomb : Option Nat) :
    insertBody m k v (i, tomb) = .inl (m.set i { m.bucket i with value := v }, 0) := by
  obtain ⟨hfull, hkey⟩ := owner_eq_some h
  rw [insertBody]
  dsimp only
  rw [hfull]
  exact if_pos hkey

theorem insertBody_of_unused (h : Unused m i) (v : I64) (tomb : Option Nat) :
    insertBody m k v (i, tomb) = .inl (write m (tomb.getD i) ⟨.full, k, v⟩ (m.len + 1), 1) := by
  have hempty : (m.bucket i).state = .empty := h
  rw [insertBody]
  dsimp only
  rw [hempty]
  rfl

/-- The loop of `insert`, from its first pass on. -/
def place (fuel : Nat) (m : Map) (k v : I64) : Option (Map × Int) :=
  forever (insertBody m k v) fuel (homeOf m.cap k, none)

theorem Consistent.place_of_first {r : Map × Int} (h : Consistent m)
    (hfirst : First m.cap (homeOf m.cap k) (Stops m k) d)
    (hend : insertBody m k v (probed m k d, passedTomb m k d) = .inl r) (hfuel : d < fuel) :
    place fuel m k v = some r := by
  rw [place, ← h.probed_zero]
  exact forever_of_ends (x := fun e => (probed m k e, passedTomb m k e))
    (fun e he => h.insertBody_of_not_stops v (hfirst.before e he)) hend hfuel

theorem Consistent.place_of_never (h : Consistent m) (hnever : ∀ i < m.cap, ¬ Stops m k i) :
    place fuel m k v = none := by
  rw [place, ← h.probed_zero]
  exact forever_of_passes (x := fun e => (probed m k e, passedTomb m k e))
    (fun e => h.insertBody_of_not_stops v (hnever _ (h.probed_lt k e))) fuel

theorem Represents.place_of_mem (h : Represents m f) (hk : k ∈ f) (v : I64) :
    ∃ m', (∀ fuel ≥ m.cap, place fuel m k v = some (m', 0)) ∧ Represents m' (f.insert k v) := by
  obtain ⟨i, hi, howner⟩ := h.exists_owner hk
  refine ⟨_, fun fuel hfuel => ?_, h.update hi howner v⟩
  have hfirst := h.chained.first (homeOf_lt h.power k) hi howner fun j hj => h.unique hi hj howner
  have hplace : probed m k (distance m.cap (homeOf m.cap k) i) = i :=
    place_distance (homeOf_lt h.power k) hi
  refine h.toConsistent.place_of_first hfirst ?_ (Nat.lt_of_lt_of_le (distance_lt h.pos) hfuel)
  rw [hplace]
  exact insertBody_of_owner howner v _

theorem Represents.place_of_unused (h : Represents m f) (hk : k ∉ f) (hi : i < m.cap)
    (hunused : Unused m i) (v : I64) :
    ∃ m', (∀ fuel ≥ m.cap, place fuel m k v = some (m', 1)) ∧ Represents m' (f.insert k v) := by
  obtain ⟨d, hd, hfirst⟩ := exists_first (p := Stops m k) (homeOf_lt h.power k) hi (.inl hunused)
  have hempty : Unused m (probed m k d) :=
    hfirst.here.resolve_right fun howner => hk (h.mem_of_owner (h.probed_lt k d) howner)
  have hbefore : ∀ e < d, ¬ Unused m (probed m k e) := fun e he hfree => hfirst.before e he (.inl hfree)
  refine ⟨write m ((passedTomb m k d).getD (probed m k d)) ⟨.full, k, v⟩ (m.len + 1),
    fun fuel hfuel => ?_, ?_⟩
  · exact h.toConsistent.place_of_first hfirst (insertBody_of_unused hempty v _)
      (Nat.lt_of_lt_of_le hd hfuel)
  · cases hpassed : passedTomb m k d with
    | none =>
      rw [getD_none]
      refine h.put hk hd (fun hfull => ?_) hbefore
      exact BucketState.noConfusion (Eq.trans (Eq.symm hempty) hfull)
    | some j =>
      obtain ⟨e, he, rfl, htomb⟩ := exists_of_passedTomb hpassed
      rw [getD_some]
      refine h.put hk (he.trans hd) (fun hfull => ?_) fun e' he' => hbefore e' (he'.trans he)
      exact BucketState.noConfusion (htomb.symm.trans hfull)

end Mlang.UnorderedTables
