import Mlang.Transitions
import Mlang.UnorderedTables

namespace Mlang.UnorderedRefinement

open FiniteMaps LinearProbing UnorderedMaps UnorderedTables

variable {f : FiniteMap I64 I64} {m : Map} {idx fuel : Nat} {minCap target : Nat} {b : Bucket}
  {seen rest : List Bucket}

def HasUnused (m : Map) : Prop := ∃ b ∈ m.buckets, b.state = .empty

instance (m : Map) : Decidable (HasUnused m) := inferInstanceAs (Decidable (∃ b ∈ m.buckets, _))

theorem hasUnused_iff (h : Consistent m) : HasUnused m ↔ ∃ i < m.cap, Unused m i := by
  constructor
  · rintro ⟨b, hb, hempty⟩
    obtain ⟨i, hi, rfl⟩ := exists_bucket hb
    exact ⟨i, h.slots ▸ hi, hempty⟩
  · rintro ⟨i, hi, hempty⟩
    exact ⟨m.bucket i, bucket_mem (h.slots ▸ hi), hempty⟩

theorem doubled_of_le (h : minCap ≤ target) (fuel : Nat) : doubled minCap fuel target = target := by
  cases fuel with
  | zero => rfl
  | succ fuel => exact if_neg (Nat.not_lt.2 h)

theorem targetOf_double (h : 8 ≤ m.cap) : targetOf m.cap (m.cap * 2) = m.cap * 2 := by
  obtain ⟨fuel, hfuel⟩ : ∃ fuel, m.cap * 2 = fuel + 1 := ⟨m.cap * 2 - 1, by omega⟩
  have hsmaller : m.cap < m.cap * 2 := by omega
  rw [targetOf, if_neg (Nat.not_lt.2 h)]
  calc
    doubled (m.cap * 2) (m.cap * 2) m.cap = doubled (m.cap * 2) (fuel + 1) m.cap := by rw [hfuel]
    _ = doubled (m.cap * 2) fuel (m.cap * 2) := if_pos hsmaller
    _ = m.cap * 2 := doubled_of_le (Nat.le_refl _) fuel

structure Rehashed (target : Nat) (seen : List Bucket) (m : Map) : Prop extends Consistent m where
  cap : m.cap = target
  entries : (bindings m).Perm (seen.filterMap entry)
  clean : ∀ i < m.cap, (m.bucket i).state ≠ .tombstone

theorem Consistent.exists_free (h : Consistent m) (hroom : (bindings m).length < m.cap) :
    ∃ i < m.cap, (m.bucket i).state ≠ .full := by
  by_contra hall
  push Not at hall
  have hcount : (bindings m).length = m.buckets.length := by
    rw [bindings, List.length_filterMap_eq_countP, List.countP_eq_length]
    intro b hb
    obtain ⟨i, hi, rfl⟩ := exists_bucket hb
    rw [entry_full (hall i (h.slots ▸ hi))]
    rfl
  rw [hcount, h.slots] at hroom
  exact lt_irrefl _ hroom

theorem placeBody_of_free (h : (m.bucket idx).state ≠ .full) :
    placeBody m b idx = .inl (write m idx ⟨.full, b.key, b.value⟩ (m.len + 1)) := if_pos h

theorem placeBody_of_full (h : (m.bucket idx).state = .full) :
    placeBody m b idx = .inr (nextOf m.cap idx) := if_neg (not_not.2 h)

theorem Rehashed.step (h : Rehashed target seen m) (hroom : seen.length < target) (b : Bucket) :
    ∃ m', (∀ fuel ≥ target, rehashStep fuel m b = some m') ∧ Rehashed target (seen ++ [b]) m' := by
  by_cases hfull : b.state = .full
  · have hlen : (bindings m).length < m.cap := by
      rw [h.entries.length_eq, h.cap]
      exact Nat.lt_of_le_of_lt (List.length_filterMap_le entry seen) hroom
    obtain ⟨i, hi, hfree⟩ := Consistent.exists_free h.toConsistent hlen
    obtain ⟨d, hd, hfirst⟩ := exists_first (p := fun i => (m.bucket i).state ≠ .full)
      (homeOf_lt h.power b.key) hi hfree
    have hbefore : ∀ e < d, (m.bucket (probed m b.key e)).state = .full := fun e he =>
      not_not.1 (hfirst.before e he)
    obtain ⟨hconsistent, hperm⟩ := h.toConsistent.put (v := b.value) hd hfirst.here fun e he hempty =>
      BucketState.noConfusion (Eq.trans (Eq.symm hempty) (hbefore e he))
    refine ⟨_, fun fuel hfuel => ?_, ⟨hconsistent, h.cap, ?_, ?_⟩⟩
    · rw [rehashStep, if_neg (not_not.2 hfull), ← h.toConsistent.probed_zero]
      refine forever_of_ends (x := probed m b.key) (fun e he => ?_)
        (placeBody_of_free hfirst.here) (Nat.lt_of_lt_of_le hd (h.cap ▸ hfuel))
      rw [placeBody_of_full (hbefore e he), h.toConsistent.next]
    · rw [List.filterMap_append, List.filterMap_cons, entry_full hfull, List.filterMap_nil]
      exact hperm.trans ((h.entries.cons _).trans (List.perm_append_singleton _ _).symm)
    · intro j hj
      rw [bucket_write (h.toConsistent.probed_lt_length b.key d)]
      by_cases hjd : j = probed m b.key d
      · rw [if_pos hjd]
        exact fun heq => nomatch heq
      · rw [if_neg hjd]
        exact h.clean j hj
  · refine ⟨m, fun fuel _ => if_pos hfull, ⟨h.toConsistent, h.cap, ?_, h.clean⟩⟩
    rw [List.filterMap_append, List.filterMap_cons, entry_of_ne hfull, List.filterMap_nil,
      List.append_nil]
    exact h.entries

theorem Rehashed.run (h : Rehashed target seen m) (hroom : (seen ++ rest).length ≤ target) :
    ∃ m', (∀ fuel ≥ target, rest.foldlM (rehashStep fuel) m = some m') ∧
      Rehashed target (seen ++ rest) m' := by
  induction rest generalizing seen m with
  | nil => exact ⟨m, fun _ _ => rfl, (List.append_nil seen).symm ▸ h⟩
  | cons b rest ih =>
    rw [List.length_append, List.length_cons] at hroom
    obtain ⟨next, hstep, hnext⟩ := h.step (by omega) b
    have hsplit : seen ++ [b] ++ rest = seen ++ b :: rest := List.append_assoc seen [b] rest
    obtain ⟨m', hrun, hm'⟩ := ih hnext (by rw [hsplit, List.length_append, List.length_cons]; omega)
    refine ⟨m', fun fuel hfuel => ?_, hsplit ▸ hm'⟩
    rw [List.foldlM_cons, hstep fuel hfuel]
    exact hrun fuel hfuel

theorem bucket_replicate (len : Int) (n i : Nat) :
    Map.bucket { len := len, cap := n, buckets := List.replicate n {} } i = {} := by
  rw [Map.bucket, List.getD_eq_getElem?_getD, List.getElem?_replicate]
  by_cases hi : i < n
  · rw [if_pos hi]
    rfl
  · rw [if_neg hi]
    rfl

theorem rehashed_nil {e : Nat} (hpower : target = 2 ^ e) (hlarge : 8 ≤ target) :
    Rehashed target [] { len := 0, cap := target, buckets := List.replicate target {} } where
  power := ⟨e, hpower⟩
  large := hlarge
  slots := List.length_replicate
  len := by
    rw [bindings, List.filterMap_replicate_of_none rfl]
    rfl
  chained := by
    intro i hi k hk
    rw [owner, bucket_replicate] at hk
    cases hk
  cap := rfl
  entries := by
    rw [bindings, List.filterMap_replicate_of_none rfl]
    exact .refl _
  clean := by
    intro i _
    rw [bucket_replicate]
    exact fun heq => by cases heq

theorem represents_mapNew : Represents mapNew ∅ where
  toConsistent := (rehashed_nil (e := 3) rfl (Nat.le_refl 8)).toConsistent
  lists := lists_nil

theorem Represents.grow (h : Represents m f) (hcrowded : m.crowded) :
    ∃ m', (∀ fuel ≥ m.cap * 2, maybeGrow fuel m = some m') ∧ Represents m' f ∧ m'.cap = m.cap * 2 ∧
      HasUnused m' := by
  obtain ⟨e, hpower⟩ := h.power
  have hlarge := h.large
  have hroom : ([] ++ m.buckets).length ≤ m.cap * 2 := by
    rw [List.nil_append, h.slots]
    omega
  obtain ⟨m', hrun, hm'⟩ := (rehashed_nil
    (by rw [hpower, Nat.pow_succ] : m.cap * 2 = 2 ^ (e + 1)) (by omega)).run hroom
  refine ⟨m', fun fuel hfuel => ?_, ⟨hm'.toConsistent, h.lists.perm hm'.entries⟩, hm'.cap, ?_⟩
  · rw [maybeGrow, if_neg (Nat.not_lt.2 hlarge), if_pos hcrowded, ensureCapacity, targetOf_double hlarge]
    have hgrows : ¬ m.cap ≥ m.cap * 2 := by omega
    exact (if_neg hgrows).trans (hrun fuel hfuel)
  · have hlen : (bindings m').length < m'.cap := by
      rw [hm'.entries.length_eq, hm'.cap, List.nil_append]
      have hle := List.length_filterMap_le entry m.buckets
      rw [h.slots] at hle
      omega
    obtain ⟨i, hi, hfree⟩ := Consistent.exists_free hm'.toConsistent hlen
    refine (hasUnused_iff hm'.toConsistent).2 ⟨i, hi, ?_⟩
    have hclean := hm'.clean i hi
    unfold Unused
    cases hstate : (m'.bucket i).state with
    | empty => rfl
    | full => exact absurd hstate hfree
    | tombstone => exact absurd hstate hclean

theorem Consistent.maybeGrow_eq (h : Consistent m) (hcrowded : ¬ m.crowded) (fuel : Nat) :
    maybeGrow fuel m = some m := by
  rw [maybeGrow, if_neg (Nat.not_lt.2 h.large), if_neg hcrowded]

def apply (f : FiniteMap I64 I64) : Call → FiniteMap I64 I64
  | .insert key value => f.insert key value
  | .remove key => f.erase key
  | _ => f

structure ListedBy (keys values : List I64) (f : FiniteMap I64 I64) : Prop where
  length : keys.length = values.length
  lists : Lists (keys.zip values) f

def Answers (f : FiniteMap I64 I64) (keys values : List I64) : Call → Result → Prop
  | .insert key _, r => r = .number (if key ∈ f then 0 else 1)
  | .contains key, r => r = .number (if key ∈ f then 1 else 0)
  | .getOr key defaultValue, r => r = .value ((f.lookup key).getD defaultValue)
  | .remove key, r => r = .number (if key ∈ f then 1 else 0)
  | .len, r => r = .number f.keys.card
  | .keys, r => r = .list keys ∧ ListedBy keys values f
  | .values, r => r = .list values ∧ ListedBy keys values f

def Bound (m : Map) (key : I64) : Prop := ∃ b ∈ m.buckets, b.state = .full ∧ b.key = key

instance (m : Map) (key : I64) : Decidable (Bound m key) :=
  inferInstanceAs (Decidable (∃ b ∈ m.buckets, _))

/-- The search of a call has an end. -/
def Ends (m : Map) : Call → Prop
  | .insert key _ => m.crowded ∨ Bound m key ∨ HasUnused m
  | .contains key | .getOr key _ | .remove key => Bound m key ∨ HasUnused m
  | .len | .keys | .values => True

instance (m : Map) (c : Call) : Decidable (Ends m c) := by
  cases c <;> unfold Ends <;> infer_instance

theorem listedBy_pairs {pairs : List (I64 × I64)} (h : Lists pairs f) :
    ListedBy (pairs.map Prod.fst) (pairs.map Prod.snd) f where
  length := by rw [List.length_map, List.length_map]
  lists := by
    rw [List.zip_map']
    exact (List.map_id' pairs).symm ▸ h

variable {c : Call} {m' : Map} {k v : I64} {r : Result}

variable (h : Represents m f)
include h

theorem Represents.bound_iff : Bound m k ↔ k ∈ f := by
  constructor
  · rintro ⟨b, hb, hfull, rfl⟩
    obtain ⟨i, hi, rfl⟩ := exists_bucket hb
    exact h.mem_of_owner (h.slots ▸ hi) (owner_of_full hfull)
  · intro hk
    obtain ⟨i, hi, howner⟩ := h.exists_owner hk
    exact ⟨m.bucket i, bucket_mem (h.slots ▸ hi), owner_eq_some howner⟩

theorem Represents.never (hk : k ∉ f) (hused : ¬ HasUnused m) :
    ∀ i < m.cap, ¬ Stops m k i := by
  rintro i hi (hunused | howner)
  · exact hused ((hasUnused_iff h.toConsistent).2 ⟨i, hi, hunused⟩)
  · exact hk (h.mem_of_owner hi howner)

theorem Represents.search_found (hk : k ∈ f) :
    ∃ i < m.cap, owner m i = some k ∧ f.lookup k = some (m.bucket i).value ∧
      ∀ fuel ≥ m.cap, search fuel m k = some (some i) := by
  obtain ⟨i, hi, howner, hsearch⟩ := h.search_of_mem hk
  exact ⟨i, hi, howner, h.lookup_of_owner hi howner, hsearch⟩

theorem Represents.search_absent (hk : k ∉ f) (hunused : HasUnused m) :
    ∀ fuel ≥ m.cap, search fuel m k = some none := by
  obtain ⟨i, hi, hfree⟩ := (hasUnused_iff h.toConsistent).1 hunused
  exact fun fuel hfuel => h.search_of_unused hk hi hfree hfuel

theorem Represents.place_ends (hends : k ∈ f ∨ HasUnused m) (v : I64) :
    ∃ m', (∀ fuel ≥ m.cap, place fuel m k v = some (m', if k ∈ f then 0 else 1)) ∧
      Represents m' (f.insert k v) := by
  by_cases hk : k ∈ f
  · rw [if_pos hk]
    exact h.place_of_mem hk v
  · obtain ⟨i, hi, hfree⟩ := (hasUnused_iff h.toConsistent).1 (hends.resolve_left hk)
    rw [if_neg hk]
    exact h.place_of_unused hk hi hfree v

omit h

theorem insert_eq (fuel : Nat) (m : Map) (k v : I64) :
    UnorderedMaps.insert fuel m k v = (maybeGrow fuel m).bind fun m => place fuel m k v := rfl

theorem Represents.insert_ends (h : Represents m f) (hends : Ends m (.insert k v)) :
    ∃ m', (∀ fuel ≥ m.cap * 2,
        UnorderedMaps.insert fuel m k v = some (m', if k ∈ f then 0 else 1)) ∧
      Represents m' (f.insert k v) := by
  by_cases hcrowded : m.crowded
  · obtain ⟨grown, hgrow, hgrown, hcap, hunused⟩ := Represents.grow h hcrowded
    obtain ⟨m', hplace, hm'⟩ := Represents.place_ends hgrown (.inr hunused) v
    refine ⟨m', fun fuel hfuel => ?_, hm'⟩
    rw [insert_eq, hgrow fuel hfuel]
    exact hplace fuel (hcap ▸ hfuel)
  · obtain ⟨m', hplace, hm'⟩ := Represents.place_ends h
      ((hends.resolve_left hcrowded).imp_left (Represents.bound_iff h).1) v
    refine ⟨m', fun fuel hfuel => ?_, hm'⟩
    rw [insert_eq, Consistent.maybeGrow_eq h.toConsistent hcrowded]
    exact hplace fuel (by omega)

theorem Represents.insert_never (h : Represents m f) (hends : ¬ Ends m (.insert k v)) (fuel : Nat) :
    UnorderedMaps.insert fuel m k v = none := by
  obtain ⟨hcrowded, hends⟩ := not_or.1 hends
  obtain ⟨hbound, hused⟩ := not_or.1 hends
  rw [insert_eq, Consistent.maybeGrow_eq h.toConsistent hcrowded]
  exact h.toConsistent.place_of_never
    (Represents.never h (fun hk => hbound ((Represents.bound_iff h).2 hk)) hused)

theorem map_full_eq {get : Bucket → I64} {pick : I64 × I64 → I64} (hpick : ∀ b, pick (b.key, b.value) = get b)
    (h : m.len = (bindings m).length) :
    (if m.len ≤ 0 then [] else (m.buckets.filter fun b => b.state = .full).map get) =
      (bindings m).map pick := by
  by_cases hlen : m.len ≤ 0
  · have hnil : bindings m = [] := List.eq_nil_of_length_eq_zero (by omega)
    rw [if_pos hlen, hnil]
    rfl
  · rw [if_neg hlen, bindings, List.map_filterMap, ← List.filterMap_eq_map, List.filterMap_filter]
    refine List.filterMap_congr fun b _ => ?_
    by_cases hfull : b.state = .full
    · rw [entry_full hfull, if_pos (decide_eq_true hfull), Option.map_some, hpick]
      rfl
    · rw [entry_of_ne hfull, if_neg (by rwa [decide_eq_true_eq])]
      rfl

theorem keys_eq (h : m.len = (bindings m).length) : m.keys = (bindings m).map Prod.fst :=
  map_full_eq (fun _ => rfl) h

theorem values_eq (h : m.len = (bindings m).length) : m.values = (bindings m).map Prod.snd :=
  map_full_eq (fun _ => rfl) h

theorem Represents.listedBy (h : Represents m f) : ListedBy m.keys m.values f := by
  rw [keys_eq h.len, values_eq h.len]
  exact listedBy_pairs h.lists

theorem Represents.call_ends (h : Represents m f) (hends : Ends m c) :
    ∃ m' r, (∀ fuel ≥ m.cap * 2, m.call fuel c = some (m', r)) ∧ Represents m' (apply f c) ∧
      Answers f m.keys m.values c r := by
  cases c with
  | insert key value =>
    obtain ⟨m', hinsert, hm'⟩ := Represents.insert_ends h hends
    exact ⟨m', _, fun fuel hfuel => by rw [Map.call, hinsert fuel hfuel]; rfl, hm', rfl⟩
  | contains key =>
    by_cases hk : key ∈ f
    · obtain ⟨i, _, _, _, hsearch⟩ := Represents.search_found h hk
      refine ⟨m, .number 1, fun fuel hfuel => ?_, h, by rw [Answers, if_pos hk]⟩
      rw [Map.call, contains, hsearch fuel (by omega)]
      rfl
    · have hsearch := Represents.search_absent h hk (hends.resolve_left fun hbound =>
        hk ((Represents.bound_iff h).1 hbound))
      refine ⟨m, .number 0, fun fuel hfuel => ?_, h, by rw [Answers, if_neg hk]⟩
      rw [Map.call, contains, hsearch fuel (by omega)]
      rfl
  | getOr key defaultValue =>
    by_cases hk : key ∈ f
    · obtain ⟨i, _, _, hlookup, hsearch⟩ := Represents.search_found h hk
      refine ⟨m, .value (m.bucket i).value, fun fuel hfuel => ?_, h, by rw [Answers, hlookup]; rfl⟩
      rw [Map.call, getOr, hsearch fuel (by omega)]
      rfl
    · have hsearch := Represents.search_absent h hk (hends.resolve_left fun hbound =>
        hk ((Represents.bound_iff h).1 hbound))
      refine ⟨m, .value defaultValue, fun fuel hfuel => ?_, h,
        by rw [Answers, Finmap.lookup_eq_none.2 hk]; rfl⟩
      rw [Map.call, getOr, hsearch fuel (by omega)]
      rfl
  | remove key =>
    by_cases hk : key ∈ f
    · obtain ⟨i, hi, howner, _, hsearch⟩ := Represents.search_found h hk
      refine ⟨_, .number 1, fun fuel hfuel => ?_, h.erase hi howner, by rw [Answers, if_pos hk]⟩
      rw [Map.call, remove, hsearch fuel (by omega)]
      rfl
    · have hsearch := Represents.search_absent h hk (hends.resolve_left fun hbound =>
        hk ((Represents.bound_iff h).1 hbound))
      refine ⟨m, .number 0, fun fuel hfuel => ?_, by rwa [apply, erase_of_notMem hk],
        by rw [Answers, if_neg hk]⟩
      rw [Map.call, remove, hsearch fuel (by omega)]
      rfl
  | len =>
    refine ⟨m, .number m.len, fun _ _ => rfl, h, ?_⟩
    rw [Answers, h.lists.card_keys, h.len]
  | keys => exact ⟨m, .list m.keys, fun _ _ => rfl, h, rfl, Represents.listedBy h⟩
  | values => exact ⟨m, .list m.values, fun _ _ => rfl, h, rfl, Represents.listedBy h⟩

theorem Represents.call_never (h : Represents m f) (hends : ¬ Ends m c) (fuel : Nat) :
    m.call fuel c = none := by
  have hsearch : ∀ {key}, ¬ (Bound m key ∨ HasUnused m) → search fuel m key = none := by
    intro key hends
    obtain ⟨hbound, hused⟩ := not_or.1 hends
    exact h.toConsistent.search_of_never
      (Represents.never h (fun hk => hbound ((Represents.bound_iff h).2 hk)) hused)
  cases c with
  | insert key value => rw [Map.call, Represents.insert_never h hends]; rfl
  | contains key => rw [Map.call, contains, hsearch hends]; rfl
  | getOr key defaultValue => rw [Map.call, getOr, hsearch hends]; rfl
  | remove key => rw [Map.call, remove, hsearch hends]; rfl
  | len | keys | values => exact absurd trivial hends

section Vectors

variable {m : VecMap} {k v : I64} {i : Nat}

theorem vecMapGrow_items (m : VecMap) (minCap : Nat) : (vecMapGrow m minCap).items = m.items := by
  rw [vecMapGrow]
  by_cases hlarge : targetOf m.cap minCap ≤ m.cap
  · rw [if_pos hlarge]
  · rw [if_neg hlarge]

theorem find_eq_some (h : m.find k = some i) : ∃ w, m.items[i]? = some (k, w) := by
  obtain ⟨hlt, hkey, _⟩ := List.findIdx?_eq_some_iff_getElem.1 h
  refine ⟨m.items[i].2, ?_⟩
  rw [List.getElem?_eq_getElem hlt, ← of_decide_eq_true hkey]

theorem find_eq_none (h : m.find k = none) (hlists : Lists m.items f) : k ∉ f := by
  intro hk
  obtain ⟨item, hitem, rfl⟩ := List.mem_map.1 (hlists.mem_keys_iff.2 hk)
  have hne := List.findIdx?_eq_none_iff.1 h item hitem
  exact absurd rfl (of_decide_eq_false hne)

theorem mem_of_find (h : m.find k = some i) (hlists : Lists m.items f) : k ∈ f := by
  obtain ⟨w, hw⟩ := find_eq_some h
  exact hlists.mem (List.mem_of_getElem? hw)

theorem vec_call (h : Lists m.items f) :
    Lists (m.call c).1.items (apply f c) ∧ Answers f m.keys m.values c (m.call c).2 := by
  cases c with
  | insert key value =>
    rw [VecMap.call, vecMapSet, Answers]
    cases hfind : m.find key with
    | none =>
      have hk := find_eq_none hfind h
      refine ⟨?_, by rw [if_neg hk]⟩
      dsimp only
      rw [vecMapGrow_items]
      exact (h.cons hk).perm (List.perm_append_singleton _ _)
    | some i =>
      obtain ⟨w, hw⟩ := find_eq_some hfind
      obtain ⟨rest, hperm, hset⟩ := set_perm hw
      refine ⟨(Lists.update (h.perm hperm.symm)).perm (hset _), by rw [if_pos (mem_of_find hfind h)]⟩
  | contains key =>
    rw [VecMap.call, vecMapHas, Answers]
    cases hfind : m.find key with
    | none => exact ⟨h, by rw [if_neg (find_eq_none hfind h)]⟩
    | some i => exact ⟨h, by rw [if_pos (mem_of_find hfind h)]⟩
  | getOr key defaultValue =>
    rw [VecMap.call, vecMapGetOr, Answers]
    cases hfind : m.find key with
    | none => exact ⟨h, by rw [Finmap.lookup_eq_none.2 (find_eq_none hfind h)]; rfl⟩
    | some i =>
      obtain ⟨w, hw⟩ := find_eq_some hfind
      refine ⟨h, ?_⟩
      rw [h.lookup_eq (List.mem_of_getElem? hw)]
      dsimp only
      rw [List.getD_eq_getElem?_getD, hw]
      rfl
  | remove key =>
    rw [VecMap.call, vecMapDel, Answers]
    cases hfind : m.find key with
    | none =>
      have hk := find_eq_none hfind h
      exact ⟨by rwa [apply, erase_of_notMem hk], by rw [if_neg hk]⟩
    | some i =>
      obtain ⟨w, hw⟩ := find_eq_some hfind
      exact ⟨Lists.of_cons (h.perm (dropLast_set_perm hw).symm), by rw [if_pos (mem_of_find hfind h)]⟩
  | len => exact ⟨h, by rw [Answers, h.card_keys]; rfl⟩
  | keys => exact ⟨h, rfl, listedBy_pairs h⟩
  | values => exact ⟨h, rfl, listedBy_pairs h⟩

end Vectors

structure State where
  map : Map
  vec : VecMap
  spec : FiniteMap I64 I64

def start : State := { map := mapNew, vec := vecMapNew, spec := ∅ }

/-- A call of both maps. There is no next state where the call of the hash map does not return. -/
def step (c : Call) (s : State) : Option State :=
  (s.map.call (s.map.cap * 2) c).map fun (m, _) =>
    { map := m, vec := (s.vec.call c).1, spec := apply s.spec c }

structure Faithful (c : Call) (s : State) : Prop where
  map : ∃ bound m r, (∀ fuel ≥ bound, s.map.call fuel c = some (m, r)) ∧
    Answers s.spec s.map.keys s.map.values c r
  vec : Answers s.spec s.vec.keys s.vec.values c (s.vec.call c).2

structure Coherent (s : State) : Prop where
  map : Represents s.map s.spec
  vec : Lists s.vec.items s.spec

variable {s s' : State}

theorem coherent_start : Coherent start where
  map := represents_mapNew
  vec := lists_nil

theorem Coherent.faithful_iff (h : Coherent s) (c : Call) : Faithful c s ↔ Ends s.map c := by
  constructor
  · rintro ⟨⟨bound, m, r, hcall, _⟩, _⟩
    by_contra hends
    have hreturns := hcall bound (Nat.le_refl bound)
    rw [Represents.call_never h.map hends] at hreturns
    cases hreturns
  · intro hends
    obtain ⟨m, r, hcall, _, hanswers⟩ := Represents.call_ends h.map hends
    exact ⟨⟨s.map.cap * 2, m, r, hcall, hanswers⟩, (vec_call h.vec).2⟩

theorem Coherent.step (h : Coherent s) (hstep : step c s = some s') : Coherent s' := by
  have hends : Ends s.map c := by
    by_contra hends
    rw [UnorderedRefinement.step, Represents.call_never h.map hends] at hstep
    cases hstep
  obtain ⟨m, r, hcall, hrepresents, _⟩ := Represents.call_ends h.map hends
  rw [UnorderedRefinement.step, hcall _ (Nat.le_refl _)] at hstep
  obtain rfl := Option.some.inj hstep
  exact ⟨hrepresents, (vec_call h.vec).1⟩

theorem coherent_of_run {calls : List Call} (h : Transitions.run step calls start = some s) :
    Coherent s :=
  (Transitions.reachable_of_run h).invariant coherent_start fun _ _ _ hs _ hstep => hs.step hstep

/-- A run of calls is one of the finite map exactly where each search has an end. -/
theorem maps_refine_iff (calls : List Call) :
    Transitions.Along step Faithful start calls ↔
      Transitions.Along step (fun c s => Ends s.map c) start calls :=
  Transitions.along_iff (I := Coherent) (fun c _ hs => hs.faithful_iff c)
    (fun _ _ _ hs _ hstep => hs.step hstep) coherent_start

def usedUp : List Call :=
  [0, 1, 2, 3, 4, 6, 19, 28].flatMap fun key => [.insert key key, .remove key]

theorem usedUp_notFaithful : ¬ ∀ calls, Transitions.Along step Faithful start calls := by
  intro hall
  have hrun : (Transitions.run step usedUp start).any
      (fun s => decide (¬ Ends s.map (.contains 5))) = true := by decide +kernel
  obtain ⟨s, hs, hnever⟩ := (Option.any_eq_true _ _).1 hrun
  have hfaithful := Transitions.along_at (hall (usedUp ++ [.contains 5])) hs
  exact of_decide_eq_true hnever (((coherent_of_run hs).faithful_iff _).1 hfaithful)

end Mlang.UnorderedRefinement
