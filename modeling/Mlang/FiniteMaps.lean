import Mathlib.Data.Finmap

namespace Mlang.FiniteMaps

open List

/-! Finite maps that are kept as the pairs of their keys and values, in some order. -/

variable {K V : Type}

abbrev FiniteMap (K V : Type) := Finmap fun _ : K => V

section Bindings

variable [DecidableEq K]

structure Lists (pairs : List (K × V)) (m : FiniteMap K V) : Prop where
  nodup : (pairs.map Prod.fst).Nodup
  mem_iff : ∀ k v, (k, v) ∈ pairs ↔ m.lookup k = some v

variable {pairs pairs' : List (K × V)} {m : FiniteMap K V} {k : K} {v w : V}

theorem lists_nil : Lists ([] : List (K × V)) ∅ where
  nodup := nodup_nil
  mem_iff k v := by
    rw [Finmap.lookup_empty]
    exact ⟨fun h => absurd h not_mem_nil, fun h => nomatch h⟩

variable (h : Lists pairs m)
include h

theorem Lists.perm (hperm : pairs'.Perm pairs) : Lists pairs' m where
  nodup := (hperm.map Prod.fst).nodup_iff.2 h.nodup
  mem_iff k v := hperm.mem_iff.trans (h.mem_iff k v)

theorem Lists.mem_keys_iff : k ∈ pairs.map Prod.fst ↔ k ∈ m := by
  rw [Finmap.mem_iff]
  constructor
  · intro hk
    obtain ⟨⟨_, v⟩, hmem, rfl⟩ := mem_map.1 hk
    exact ⟨v, (h.mem_iff _ v).1 hmem⟩
  · rintro ⟨v, hv⟩
    exact mem_map.2 ⟨(k, v), (h.mem_iff k v).2 hv, rfl⟩

theorem Lists.lookup_eq (hmem : (k, v) ∈ pairs) : m.lookup k = some v :=
  (h.mem_iff k v).1 hmem

theorem Lists.mem (hmem : (k, v) ∈ pairs) : k ∈ m :=
  Finmap.mem_of_lookup_eq_some (h.lookup_eq hmem)

theorem Lists.card_keys : m.keys.card = pairs.length := by
  have hkeys : m.keys = (pairs.map Prod.fst).toFinset := by
    ext k
    rw [Finmap.mem_keys, mem_toFinset, h.mem_keys_iff]
  rw [hkeys, toFinset_card_of_nodup h.nodup, length_map]

theorem Lists.cons (hnew : k ∉ m) : Lists ((k, v) :: pairs) (m.insert k v) where
  nodup := nodup_cons.2 ⟨fun hk => hnew (h.mem_keys_iff.1 hk), h.nodup⟩
  mem_iff l w := by
    rw [mem_cons, h.mem_iff]
    by_cases hl : l = k
    · rw [hl, Finmap.lookup_insert, Finmap.lookup_eq_none.2 hnew, Prod.mk.injEq, Option.some.injEq]
      exact ⟨fun hor => hor.elim (fun heq => heq.2.symm) (fun heq => nomatch heq),
        fun heq => .inl ⟨rfl, heq.symm⟩⟩
    · rw [Finmap.lookup_insert_of_ne m hl, Prod.mk.injEq]
      exact ⟨fun hor => hor.resolve_left fun heq => hl heq.1, .inr⟩

omit h

theorem erase_of_notMem (h : k ∉ m) : m.erase k = m := by
  refine Finmap.ext_lookup fun l => ?_
  by_cases hl : l = k
  · rw [hl, Finmap.lookup_erase, Finmap.lookup_eq_none.2 h]
  · exact Finmap.lookup_erase_ne hl

theorem Lists.of_cons (h : Lists ((k, v) :: pairs) m) : Lists pairs (m.erase k) where
  nodup := (nodup_cons.1 h.nodup).2
  mem_iff l w := by
    have hnew : k ∉ pairs.map Prod.fst := (nodup_cons.1 h.nodup).1
    by_cases hl : l = k
    · rw [hl, Finmap.lookup_erase]
      exact ⟨fun hmem => absurd (mem_map.2 ⟨_, hmem, rfl⟩) hnew, fun heq => nomatch heq⟩
    · rw [Finmap.lookup_erase_ne hl, ← h.mem_iff, mem_cons, Prod.mk.injEq]
      exact ⟨.inr, fun hor => hor.resolve_left fun heq => hl heq.1⟩

theorem Lists.update (h : Lists ((k, v) :: pairs) m) : Lists ((k, w) :: pairs) (m.insert k w) where
  nodup := h.nodup
  mem_iff l x := by
    have hnew : k ∉ pairs.map Prod.fst := (nodup_cons.1 h.nodup).1
    rw [mem_cons, Prod.mk.injEq]
    by_cases hl : l = k
    · rw [hl, Finmap.lookup_insert, Option.some.injEq]
      exact ⟨fun hor => hor.elim (fun heq => heq.2.symm)
        (fun hmem => absurd (mem_map.2 ⟨_, hmem, rfl⟩) hnew), fun heq => .inl ⟨rfl, heq.symm⟩⟩
    · rw [Finmap.lookup_insert_of_ne m hl, ← h.mem_iff, mem_cons, Prod.mk.injEq]
      exact ⟨fun hor => .inr (hor.resolve_left fun heq => hl heq.1),
        fun hor => .inr (hor.resolve_left fun heq => hl heq.1)⟩

end Bindings

section Keeping

variable [DecidableEq K]

def keep (p : K → V → Bool) (m : FiniteMap K V) : FiniteMap K V where
  entries := m.entries.filter fun e => p e.1 e.2
  nodupKeys := Multiset.nodup_keys.1 (Multiset.nodup_of_le
    (Multiset.map_le_map (Multiset.filter_le _ _)) (Multiset.nodup_keys.2 m.nodupKeys))

def putAll (m : FiniteMap K V) (pairs : List (K × V)) : FiniteMap K V :=
  pairs.foldl (fun m kv => m.insert kv.1 kv.2) m

variable {p : K → V → Bool} {m : FiniteMap K V} {pairs : List (K × V)} {k : K} {v : V}

theorem lookup_keep_iff : (keep p m).lookup k = some v ↔ m.lookup k = some v ∧ p k v = true := by
  rw [Finmap.lookup_eq_some_iff, Finmap.lookup_eq_some_iff, keep, Multiset.mem_filter]

theorem lookup_putAll_iff (hnodup : (pairs.map Prod.fst).Nodup) (hnew : ∀ kv ∈ pairs, kv.1 ∉ m) :
    (putAll m pairs).lookup k = some v ↔ (k, v) ∈ pairs ∨ m.lookup k = some v := by
  induction pairs generalizing m with
  | nil => exact ⟨.inr, fun h => h.resolve_left not_mem_nil⟩
  | cons kv pairs ih =>
    obtain ⟨hkv, hnodup⟩ := nodup_cons.1 hnodup
    have hnew' : ∀ kv' ∈ pairs, kv'.1 ∉ m.insert kv.1 kv.2 := by
      intro kv' hkv' hmem
      rcases Finmap.mem_insert.1 hmem with heq | hmem
      · exact hkv (mem_map.2 ⟨kv', hkv', heq⟩)
      · exact hnew kv' (mem_cons_of_mem _ hkv') hmem
    rw [putAll, foldl_cons, ← putAll, ih hnodup hnew', mem_cons, or_comm (a := _ = _), or_assoc]
    refine or_congr_right ?_
    by_cases hk : k = kv.1
    · rw [hk, Finmap.lookup_insert, Finmap.lookup_eq_none.2 (hnew kv mem_cons_self), Option.some.injEq]
      exact ⟨fun h => .inl (Prod.ext rfl h.symm),
        fun h => h.elim (fun h => (congrArg Prod.snd h).symm) fun h => nomatch h⟩
    · rw [Finmap.lookup_insert_of_ne m hk]
      exact ⟨.inr, fun h => h.resolve_left fun h => hk (congrArg Prod.fst h)⟩

end Keeping

variable {B C : Type} {g : B → Option C} {slots : List B} {i : Nat} {b old : B}

/-- One of the slots is written: what the others hold stays. -/
theorem filterMap_set (h : slots[i]? = some old) :
    ∃ rest, (slots.filterMap g).Perm ((g old).toList ++ rest) ∧
      ∀ b, ((slots.set i b).filterMap g).Perm ((g b).toList ++ rest) := by
  obtain ⟨hlt, hold⟩ := List.getElem?_eq_some_iff.1 h
  have hsplit : ∀ b, ((slots.set i b).filterMap g).Perm
      ((g b).toList ++ ((slots.take i).filterMap g ++ (slots.drop (i + 1)).filterMap g)) := by
    intro b
    rw [set_eq_take_append_cons_drop, if_pos hlt, filterMap_append, filterMap_cons]
    cases g b with
    | none => exact .refl _
    | some kv => exact perm_middle
  refine ⟨_, ?_, hsplit⟩
  have hsame : slots.set i old = slots := by rw [← hold, set_getElem_self]
  have hslots := hsplit old
  rwa [hsame] at hslots

theorem set_perm (h : slots[i]? = some old) :
    ∃ rest, slots.Perm (old :: rest) ∧ ∀ b, (slots.set i b).Perm (b :: rest) := by
  obtain ⟨rest, hold, hnew⟩ := filterMap_set (g := some) h
  rw [filterMap_some] at hold
  refine ⟨rest, hold, fun b => ?_⟩
  have hset := hnew b
  rwa [filterMap_some] at hset

theorem dropLast_set_perm (h : slots[i]? = some old) :
    slots.Perm (old :: (slots.set i (slots.getD (slots.length - 1) b)).dropLast) := by
  obtain ⟨hlt, hold⟩ := List.getElem?_eq_some_iff.1 h
  obtain ⟨front, last, rfl⟩ := (eq_nil_or_concat' slots).resolve_left
    (ne_nil_of_length_pos (Nat.zero_lt_of_lt hlt))
  have hlast : (front ++ [last]).getD ((front ++ [last]).length - 1) b = last := by
    rw [length_append, length_singleton, Nat.add_sub_cancel, getD_eq_getElem?_getD,
      getElem?_concat_length]
    rfl
  rw [hlast]
  rcases Nat.lt_or_ge i front.length with hfront | hback
  · rw [set_append_left _ _ hfront, dropLast_concat]
    rw [getElem?_append_left hfront] at h
    obtain ⟨rest, hperm, hset⟩ := set_perm h
    calc
      (front ++ [last]).Perm (last :: front) := perm_append_singleton last front
      List.Perm _ (last :: old :: rest) := hperm.cons last
      List.Perm _ (old :: last :: rest) := .swap old last rest
      List.Perm _ (old :: front.set i last) := (hset last).symm.cons old
  · rw [length_append, length_singleton] at hlt
    obtain rfl : i = front.length := by omega
    rw [getElem?_concat_length] at h
    obtain rfl := Option.some.inj h
    rw [set_append_right _ _ (Nat.le_refl _), Nat.sub_self, set_cons_zero, dropLast_concat]
    exact perm_append_singleton last front

end Mlang.FiniteMaps
