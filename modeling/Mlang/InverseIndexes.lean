import Mlang.FiniteMaps

namespace Mlang.InverseIndexes

open FiniteMaps

/-! Indexes from names to the sets of what has them, kept without empty sets. -/

variable {K V : Type} [DecidableEq K] [DecidableEq V]

abbrev Index (K V : Type) := FiniteMap K (Finset V)

def members (index : Index K V) (k : K) : Finset V := (index.lookup k).getD ∅

def link (v : V) (index : Index K V) (k : K) : Index K V :=
  index.insert k (Insert.insert v (members index k))

def unlink (v : V) (index : Index K V) (k : K) : Index K V :=
  match index.lookup k with
  | none => index
  | some vs => if vs.erase v = ∅ then index.erase k else index.insert k (vs.erase v)

structure Inverts (index : Index K V) (R : K → V → Prop) : Prop where
  mem_iff : ∀ k v, v ∈ members index k ↔ R k v
  nonempty : ∀ k vs, index.lookup k = some vs → vs.Nonempty

variable {index : Index K V} {R R' : K → V → Prop} {k l : K} {u v : V}

omit [DecidableEq V] in
theorem inverts_empty : Inverts (∅ : Index K V) fun _ _ => False where
  mem_iff k v := by simp [members]
  nonempty k vs h := by simp at h

omit [DecidableEq V] in
theorem Inverts.congr (h : Inverts index R) (hR : ∀ k v, R k v ↔ R' k v) : Inverts index R' :=
  ⟨fun k v => (h.mem_iff k v).trans (hR k v), h.nonempty⟩

theorem members_link : members (link v index k) l =
    if l = k then Insert.insert v (members index k) else members index l := by
  by_cases hl : l = k
  · rw [if_pos hl, hl, members, link, Finmap.lookup_insert, Option.getD_some]
  · rw [if_neg hl, members, link, Finmap.lookup_insert_of_ne _ hl, members]

theorem Inverts.link (h : Inverts index R) :
    Inverts (link v index k) fun l u => R l u ∨ l = k ∧ u = v where
  mem_iff l u := by
    rw [members_link]
    by_cases hl : l = k
    · rw [if_pos hl, hl, Finset.mem_insert, h.mem_iff, or_comm]
      simp
    · rw [if_neg hl, h.mem_iff]
      simp [hl]
  nonempty l vs hvs := by
    by_cases hl : l = k
    · rw [hl, InverseIndexes.link, Finmap.lookup_insert] at hvs
      exact Option.some.inj hvs ▸ Finset.insert_nonempty v _
    · rw [InverseIndexes.link, Finmap.lookup_insert_of_ne _ hl] at hvs
      exact h.nonempty l vs hvs

theorem members_unlink : members (unlink v index k) l =
    if l = k then (members index k).erase v else members index l := by
  rw [unlink]
  cases hvs : index.lookup k with
  | none =>
    by_cases hl : l = k
    · rw [if_pos hl, hl, members, hvs]
      rfl
    · rw [if_neg hl]
  | some vs =>
    have hk : members index k = vs := by rw [members, hvs, Option.getD_some]
    dsimp only
    by_cases hl : l = k
    · rw [if_pos hl, hl, hk]
      split_ifs with hempty
      · rw [members, Finmap.lookup_erase, hempty]
        rfl
      · rw [members, Finmap.lookup_insert, Option.getD_some]
    · rw [if_neg hl]
      split_ifs
      · rw [members, Finmap.lookup_erase_ne hl, members]
      · rw [members, Finmap.lookup_insert_of_ne _ hl, members]

theorem nonempty_unlink (h : ∀ k vs, index.lookup k = some vs → vs.Nonempty) (vs : Finset V)
    (hvs : (unlink v index k).lookup l = some vs) : vs.Nonempty := by
  rw [unlink] at hvs
  cases hold : index.lookup k with
  | none =>
    rw [hold] at hvs
    exact h l vs hvs
  | some old =>
    rw [hold] at hvs
    dsimp only at hvs
    by_cases hl : l = k
    · rw [hl] at hvs
      split_ifs at hvs with hempty
      · rw [Finmap.lookup_erase] at hvs
        cases hvs
      · rw [Finmap.lookup_insert] at hvs
        exact Option.some.inj hvs ▸ Finset.nonempty_iff_ne_empty.2 hempty
    · split_ifs at hvs
      · rw [Finmap.lookup_erase_ne hl] at hvs
        exact h l vs hvs
      · rw [Finmap.lookup_insert_of_ne _ hl] at hvs
        exact h l vs hvs

theorem Inverts.unlink (h : Inverts index R) :
    Inverts (unlink v index k) fun l u => R l u ∧ ¬(l = k ∧ u = v) where
  mem_iff l u := by
    rw [members_unlink]
    by_cases hl : l = k
    · rw [if_pos hl, hl, Finset.mem_erase, h.mem_iff]
      simp [and_comm]
    · rw [if_neg hl, h.mem_iff]
      simp [hl]
  nonempty _ vs hvs := nonempty_unlink h.nonempty vs hvs

theorem Inverts.foldl_link (h : Inverts index R) (names : List K) :
    Inverts (names.foldl (InverseIndexes.link v) index) fun l u => R l u ∨ l ∈ names ∧ u = v := by
  induction names generalizing index R with
  | nil => exact h.congr fun l u => by simp
  | cons k names ih =>
    refine (ih h.link).congr fun l u => ?_
    rw [List.mem_cons, or_and_right, or_assoc]

theorem Inverts.foldl_unlink (h : Inverts index R) (names : List K) :
    Inverts (names.foldl (InverseIndexes.unlink v) index) fun l u => R l u ∧ ¬(l ∈ names ∧ u = v) := by
  induction names generalizing index R with
  | nil => exact h.congr fun l u => by simp
  | cons k names ih =>
    refine (ih h.unlink).congr fun l u => ?_
    rw [List.mem_cons, or_and_right, not_or, and_assoc]

omit [DecidableEq V] in
theorem Inverts.unique {index' : Index K V} (h : Inverts index R) (h' : Inverts index' R) : index = index' := by
  refine Finmap.ext_lookup fun k => ?_
  have hmembers : members index k = members index' k :=
    Finset.ext fun v => (h.mem_iff k v).trans (h'.mem_iff k v).symm
  unfold members at hmembers
  cases hk : index.lookup k with
  | none =>
    cases hk' : index'.lookup k with
    | none => rfl
    | some vs =>
      rw [hk, hk'] at hmembers
      exact absurd hmembers.symm (h'.nonempty k vs hk').ne_empty
  | some vs =>
    cases hk' : index'.lookup k with
    | none =>
      rw [hk, hk'] at hmembers
      exact absurd hmembers (h.nonempty k vs hk).ne_empty
    | some vs' =>
      rw [hk, hk'] at hmembers
      exact congrArg some hmembers

end Mlang.InverseIndexes
