import Mathlib.Data.List.Nodup
import Mathlib.Data.List.Perm.Basic

namespace Mlang.OrderedTables

open List

/-! Tables with one value for a key, whose entries are kept in an order of their keys. -/

variable {κ ν : Type} [DecidableEq κ]

abbrev Table (κ ν : Type) := List (κ × ν)

def find (t : Table κ ν) (k : κ) : Option ν := (t.find? fun e => decide (e.1 = k)).map Prod.snd

def erase (t : Table κ ν) (k : κ) : Table κ ν := t.filter fun e => decide (e.1 ≠ k)

def place (before : κ → κ → Bool) (k : κ) (v : ν) : Table κ ν → Table κ ν
  | [] => [(k, v)]
  | e :: t => if before k e.1 then (k, v) :: e :: t else e :: place before k v t

def insert (before : κ → κ → Bool) (t : Table κ ν) (k : κ) (v : ν) : Table κ ν :=
  place before k v (erase t k)

variable (before : κ → κ → Bool) (t : Table κ ν) (k : κ) (v : ν)

theorem mem_erase (e : κ × ν) : e ∈ erase t k ↔ e ∈ t ∧ e.1 ≠ k := by
  simp [erase]

omit [DecidableEq κ] in
theorem place_perm : (place before k v t).Perm ((k, v) :: t) := by
  induction t with
  | nil => exact List.Perm.refl _
  | cons e t ih =>
    unfold place
    split
    · exact List.Perm.refl _
    · exact (ih.cons e).trans (List.Perm.swap _ _ _)

@[simp] theorem mem_insert (e : κ × ν) : e ∈ insert before t k v ↔ e = (k, v) ∨ (e ∈ t ∧ e.1 ≠ k) := by
  rw [insert, (place_perm before (erase t k) k v).mem_iff, mem_cons, mem_erase]

theorem mem_of_find {t : Table κ ν} {k : κ} {v : ν} (h : find t k = some v) : (k, v) ∈ t := by
  obtain ⟨e, he, rfl⟩ := Option.map_eq_some_iff.1 h
  have hkey : e.1 = k := by simpa using find?_some he
  rw [← hkey]
  exact mem_of_find?_eq_some he

theorem find_eq_none {t : Table κ ν} {k : κ} : find t k = none ↔ ∀ e ∈ t, e.1 ≠ k := by
  simp [find]

theorem find_cons (e : κ × ν) (k' : κ) : find (e :: t) k' = if e.1 = k' then some e.2 else find t k' := by
  unfold find
  rw [find?_cons]
  split_ifs with h <;> simp [h]

@[simp] theorem find_erase (k' : κ) : find (erase t k) k' = if k' = k then none else find t k' := by
  induction t with
  | nil => simp [erase, find]
  | cons e t ih =>
    by_cases he : e.1 = k
    · rw [erase, filter_cons_of_neg (by simp [he]), ← erase, ih, find_cons, he]
      by_cases hk : k' = k
      · rw [if_pos hk, if_pos hk]
      · rw [if_neg hk, if_neg hk, if_neg (Ne.symm hk)]
    · rw [erase, filter_cons_of_pos (by simp [he]), ← erase, find_cons, find_cons, ih]
      by_cases hk : k' = k
      · rw [if_pos hk, if_pos hk, if_neg (hk ▸ he)]
      · rw [if_neg hk, if_neg hk]

theorem find_place (hk : ∀ e ∈ t, e.1 ≠ k) (k' : κ) :
    find (place before k v t) k' = if k' = k then some v else find t k' := by
  induction t with
  | nil =>
    rw [place, find_cons]
    by_cases h : k' = k
    · rw [if_pos h, if_pos h.symm]
    · rw [if_neg h, if_neg (Ne.symm h)]
  | cons e t ih =>
    obtain ⟨he, ht⟩ := List.forall_mem_cons.1 hk
    unfold place
    split
    · rw [find_cons]
      by_cases h : k' = k
      · rw [if_pos h.symm, if_pos h]
      · rw [if_neg (Ne.symm h), if_neg h]
    · rw [find_cons, find_cons, ih ht]
      by_cases h : k' = k
      · rw [if_neg (h ▸ he), if_pos h, if_pos h]
      · rw [if_neg h, if_neg h]

@[simp] theorem find_insert (k' : κ) :
    find (insert before t k v) k' = if k' = k then some v else find t k' := by
  rw [insert, find_place before _ k v (fun e he => ((mem_erase t k e).1 he).2), find_erase]
  split_ifs <;> rfl

variable {t : Table κ ν}

variable (h : (t.map Prod.fst).Nodup)
include h

theorem nodup_erase (k : κ) : ((erase t k).map Prod.fst).Nodup :=
  (List.filter_sublist.map Prod.fst).nodup h

theorem nodup_insert (k : κ) (v : ν) :
    ((insert before t k v).map Prod.fst).Nodup := by
  rw [insert, ((place_perm before (erase t k) k v).map Prod.fst).nodup_iff, map_cons, nodup_cons]
  refine ⟨fun hk => ?_, nodup_erase h k⟩
  obtain ⟨e, he, hkey⟩ := List.mem_map.1 hk
  exact ((mem_erase t k e).1 he).2 hkey

omit [DecidableEq κ] in
theorem eq_of_mem {e e' : κ × ν} (he : e ∈ t) (he' : e' ∈ t)
    (hkey : e.1 = e'.1) : e = e' :=
  inj_on_of_nodup_map h he he' hkey

end Mlang.OrderedTables
