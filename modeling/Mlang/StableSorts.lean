import Mathlib.Data.List.Sort

namespace Mlang.StableSorts

open List

variable {α : Type} {less : α → α → Bool}

structure StrictWeak (less : α → α → Bool) : Prop where
  asymm : ∀ {a b}, less a b = true → less b a = false
  cut : ∀ {a b c}, less a b = false → less b c = false → less a c = false

def alike (less : α → α → Bool) (a b : α) : Bool := !less a b && !less b a

def Ascending (less : α → α → Bool) (l : List α) : Prop := l.Pairwise fun a b => less b a = false

def keyed {β : Type} (less : α → α → Bool) (key : β → α) (a b : β) : Bool := less (key a) (key b)

structure Stable (less : α → α → Bool) (data sorted : List α) : Prop where
  perm : sorted.Perm data
  ascending : Ascending less sorted
  kept : ∀ a, sorted.filter (alike less a) = data.filter (alike less a)

theorem alike_iff {a b : α} : alike less a b = true ↔ less a b = false ∧ less b a = false := by
  rw [alike, Bool.and_eq_true, Bool.not_eq_true', Bool.not_eq_true']

variable {data right left l : List α}

namespace StrictWeak

variable (hless : StrictWeak less) {a b c : α}
include hless

theorem irrefl (a : α) : less a a = false := by
  cases h : less a a with
  | false => rfl
  | true => exact h.symm.trans (hless.asymm h)

theorem alike_self (a : α) : alike less a a = true := alike_iff.2 ⟨hless.irrefl a, hless.irrefl a⟩

theorem comap {β : Type} (key : β → α) : StrictWeak (keyed less key) where
  asymm h := hless.asymm h
  cut h h' := hless.cut h h'

theorem head_le (h : Ascending less (a :: l)) (hb : b ∈ a :: l) : less b a = false := by
  rcases mem_cons.1 hb with rfl | hb
  · exact hless.irrefl b
  · exact rel_of_pairwise_cons h hb

theorem filter_above (h : Ascending less (a :: l)) (hlt : less b a = true) (hc : alike less c b = true) :
    (a :: l).filter (alike less c) = [] := by
  refine filter_eq_nil_iff.2 fun x hx halike => ?_
  have hx' := hless.head_le h hx
  have hbx : less b x = false := hless.cut (alike_iff.1 hc).2 (alike_iff.1 halike).1
  exact Bool.false_ne_true ((hless.cut hbx hx').symm.trans hlt)

theorem filter_merge (hleft : Ascending less left) (c : α) :
    (left.merge right fun a b => !less b a).filter (alike less c) = left.filter (alike less c) ++
    right.filter (alike less c) := by
  induction left generalizing right with
  | nil => rw [nil_merge, filter_nil, nil_append]
  | cons a left ih =>
    induction right with
    | nil => rw [merge_right, filter_nil, append_nil]
    | cons b right ihr =>
      rw [cons_merge_cons]
      cases hba : less b a with
      | false =>
        rw [if_pos (by rfl), filter_cons, ih (List.Pairwise.of_cons hleft), ← cons_append]
        exact (apply_ite (· ++ (b :: right).filter (alike less c)) _ _ _).symm.trans
          (congrArg (· ++ _) filter_cons.symm)
      | true =>
        rw [if_neg (by decide)]
        cases hcb : alike less c b with
        | false =>
          have hskip : ¬alike less c b = true := by rw [hcb]; decide
          rw [filter_cons_of_neg hskip, filter_cons_of_neg hskip, ihr]
        | true =>
          rw [filter_cons_of_pos hcb, filter_cons_of_pos hcb, ihr, hless.filter_above hleft hba hcb]
          rfl

theorem ascending_merge (hleft : Ascending less left) (hright : Ascending less right) :
    Ascending less (left.merge right fun a b => !less b a) := by
  have hmerge := @pairwise_merge _ (fun a b => !less b a)
    (fun a b c hab hbc => by
      rw [Bool.not_eq_true'] at *
      exact hless.cut hbc hab)
    (fun a b => by
      cases hba : less b a with
      | false => rfl
      | true => rw [hless.asymm hba]; rfl)
    left right (hleft.imp fun h => by rw [h]; rfl) (hright.imp fun h => by rw [h]; rfl)
  exact hmerge.imp fun h => by rwa [Bool.not_eq_true'] at h

theorem ascending_unique {l' : List α} (h : Ascending less l) (h' : Ascending less l')
    (hkept : ∀ a, l.filter (alike less a) = l'.filter (alike less a)) : l = l' := by
  have hmem : ∀ x, x ∈ l ↔ x ∈ l' := fun x => by
    have hx := congrArg (x ∈ ·) (hkept x)
    simpa only [mem_filter, hless.alike_self, and_true, eq_iff_iff] using hx
  induction l generalizing l' with
  | nil => exact (eq_nil_iff_forall_not_mem.2 fun x hx => not_mem_nil ((hmem x).2 hx)).symm
  | cons a l ih =>
    cases l' with
    | nil => cases (hmem a).1 mem_cons_self
    | cons b l' =>
      have hab : less a b = false := hless.head_le h' ((hmem a).1 mem_cons_self)
      have hba : less b a = false := hless.head_le h ((hmem b).2 mem_cons_self)
      have hhead := hkept a
      rw [filter_cons_of_pos (hless.alike_self a), filter_cons_of_pos (alike_iff.2 ⟨hab, hba⟩)]
        at hhead
      obtain rfl := (List.cons.inj hhead).1
      have htail : ∀ c, l.filter (alike less c) = l'.filter (alike less c) := fun c => by
        have hc := hkept c
        rw [filter_cons, filter_cons] at hc
        split at hc
        · exact (List.cons.inj hc).2
        · exact hc
      rw [ih (List.Pairwise.of_cons h) (List.Pairwise.of_cons h') htail fun x => by
        have hx := congrArg (x ∈ ·) (htail x)
        simpa only [mem_filter, hless.alike_self, and_true, eq_iff_iff] using hx]

theorem stable_unique {r r' : List α} (h : Stable less data r) (h' : Stable less data r') : r' = r :=
  hless.ascending_unique h'.ascending h.ascending fun a => (h'.kept a).trans (h.kept a).symm

theorem stable_merge {data' : List α} (hleft : Stable less data left) (hright : Stable less data' right) :
    Stable less (data ++ data') (left.merge right fun a b => !less b a) where
  perm := (merge_perm_append _).trans (hleft.perm.append hright.perm)
  ascending := hless.ascending_merge hleft.ascending hright.ascending
  kept a := by rw [hless.filter_merge hleft.ascending, hleft.kept, hright.kept, filter_append]

/-- An element goes behind what it is not before, and in front of what it is before. -/
theorem stable_insert {front back : List α} (h : Stable less data (front ++ back))
    (hfront : ∀ x ∈ front, less a x = false) (hback : ∀ x ∈ back, less a x = true) :
    Stable less (data ++ [a]) (front ++ a :: back) := by
  obtain ⟨hleft, hright, hcross⟩ := pairwise_append.1 h.ascending
  refine ⟨?_, ?_, fun c => ?_⟩
  · exact (perm_middle.trans (perm_append_singleton a (front ++ back)).symm).trans (h.perm.append_right [a])
  · refine pairwise_append.2 ⟨hleft, pairwise_cons.2 ⟨fun x hx => hless.asymm (hback x hx), hright⟩, ?_⟩
    intro x hx y hy
    rcases mem_cons.1 hy with rfl | hy
    · exact hfront x hx
    · exact hcross x hx y hy
  · rw [filter_append, filter_append, ← h.kept, filter_append, append_assoc]
    refine congrArg _ ?_
    cases hc : alike less c a with
    | false =>
      have hskip : ¬alike less c a = true := by rw [hc]; decide
      rw [filter_cons_of_neg hskip, filter_cons_of_neg hskip, filter_nil, append_nil]
    | true =>
      have hnone : back.filter (alike less c) = [] := by
        refine filter_eq_nil_iff.2 fun x hx halike => ?_
        have hax := hless.cut (alike_iff.1 hc).2 (alike_iff.1 halike).1
        exact Bool.false_ne_true (hax.symm.trans (hback x hx))
      rw [filter_cons_of_pos hc, filter_cons_of_pos hc, hnone]
      rfl

end StrictWeak

theorem stable_small (h : data.length < 2) : Stable less data data where
  perm := List.Perm.refl _
  ascending := by
    obtain _ | ⟨a, _ | ⟨b, l⟩⟩ := data
    · exact List.Pairwise.nil
    · exact pairwise_singleton _ a
    · simp only [length_cons] at h
      omega
  kept _ := rfl

theorem stable_filter {r : List α} (h : Stable less data r) (p : α → Bool) :
    Stable less (data.filter p) (r.filter p) where
  perm := h.perm.filter p
  ascending := h.ascending.filter p
  kept a := by rw [filter_comm, h.kept, filter_comm]

end Mlang.StableSorts
