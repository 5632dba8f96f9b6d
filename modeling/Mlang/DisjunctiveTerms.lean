import Mathlib.Data.List.Perm.Basic

namespace Mlang.DisjunctiveTerms

open List

/-! Disjunctions of conjunctions of atoms, compared term by term. -/

variable {α : Type}

abbrev Terms (α : Type) := List (List α)

def Holds (v : α → Prop) (terms : Terms α) : Prop := ∃ term ∈ terms, ∀ a ∈ term, v a

def product (left right : Terms α) : Terms α := left.flatMap fun a => right.map fun b => a ++ b

theorem holds_unit (v : α → Prop) : Holds v [[]] :=
  ⟨[], mem_cons_self, fun _ h => nomatch h⟩

theorem holds_atom (v : α → Prop) (a : α) : Holds v [[a]] ↔ v a := by
  simp [Holds]

theorem holds_append (v : α → Prop) (left right : Terms α) :
    Holds v (left ++ right) ↔ Holds v left ∨ Holds v right := by
  simp only [Holds, mem_append, or_and_right, exists_or]

theorem holds_product (v : α → Prop) (left right : Terms α) :
    Holds v (product left right) ↔ Holds v left ∧ Holds v right := by
  constructor
  · rintro ⟨term, hterm, hall⟩
    obtain ⟨a, ha, hmap⟩ := mem_flatMap.1 hterm
    obtain ⟨b, hb, rfl⟩ := mem_map.1 hmap
    exact ⟨⟨a, ha, fun x hx => hall x (mem_append_left _ hx)⟩,
      ⟨b, hb, fun x hx => hall x (mem_append_right _ hx)⟩⟩
  · rintro ⟨⟨a, ha, halla⟩, b, hb, hallb⟩
    refine ⟨a ++ b, mem_flatMap.2 ⟨a, ha, mem_map.2 ⟨b, hb, rfl⟩⟩, fun x hx => ?_⟩
    rcases mem_append.1 hx with hx | hx
    · exact halla x hx
    · exact hallb x hx

theorem holds_insert (v : α → Prop) (a : α) (terms : Terms α) :
    Holds v (terms.map (a :: ·)) ↔ v a ∧ Holds v terms := by
  constructor
  · rintro ⟨term, hterm, hall⟩
    obtain ⟨b, hb, rfl⟩ := mem_map.1 hterm
    exact ⟨hall a mem_cons_self, b, hb, fun x hx => hall x (mem_cons_of_mem _ hx)⟩
  · rintro ⟨ha, b, hb, hall⟩
    refine ⟨a :: b, mem_map_of_mem hb, fun x hx => ?_⟩
    rcases mem_cons.1 hx with rfl | hx
    · exact ha
    · exact hall x hx

def Refines (left right : Terms α) : Prop := ∀ term ∈ left, ∃ weaker ∈ right, weaker ⊆ term

theorem refines_refl (terms : Terms α) : Refines terms terms :=
  fun term hterm => ⟨term, hterm, List.Subset.refl term⟩

theorem Refines.trans {left middle right : Terms α} (h : Refines left middle)
    (h' : Refines middle right) : Refines left right := by
  intro term hterm
  obtain ⟨weaker, hweaker, hsubset⟩ := h term hterm
  obtain ⟨weakest, hweakest, hsubset'⟩ := h' weaker hweaker
  exact ⟨weakest, hweakest, List.Subset.trans hsubset' hsubset⟩

theorem Refines.holds {left right : Terms α} (h : Refines left right) {v : α → Prop}
    (hleft : Holds v left) : Holds v right := by
  obtain ⟨term, hterm, hall⟩ := hleft
  obtain ⟨weaker, hweaker, hsubset⟩ := h term hterm
  exact ⟨weaker, hweaker, fun a ha => hall a (hsubset ha)⟩

def Stronger (left right : Bool × Terms α) : Prop :=
  (left.1 = false ∧ right.1 = true) ∨
    (left.1 = right.1 ∧ Refines left.2 right.2 ∧ ¬Refines right.2 left.2)

theorem stronger_irrefl (x : Bool × Terms α) : ¬Stronger x x := by
  rintro (⟨h, h'⟩ | ⟨-, h, h'⟩)
  · exact Bool.false_ne_true (h.symm.trans h')
  · exact h' h

theorem Stronger.trans {x y z : Bool × Terms α} (h : Stronger x y) (h' : Stronger y z) :
    Stronger x z := by
  rcases h with ⟨hx, hy⟩ | ⟨hxy, h, hn⟩
  · rcases h' with ⟨hy', -⟩ | ⟨hyz, -, -⟩
    · exact absurd (hy'.symm.trans hy) Bool.false_ne_true
    · exact .inl ⟨hx, hyz ▸ hy⟩
  · rcases h' with ⟨hy, hz⟩ | ⟨hyz, h', hn'⟩
    · exact .inl ⟨hxy.trans hy, hz⟩
    · exact .inr ⟨hxy.trans hyz, h.trans h', fun hzx => hn (h'.trans hzx)⟩

theorem Stronger.asymm {x y : Bool × Terms α} (h : Stronger x y) : ¬Stronger y x :=
  fun h' => stronger_irrefl x (h.trans h')

variable {β : Type} (better : β → β → Bool)

def undominated (xs : List β) : List β := xs.filter fun x => !xs.any fun y => better y x

theorem undominated_perm {xs ys : List β} (h : xs.Perm ys) :
    (undominated better xs).Perm (undominated better ys) := by
  simp only [undominated, h.any_eq]
  exact h.filter _

end Mlang.DisjunctiveTerms
