import Mlang.VersionReading

namespace Mlang.VersionOrder

open BracketedText (Text)
open SemanticVersions VersionPrecedence VersionReading

theorem eq_of_identifier_eq {a b : Text} (ha : validIdentifier a = true)
    (hb : validIdentifier b = true) (h : identifier a = identifier b) : a = b := by
  by_contra hne
  rcases compareIdentifiers_decides ha hb hne with ⟨-, hlt⟩ | ⟨-, hlt⟩
  · exact absurd h (ne_of_lt hlt)
  · exact absurd h.symm (ne_of_lt hlt)

theorem eq_of_map_identifier_eq {s t : List Text}
    (hs : ∀ part ∈ s, validIdentifier part = true) (ht : ∀ part ∈ t, validIdentifier part = true)
    (h : s.map identifier = t.map identifier) : s = t := by
  induction s generalizing t with
  | nil => exact (List.map_eq_nil_iff.1 h.symm).symm
  | cons a s ih =>
    obtain ⟨b, t, rfl, hhead, htail⟩ := List.map_eq_cons_iff.1 h.symm
    obtain ⟨ha, hs⟩ := List.forall_mem_cons.1 hs
    obtain ⟨hb, ht⟩ := List.forall_mem_cons.1 ht
    rw [eq_of_identifier_eq ha hb hhead.symm, ih hs ht htail.symm]

theorem eq_of_tag_eq {s t : List Text} (hs : ∀ part ∈ s, validIdentifier part = true)
    (ht : ∀ part ∈ t, validIdentifier part = true) (h : tag s = tag t) : s = t := by
  rw [tag, tag] at h
  split_ifs at h with hs' ht' ht'
  · rw [hs', ht']
  · exact absurd h WithTop.top_ne_coe
  · exact absurd h WithTop.coe_ne_top
  · exact eq_of_map_identifier_eq hs ht (WithTop.coe_injective h)

theorem eq_of_precedence_eq {lhs rhs : SemanticVersion} (hl : Valid lhs) (hr : Valid rhs)
    (h : precedence lhs = precedence rhs) : lhs = rhs := by
  obtain ⟨hmajor, h⟩ := Prod.mk.inj (toLex.injective h)
  obtain ⟨hminor, h⟩ := Prod.mk.inj (toLex.injective h)
  obtain ⟨hpatch, h⟩ := Prod.mk.inj (toLex.injective h)
  cases lhs
  cases rhs
  rw [SemanticVersion.mk.injEq]
  exact ⟨hmajor, hminor, hpatch, eq_of_tag_eq hl hr h⟩

variable {lhs mid rhs : SemanticVersion}

theorem compare_eq_iff (hl : Valid lhs) (hr : Valid rhs) :
    compareSemanticVersions lhs rhs = .eq ↔ lhs = rhs := by
  have h := compareSemanticVersions_compares hl hr
  rw [h.eq_eq]
  exact ⟨eq_of_precedence_eq hl hr, congrArg precedence⟩

theorem compare_swap (hl : Valid lhs) (hr : Valid rhs) :
    compareSemanticVersions rhs lhs = (compareSemanticVersions lhs rhs).swap :=
  (compareSemanticVersions_compares hr hl).inj
    (Ordering.compares_swap.2 (compareSemanticVersions_compares hl hr))

theorem compare_ne_gt_iff (hl : Valid lhs) (hr : Valid rhs) :
    compareSemanticVersions lhs rhs ≠ .gt ↔ precedence lhs ≤ precedence rhs :=
  (compareSemanticVersions_compares hl hr).ne_gt

/-- The order of the versions that are read from texts. -/
theorem compareSemanticVersions_total {first second third : Text}
    (h₁ : parseSemanticVersion first = some lhs) (h₂ : parseSemanticVersion second = some mid)
    (h₃ : parseSemanticVersion third = some rhs) :
    (compareSemanticVersions lhs mid = .eq ↔
      lhs.major = mid.major ∧ lhs.minor = mid.minor ∧ lhs.patch = mid.patch ∧
        lhs.prerelease = mid.prerelease) ∧
      compareSemanticVersions mid lhs = (compareSemanticVersions lhs mid).swap ∧
      (compareSemanticVersions lhs mid ≠ .gt → compareSemanticVersions mid rhs ≠ .gt →
        compareSemanticVersions lhs rhs ≠ .gt) ∧
      (compareSemanticVersions lhs mid ≠ .gt ∨ compareSemanticVersions mid lhs ≠ .gt) ∧
      (compareSemanticVersions lhs mid).Compares (precedence lhs) (precedence mid) := by
  have hl := (wellRead_of_parse h₁).valid
  have hm := (wellRead_of_parse h₂).valid
  have hr := (wellRead_of_parse h₃).valid
  refine ⟨?_, compare_swap hl hm, ?_, ?_, compareSemanticVersions_compares hl hm⟩
  · rw [compare_eq_iff hl hm]
    cases lhs
    cases mid
    rw [SemanticVersion.mk.injEq]
  · rw [compare_ne_gt_iff hl hm, compare_ne_gt_iff hm hr, compare_ne_gt_iff hl hr]
    exact le_trans
  · rw [compare_ne_gt_iff hl hm, compare_ne_gt_iff hm hl]
    exact le_total _ _

def first (prerelease : List String) : SemanticVersion := ⟨1, 0, 0, prerelease.map String.toList⟩

theorem alphas_compared :
    compareSemanticVersions (first ["alpha", "9"]) (first []) ≠ .gt ∧
      (compareSemanticVersions (first ["alpha", "9"]) (first ["alpha", "10"])).Compares
        (precedence (first ["alpha", "9"])) (precedence (first ["alpha", "10"])) := by
  have h := @compareSemanticVersions_total (first ["alpha", "9"]) (first ["alpha", "10"]) (first [])
    "1.0.0-alpha.9".toList "1.0.0-alpha.10".toList "v1.0.0+build".toList
    (by decide) (by decide) (by decide)
  exact ⟨h.2.2.1 (by decide) (by decide), h.2.2.2.2⟩

end Mlang.VersionOrder
