import Mlang.FlatMapRefinement
import Mlang.FlatSetRefinement

namespace Mlang.FlatContainers

open FiniteMaps FlatMaps FlatSets ObservedRuns OrderedMaps

variable {I K V : Type} [DecidableEq I] [LinearOrder K]

/-- Maps under their names: an operation on one of them, or the merge of one into another. -/
def mapStep : Action I (MapOperation K V) → (I → FlatMap K V) → (I → FlatMap K V) × Answer K V :=
  familyStep FlatMapRefinement.apply FlatMapRefinement.merge

def mapSpec : Action I (MapOperation K V) → (I → FiniteMap K V) → (I → FiniteMap K V) × Answer K V :=
  familyStep mapApply mapMerge

theorem maps_agree (actions : List (Action I (MapOperation K V))) :
    Agrees (fun s t => ∀ i, FlatMapRefinement.Refines (s i) (t i))
      (runs mapStep actions fun _ => FlatMap.new) (runs mapSpec actions fun _ => ∅) :=
  runs_agree (familyStep_agrees FlatMapRefinement.apply_refines FlatMapRefinement.refines_merge)
    (fun _ => FlatMapRefinement.refines_new) actions

theorem replace_unchanged {c : FlatMap K V} {keys : List K} {values : List V}
    (h : (c.replace keys values).2 = false) : (c.replace keys values).1 = c := by
  rw [FlatMap.replace] at h ⊢
  by_cases hlen : values.length ≠ keys.length
  · rw [if_pos hlen]
  · rw [if_neg hlen] at h ⊢
    by_cases hkeys : (!SortedLists.ascends keys) = true
    · rw [if_pos hkeys]
    · rw [if_neg hkeys] at h
      cases h

def setStep : Action I (SetOperation K) → (I → FlatSet K) → (I → FlatSet K) × Answer K Unit :=
  familyStep FlatSetRefinement.apply FlatSetRefinement.merge

def setSpec : Action I (SetOperation K) → (I → Finset K) → (I → Finset K) × Answer K Unit :=
  familyStep setApply setMerge

theorem sets_agree (actions : List (Action I (SetOperation K))) :
    Agrees (fun s t => ∀ i, FlatSetRefinement.Refines (s i) (t i))
      (runs setStep actions fun _ => FlatSet.new) (runs setSpec actions fun _ => ∅) :=
  runs_agree (familyStep_agrees FlatSetRefinement.apply_refines FlatSetRefinement.refines_merge)
    (fun _ => FlatSetRefinement.refines_new) actions

theorem replaceKeys_unchanged {c : FlatSet K} {keys : List K} (h : (c.replace keys).2 = false) :
    (c.replace keys).1 = c := by
  rw [FlatSet.replace] at h ⊢
  by_cases hkeys : (!SortedLists.ascends keys) = true
  · rw [if_pos hkeys]
  · rw [if_neg hkeys] at h
    cases h

/-- Whatever is done to flat maps and flat sets, they answer as finite maps and sets do and hold what these hold, in the order of the keys. -/
theorem flatContainers_refine :
    (∀ actions : List (Action I (MapOperation K V)),
      let flat := runs mapStep actions fun _ => FlatMap.new
      let finite := runs mapSpec actions fun _ => ∅
      flat.2 = finite.2 ∧ ∀ i,
        (flat.1 i).keys.Pairwise (· < ·) ∧
          (∀ k v, (k, v) ∈ (flat.1 i).entries ↔ (finite.1 i).lookup k = some v) ∧
          ∀ keys values, ((flat.1 i).replace keys values).2 = false →
            ((flat.1 i).replace keys values).1 = flat.1 i) ∧
    ∀ actions : List (Action I (SetOperation K)),
      let flat := runs setStep actions fun _ => FlatSet.new
      let finite := runs setSpec actions fun _ => ∅
      flat.2 = finite.2 ∧ ∀ i,
        (flat.1 i).keys.Pairwise (· < ·) ∧
          (∀ k, k ∈ (flat.1 i).keys ↔ k ∈ finite.1 i) ∧
          ∀ keys, ((flat.1 i).replace keys).2 = false → ((flat.1 i).replace keys).1 = flat.1 i := by
  refine ⟨fun actions => ?_, fun actions => ?_⟩
  · have hagrees := maps_agree (I := I) (V := V) actions
    refine ⟨hagrees.answer, fun i => ?_⟩
    have hrefines := hagrees.related i
    exact ⟨List.pairwise_map.2 hrefines.increasing, fun _ _ => hrefines.mem_iff,
      fun _ _ => replace_unchanged⟩
  · have hagrees := sets_agree (I := I) actions
    refine ⟨hagrees.answer, fun i => ?_⟩
    have hrefines := hagrees.related i
    exact ⟨hrefines.increasing, fun _ => FlatSetRefinement.mem_iff hrefines,
      fun _ => replaceKeys_unchanged⟩

theorem maps_eq_iff {c c' : FlatMap K V} {m m' : FiniteMap K V} (h : FlatMapRefinement.Refines c m)
    (h' : FlatMapRefinement.Refines c' m') : c = c' ↔ m = m' := by
  constructor
  · rintro rfl
    refine Finmap.ext_lookup fun k => Option.ext fun v => ?_
    exact (FlatMapRefinement.Refines.mem_iff h).symm.trans (FlatMapRefinement.Refines.mem_iff h')
  · rintro rfl
    obtain ⟨entries⟩ := c
    obtain ⟨entries'⟩ := c'
    have hmem : ∀ e, e ∈ entries ↔ e ∈ entries' := fun e =>
      (FlatMapRefinement.Refines.mem_iff h).trans (FlatMapRefinement.Refines.mem_iff h').symm
    have hperm : entries.Perm entries' :=
      (List.perm_ext_iff_of_nodup (h.increasing.nodup.of_map _) (h'.increasing.nodup.of_map _)).2 hmem
    exact congrArg FlatMap.mk (hperm.eq_of_pairwise (fun a b _ _ hab hba => absurd hab (not_lt_of_gt hba))
      h.increasing h'.increasing)

theorem sets_eq_iff {c c' : FlatSet K} {m m' : Finset K} (h : FlatSetRefinement.Refines c m)
    (h' : FlatSetRefinement.Refines c' m') : c = c' ↔ m = m' := by
  constructor
  · rintro rfl
    exact Finset.ext fun k => (FlatSetRefinement.mem_iff h).symm.trans (FlatSetRefinement.mem_iff h')
  · rintro rfl
    obtain ⟨keys⟩ := c
    obtain ⟨keys'⟩ := c'
    exact congrArg FlatSet.mk (h.increasing.eq_of_mem_iff h'.increasing fun k =>
      (FlatSetRefinement.mem_iff h).trans (FlatSetRefinement.mem_iff h').symm)

/-- Containers are the same entries wherever they are the same map or set, whatever was done to them. -/
theorem flatContainers_canonical (i j : I) :
    (∀ actions actions' : List (Action I (MapOperation K V)),
      (runs mapStep actions fun _ => FlatMap.new).1 i = (runs mapStep actions' fun _ => FlatMap.new).1 j ↔
        (runs mapSpec actions fun _ => ∅).1 i = (runs mapSpec actions' fun _ => ∅).1 j) ∧
    ∀ actions actions' : List (Action I (SetOperation K)),
      (runs setStep actions fun _ => FlatSet.new).1 i = (runs setStep actions' fun _ => FlatSet.new).1 j ↔
        (runs setSpec actions fun _ => ∅).1 i = (runs setSpec actions' fun _ => ∅).1 j :=
  ⟨fun actions actions' => maps_eq_iff ((maps_agree actions).related i) ((maps_agree actions').related j),
    fun actions actions' => sets_eq_iff ((sets_agree actions).related i) ((sets_agree actions').related j)⟩

end Mlang.FlatContainers
