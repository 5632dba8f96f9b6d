import Mlang.BorrowSources

namespace Mlang.BorrowAlternatives

open Mangling (Name)
open OrderedTables PointerBorrows BorrowRecords BorrowRegistration BorrowSources List

variable {orders : Orders} {ν : Type} {v : ν}

section Merging

variable {pointer : Name}

theorem commonValue_eq_some [DecidableEq ν] {values : List (Option ν)} :
    commonValue values = some v ↔ values ≠ [] ∧ ∀ x ∈ values, x = some v := by
  cases values with
  | nil => simp [commonValue]
  | cons x rest =>
    cases x with
    | none => simp [commonValue]
    | some w =>
      simp only [commonValue, Option.ite_none_right_eq_some, all_eq_true, beq_iff_eq,
        Option.some.injEq, ne_eq, cons_ne_nil, not_false_eq_true, true_and,
        forall_mem_cons]
      constructor
      · rintro ⟨hrest, rfl⟩
        exact ⟨rfl, hrest⟩
      · rintro ⟨rfl, hrest⟩
        exact ⟨hrest, rfl⟩

theorem mem_addKeys (added : Table BorrowKey Name) (borrows : Table BorrowKey Name)
    (hapart : ∀ b ∈ added, b.2 = pointer → ∀ x, (b.1, x) ∈ borrows → x = pointer) (e : BorrowKey × Name) :
    e ∈ added.foldl (fun borrows b =>
        if b.2 = pointer ∧ find borrows b.1 = none then insert orders.keys borrows b.1 pointer
        else borrows) borrows ↔ e ∈ borrows ∨ (e ∈ added ∧ e.2 = pointer) := by
  induction added generalizing borrows with
  | nil => simp
  | cons b added ih =>
    obtain ⟨hb, hadded⟩ := forall_mem_cons.1 hapart
    have hstep : ∀ e, e ∈ (if b.2 = pointer ∧ find borrows b.1 = none then
          insert orders.keys borrows b.1 pointer else borrows) ↔
        e ∈ borrows ∨ (e = b ∧ b.2 = pointer) := by
      intro e
      obtain ⟨key, holder⟩ := b
      split_ifs with hnew
      · obtain ⟨rfl, hnone⟩ := hnew
        rw [mem_insert]
        constructor
        · rintro (rfl | ⟨he, -⟩)
          · exact .inr ⟨rfl, rfl⟩
          · exact .inl he
        · rintro (he | ⟨rfl, -⟩)
          · exact .inr ⟨he, find_eq_none.1 hnone e he⟩
          · exact .inl rfl
      · refine ⟨.inl, ?_⟩
        rintro (he | ⟨rfl, rfl⟩)
        · exact he
        · obtain ⟨x, hx⟩ := Option.ne_none_iff_exists'.1 fun hnone => hnew ⟨rfl, hnone⟩
          have hmem := mem_of_find hx
          rwa [hb rfl x hmem] at hmem
    rw [foldl_cons, ih]
    · rw [hstep, mem_cons, or_assoc]
      refine or_congr Iff.rfl ?_
      constructor
      · rintro (⟨rfl, hname⟩ | ⟨he, hname⟩)
        · exact ⟨.inl rfl, hname⟩
        · exact ⟨.inr he, hname⟩
      · rintro ⟨rfl | he, hname⟩
        · exact .inl ⟨rfl, hname⟩
        · exact .inr ⟨he, hname⟩
    · intro b' hb' hname x hx
      rcases (hstep _).1 hx with hx | ⟨heq, hname'⟩
      · exact hadded b' hb' hname x hx
      · rw [← hname', ← heq]

theorem nodup_addKeys (added borrows : Table BorrowKey Name) (h : (borrows.map Prod.fst).Nodup) :
    ((added.foldl (fun borrows b =>
        if b.2 = pointer ∧ find borrows b.1 = none then insert orders.keys borrows b.1 pointer
        else borrows) borrows).map Prod.fst).Nodup := by
  induction added generalizing borrows with
  | nil => exact h
  | cons b added ih =>
    apply ih
    dsimp only
    split_ifs
    · exact nodup_insert _ h _ _
    · exact h

structure Merging (σ τ : BorrowState) (pointer : Name) (branches : List BorrowState) : Prop where
  targets : τ.pointerBorrowTarget = σ.pointerBorrowTarget
  places : τ.pointerBorrowPlace = σ.pointerBorrowPlace
  parents : τ.pointerBorrowParent = σ.pointerBorrowParent
  shared : ∀ e, e ∈ τ.activeBorrowers ↔
    e ∈ σ.activeBorrowers ∨ ∃ branch ∈ branches, e ∈ branch.activeBorrowers ∧ e.2 = pointer
  exclusive : ∀ e, e ∈ τ.activeMutBorrower ↔
    e ∈ σ.activeMutBorrower ∨ ∃ branch ∈ branches, e ∈ branch.activeMutBorrower ∧ e.2 = pointer
  keysNodup : (σ.activeMutBorrower.map Prod.fst).Nodup → (τ.activeMutBorrower.map Prod.fst).Nodup
  aggregate : ∀ e, e ∈ τ.aggregateBorrowPlaces ↔ e ∈ σ.aggregateBorrowPlaces ∨
    ∃ branch ∈ branches, e ∈ branch.aggregateBorrowPlaces ∨
      (e.1 = pointer ∧ e.2 ∈ ownPlaces branch pointer)

theorem merging_branch (σ branch : BorrowState)
    (hapart : ∀ b ∈ branch.activeMutBorrower, b.2 = pointer →
      ∀ x, (b.1, x) ∈ σ.activeMutBorrower → x = pointer) :
    Merging σ (mergeBranch orders pointer σ branch) pointer [branch] where
  targets := rfl
  places := rfl
  parents := rfl
  shared e := by
    have hstep : ∀ borrowers b e, e ∈ (if b.2 = pointer then addBorrower borrowers b.1 pointer
        else borrowers) ↔ e ∈ borrowers ∨ (e = b ∧ b.2 = pointer) := by
      rintro borrowers ⟨owner, holder⟩ e
      split_ifs with hname
      · obtain rfl : holder = pointer := hname
        simp [or_comm]
      · have hname' : ¬holder = pointer := hname
        simp [hname']
    refine (mem_foldl hstep _ _ _).trans (or_congr Iff.rfl ?_)
    simp only [mem_singleton, exists_eq_left]
    constructor
    · rintro ⟨b, hb, rfl, hname⟩
      exact ⟨hb, hname⟩
    · rintro ⟨he, hname⟩
      exact ⟨e, he, rfl, hname⟩
  exclusive e := by
    simp only [mem_singleton, exists_eq_left]
    exact mem_addKeys _ _ hapart e
  keysNodup h := nodup_addKeys _ _ h
  aggregate e := by
    have hstep : ∀ (recorded : List (Name × Place × Place)) x e,
        e ∈ addPlace recorded x.1 x.2.1 x.2.2 ↔ e ∈ recorded ∨ e = x := by
      intro recorded x e
      rw [mem_addPlace, or_comm]
    have hown : ∀ (recorded : List (Name × Place × Place)) (x : Place × Place) e,
        e ∈ addPlace recorded pointer x.1 x.2 ↔ e ∈ recorded ∨ e = (pointer, x) := by
      intro recorded x e
      rw [mem_addPlace, or_comm]
    refine (mem_foldl hown _ _ _).trans ((or_congr (mem_foldl hstep _ _ _) Iff.rfl).trans ?_)
    simp only [mem_singleton, exists_eq_left, or_assoc]
    refine or_congr Iff.rfl (or_congr ?_ ?_)
    · exact ⟨fun ⟨b, hb, heq⟩ => heq ▸ hb, fun he => ⟨e, he, rfl⟩⟩
    · constructor
      · rintro ⟨x, hx, rfl⟩
        exact ⟨rfl, hx⟩
      · rintro ⟨hname, hx⟩
        exact ⟨e.2, hx, Prod.ext hname rfl⟩

theorem merging_branches (branches : List BorrowState) (σ : BorrowState)
    (hapart : ∀ branch ∈ branches, ∀ b ∈ branch.activeMutBorrower, b.2 = pointer →
      ∀ x, (b.1, x) ∈ σ.activeMutBorrower → x = pointer) :
    Merging σ (branches.foldl (mergeBranch orders pointer) σ) pointer branches := by
  induction branches generalizing σ with
  | nil => exact ⟨rfl, rfl, rfl, by simp, by simp, id, by simp⟩
  | cons branch branches ih =>
    obtain ⟨hbranch, hrest⟩ := forall_mem_cons.1 hapart
    have h₁ := @merging_branch orders _ σ branch hbranch
    have h₂ := ih (mergeBranch orders pointer σ branch) (by
      intro branch' hmem b hb hname x hx
      rcases (h₁.exclusive _).1 hx with hx | ⟨_, -, -, hx⟩
      · exact hrest branch' hmem b hb hname x hx
      · exact hx)
    refine ⟨h₂.targets, h₂.places, h₂.parents, fun e => ?_, fun e => ?_,
      fun h => h₂.keysNodup (h₁.keysNodup h), fun e => ?_⟩
    · rw [foldl_cons, h₂.shared, h₁.shared, or_assoc]
      simp
    · rw [foldl_cons, h₂.exclusive, h₁.exclusive, or_assoc]
      simp
    · rw [foldl_cons, h₂.aggregate, h₁.aggregate, or_assoc]
      simp

end Merging

variable {k : BorrowKey} {branch : BorrowState}

variable {env : Surroundings} {σ : BorrowState} {L L' : Loans} {clock : Nat} {pointer : Name}
  {branches : List BorrowState}
variable {owner : Place}

theorem owner_of_ownPlaces {x : Place × Place} (hx : x ∈ ownPlaces branch pointer) :
    x.2.owner = x.1.owner := by
  unfold ownPlaces at hx
  split at hx
  · cases hx
  · rename_i owner _
    split at hx
    · split at hx
      · rename_i place _
        obtain rfl := mem_singleton.1 hx
        dsimp only
        split_ifs with hwithin
        · have howner := (Bool.and_eq_true_iff.1 hwithin).1
          exact (beq_iff_eq.1 howner).symm
        · rfl
      · obtain rfl := mem_singleton.1 hx
        rfl
    · cases hx

theorem held_iff : (isMutBorrower branch pointer || decide ((owner, pointer) ∈ branch.activeBorrowers)) =
    true ↔ (∃ k, (k, pointer) ∈ branch.activeMutBorrower) ∨ (owner, pointer) ∈ branch.activeBorrowers := by
  rw [Bool.or_eq_true, isMutBorrower_iff, decide_eq_true_iff]

theorem exists_ownPlaces (howner : find branch.pointerBorrowTarget pointer = some owner)
    (hheld : (∃ k, (k, pointer) ∈ branch.activeMutBorrower) ∨ (owner, pointer) ∈ branch.activeBorrowers) :
    ∃ recorded, (owner, recorded) ∈ ownPlaces branch pointer ∧ ∀ place,
    find branch.pointerBorrowPlace pointer = some place → owner = .whole place.owner → recorded = place := by
  unfold ownPlaces
  simp only [howner, held_iff.2 hheld, if_true]
  cases hplace : find branch.pointerBorrowPlace pointer with
  | none => exact ⟨owner, mem_singleton.2 rfl, fun place hnone => by cases hnone⟩
  | some place =>
    refine ⟨_, mem_singleton.2 rfl, fun place' heq hwhole => ?_⟩
    cases heq
    rw [if_pos]
    rw [hwhole]
    simp [isWithin]

structure Branches (orders : Orders) (L' L : Loans) (σ : BorrowState) (pointer : Name)
    (sources : List Source) (branches : List BorrowState) : Prop where
  nonempty : sources ≠ []
  branch : ∀ s ∈ sources, ∃ branch ∈ branches,
    Registering L' (releaseBorrow orders σ pointer) branch pointer (sourcePlaces L s)
      (sourceAncestors L s)
  source : ∀ branch ∈ branches, ∃ s ∈ sources,
    Registering L' (releaseBorrow orders σ pointer) branch pointer (sourcePlaces L s)
      (sourceAncestors L s)

variable {sources : List Source}

theorem Branches.only (hb : Branches orders L' L σ pointer sources branches) (hbranch : branch ∈ branches) :
    OnlyPointer (releaseBorrow orders σ pointer) branch pointer := by
  obtain ⟨s, -, hr⟩ := hb.source branch hbranch
  exact hr.only

theorem Branches.exists_target (hb : Branches orders L' L σ pointer sources branches) :
    ∃ owner, ∃ branch ∈ branches, find branch.pointerBorrowTarget pointer = some owner ∧
      branches.findSome? (fun branch => find branch.pointerBorrowTarget pointer) = some owner := by
  obtain ⟨s, hs⟩ := exists_mem_of_ne_nil _ hb.nonempty
  obtain ⟨branch, hbranch, hr⟩ := hb.branch s hs
  obtain ⟨owner, howner⟩ := hr.target
  cases hfind : branches.findSome? fun branch => find branch.pointerBorrowTarget pointer with
  | none =>
    have hnone := findSome?_eq_none_iff.1 hfind branch hbranch
    rw [howner] at hnone
    cases hnone
  | some found =>
    obtain ⟨branch', hbranch', hfound⟩ := exists_of_findSome?_eq_some hfind
    exact ⟨found, branch', hbranch', hfound, rfl⟩

theorem onlyPointer_joinBranches :
    OnlyPointer (dropPointer σ pointer) (joinBranches orders σ pointer branches) pointer := by
  refine ⟨fun q hq => ⟨?_, ?_, fun _ _ => Iff.rfl⟩, fun e he => ?_, fun e he => ?_, fun q hq => ?_,
    fun _ _ => Iff.rfl, fun _ _ => Iff.rfl⟩
  · simp only [joinBranches, dropPointer, find_erase, if_neg hq]
    split <;> simp [hq]
  · simp only [joinBranches, dropPointer, find_erase, if_neg hq]
    split <;> simp [hq]
  · simp only [joinBranches, dropPointer, mem_erase]
    split
    · rename_i owner _
      have hne : e ≠ (pointer, owner) := by
        rintro rfl
        exact he rfl
      simp [he, hne]
    · simp [mem_erase, he]
  · simp only [joinBranches, dropPointer, mem_erase]
    split
    · rename_i parent _
      have hne : e ≠ (pointer, parent) := by
        rintro rfl
        exact he rfl
      simp [he, hne]
    · simp [mem_erase, he]
  · simp only [joinBranches, dropPointer, find_erase, if_neg hq]
    split <;> simp [hq]

theorem Branches.keysApart (h : Records σ L clock) (hb : Branches orders L' L σ pointer sources branches)
    (hbranch : branch ∈ branches) (hk : (k, pointer) ∈ branch.activeMutBorrower) :
    KeyApart (dropPointer σ pointer) pointer k := by
  intro k' q hk' hq hcovered
  obtain ⟨s, -, hr⟩ := hb.source branch hbranch
  obtain ⟨k'', hk''⟩ := ((sameHolders_releaseBorrow orders h pointer).holders q).2 ⟨k', hk'⟩
  exact hr.keysApart k hk k'' q hk'' hq hcovered

theorem Branches.merging (h : Records σ L clock)
    (hb : Branches orders L' L σ pointer sources branches) :
    Merging (joinBranches orders σ pointer branches)
      (branches.foldl (mergeBranch orders pointer) (joinBranches orders σ pointer branches)) pointer
      branches := by
  apply merging_branches
  intro branch hbranch b hkey hname x hx
  obtain ⟨k, q⟩ := b
  obtain rfl : q = pointer := hname
  by_contra hne
  exact hb.keysApart h hbranch hkey k x hx hne ((h.dropPointer q).keys _ hx)

theorem Branches.common (hb : Branches orders L' L σ pointer sources branches) [DecidableEq ν]
    {table : BorrowState → Option ν} : commonValue (branches.map table) = some v ↔ ∀ branch ∈ branches,
    table branch = some v := by
  obtain ⟨s, hs⟩ := exists_mem_of_ne_nil _ hb.nonempty
  obtain ⟨branch, hbranch, -⟩ := hb.branch s hs
  rw [commonValue_eq_some, forall_mem_map]
  refine and_iff_right ?_
  rw [ne_eq, map_eq_nil_iff]
  exact ne_nil_of_mem hbranch

section Tables

variable {τ : BorrowState}
  (hb : Branches orders L' L σ pointer sources branches)
  (hM : Merging (joinBranches orders σ pointer branches) τ pointer branches)

include hb hM

theorem find_join_place (place : Place) : find τ.pointerBorrowPlace pointer = some place ↔
    ∀ branch ∈ branches, find branch.pointerBorrowPlace pointer = some place := by
  rw [hM.places, ← hb.common]
  unfold joinBranches
  dsimp only
  split
  · rename_i v hv
    rw [find_insert, if_pos rfl, hv]
  · rename_i hnone
    rw [find_erase, if_pos rfl, hnone]

theorem find_join_parent (parent : Name) : find τ.pointerBorrowParent pointer = some parent ↔
    ∀ branch ∈ branches, find branch.pointerBorrowParent pointer = some parent := by
  rw [hM.parents, ← hb.common]
  unfold joinBranches
  dsimp only
  split
  · rename_i v hv
    rw [find_insert, if_pos rfl, hv]
  · rename_i hnone
    rw [find_erase, if_pos rfl, hnone]

theorem find_join_target : ∃ owner, ∃ branch ∈ branches,
    find branch.pointerBorrowTarget pointer = some owner ∧
      find τ.pointerBorrowTarget pointer = some owner ∧
        ∀ e ∈ τ.pointerBorrowTarget, e.1 = pointer → e.2 = owner := by
  obtain ⟨owner, branch, hbranch, howner, hfind⟩ := hb.exists_target
  have htargets : τ.pointerBorrowTarget =
      insert orders.names σ.pointerBorrowTarget pointer owner := by
    rw [hM.targets]
    unfold joinBranches
    dsimp only
    rw [hfind]
  refine ⟨owner, branch, hbranch, howner, by simp [htargets], fun e he hname => ?_⟩
  rw [htargets, mem_insert] at he
  rcases he with rfl | ⟨-, hother⟩
  · rfl
  · exact absurd hname hother

theorem onlyPointer_join : OnlyPointer (dropPointer σ pointer) τ pointer := by
  have honly := @onlyPointer_joinBranches orders σ pointer branches
  refine honly.trans ⟨fun q hq => ⟨by rw [hM.targets], by rw [hM.places], fun owner place => ?_⟩,
    fun e he => by rw [hM.targets], fun e he => by rw [hM.parents], fun q hq => by rw [hM.parents],
    fun e he => ?_, fun e he => ?_⟩
  · rw [hM.aggregate]
    refine ⟨?_, .inl⟩
    rintro (hmem | ⟨branch, hbranch, hmem | ⟨hname, -⟩⟩)
    · exact hmem
    · exact (((hb.only hbranch).same q hq).aggregate owner place).1 hmem
    · exact absurd hname hq
  · rw [hM.shared]
    refine ⟨?_, .inl⟩
    rintro (hmem | ⟨branch, -, -, hname⟩)
    · exact hmem
    · exact absurd hname he
  · rw [hM.exclusive]
    refine ⟨?_, .inl⟩
    rintro (hmem | ⟨branch, -, -, hname⟩)
    · exact hmem
    · exact absurd hname he

theorem keyPlaced_join (hbranch : branch ∈ branches) (hk : (k, pointer) ∈ branch.activeMutBorrower) :
    KeyPlaced τ k pointer := by
  obtain ⟨s, -, hr⟩ := hb.source branch hbranch
  have hplaced := hr.keysPlaced k hk
  cases k with
  | reborrow holder owner => exact hplaced
  | place key =>
    left
    rcases hplaced with ⟨recorded, hrecorded, hoverlap⟩ | ⟨howner, hkey⟩
    · exact ⟨recorded, (hM.aggregate _).2 (.inr ⟨branch, hbranch, .inl hrecorded⟩), hoverlap⟩
    · obtain ⟨recorded, hrecorded, hplace⟩ := exists_ownPlaces howner (.inl ⟨_, hk⟩)
      refine ⟨recorded, (hM.aggregate _).2 (.inr ⟨branch, hbranch, .inr ⟨rfl, hrecorded⟩⟩), ?_⟩
      rcases hkey with hpath | hkey
      · rw [eq_whole hpath]
        exact overlap_whole (owner_of_ownPlaces hrecorded)
      · rw [hplace key hkey rfl]
        exact borrowPlacesOverlap_self key

theorem linked_join : (∀ q, find τ.pointerBorrowParent q ≠ some pointer) ∨
    (sources.flatMap (sourceAncestors L) = [] ∧ find τ.pointerBorrowParent pointer = none) := by
  by_cases hleft : ∃ branch ∈ branches, ∀ q, find branch.pointerBorrowParent q ≠ some pointer
  · obtain ⟨branch, hbranch, hlinked⟩ := hleft
    left
    intro q hq
    by_cases hqp : q = pointer
    · subst hqp
      exact hlinked q ((find_join_parent hb hM q).1 hq branch hbranch)
    · refine hlinked q (((hb.only hbranch).parent q hqp).trans ?_)
      exact ((onlyPointer_join hb hM).parent q hqp).symm.trans hq
  · right
    have hright : ∀ branch ∈ branches, ∀ s ∈ sources,
        Registering L' (releaseBorrow orders σ pointer) branch pointer (sourcePlaces L s)
          (sourceAncestors L s) →
        sourceAncestors L s = [] ∧ find branch.pointerBorrowParent pointer = none := by
      intro branch hbranch s _ hr
      exact hr.linked.resolve_left fun hlinked => hleft ⟨branch, hbranch, hlinked⟩
    constructor
    · rw [flatMap_eq_nil_iff]
      intro s hs
      obtain ⟨branch, hbranch, hr⟩ := hb.branch s hs
      exact (hright branch hbranch s hs hr).1
    · rw [Option.eq_none_iff_forall_ne_some]
      intro parent hparent
      obtain ⟨s, hs⟩ := exists_mem_of_ne_nil _ hb.nonempty
      obtain ⟨branch, hbranch, hr⟩ := hb.branch s hs
      have hfind := (find_join_parent hb hM parent).1 hparent branch hbranch
      rw [(hright branch hbranch s hs hr).2] at hfind
      cases hfind

theorem placed_join {s : Source} (hs : s ∈ sources) {e : Place × Bool} (he : e ∈ sourcePlaces L s) :
    (pointer, .whole e.1.owner, e.1) ∈ τ.aggregateBorrowPlaces := by
  obtain ⟨branch, hbranch, hr⟩ := hb.branch s hs
  rw [hM.aggregate]
  refine .inr ⟨branch, hbranch, ?_⟩
  rcases hr.placed e he with hmem | hplace
  · exact .inl hmem
  · have howner := hr.placeTarget _ hplace
    obtain ⟨recorded, hrecorded, heq⟩ := exists_ownPlaces howner (hr.held _ howner)
    rw [heq _ hplace rfl] at hrecorded
    exact .inr ⟨rfl, hrecorded⟩

end Tables

theorem not_mem_drop (k : BorrowKey) : (k, pointer) ∉ (dropPointer σ pointer).activeMutBorrower := by
  simp [dropPointer]

theorem Branches.registered (h : Records σ L clock)
    (hb : Branches orders L' L σ pointer sources branches) :
    Registered L' (dropPointer σ pointer)
      (branches.foldl (mergeBranch orders pointer) (joinBranches orders σ pointer branches)) pointer
      (sources.flatMap (sourcePlaces L)) (sources.flatMap (sourceAncestors L)) := by
  have hM := hb.merging h
  obtain ⟨owner, branch, hbranch, howner, hfind, htargets⟩ := find_join_target hb hM
  obtain ⟨s, hs, hr⟩ := hb.source branch hbranch
  have hplaceTarget : ∀ place, find (branches.foldl (mergeBranch orders pointer)
      (joinBranches orders σ pointer branches)).pointerBorrowPlace pointer = some place →
      owner = .whole place.owner := by
    intro place hplace
    have htarget := hr.placeTarget place ((find_join_place hb hM place).1 hplace branch hbranch)
    exact Option.some.inj (howner.symm.trans htarget)
  obtain ⟨recorded, hrecorded, hplaces⟩ := exists_ownPlaces howner (hr.held _ howner)
  have hmem := (hM.aggregate (pointer, owner, recorded)).2
    (.inr ⟨branch, hbranch, .inr ⟨rfl, hrecorded⟩⟩)
  have hregistering : Registering L' (dropPointer σ pointer)
      (branches.foldl (mergeBranch orders pointer) (joinBranches orders σ pointer branches)) pointer
      (sources.flatMap (sourcePlaces L)) (sources.flatMap (sourceAncestors L)) :=
    { only := onlyPointer_join hb hM
      target := ⟨owner, hfind⟩
      targetOwn := fun e he hname => by
        rw [htargets e he hname]
        exact hr.targetOwn _ (mem_of_find howner) rfl
      placeTarget := fun place hplace => by rw [hfind, hplaceTarget place hplace]
      held := fun owner' howner' => by
        rw [hfind] at howner'
        cases howner'
        rcases hr.held _ howner with ⟨k, hk⟩ | hshared
        · exact .inl ⟨k, (hM.exclusive _).2 (.inr ⟨branch, hbranch, hk, rfl⟩)⟩
        · exact .inr ((hM.shared _).2 (.inr ⟨branch, hbranch, hshared, rfl⟩))
      nonempty := by
        obtain ⟨e, he⟩ := exists_mem_of_ne_nil _ hr.nonempty
        exact ne_nil_of_mem (mem_flatMap.2 ⟨s, hs, he⟩)
      placed := fun e he => by
        obtain ⟨s, hs, he⟩ := mem_flatMap.1 he
        exact .inl (placed_join hb hM hs he)
      single := fun place hsingle => by
        rw [find_join_place hb hM]
        intro branch' hbranch'
        obtain ⟨s', hs', hr'⟩ := hb.source branch' hbranch'
        exact hr'.single place fun e he => hsingle e (mem_flatMap.2 ⟨s', hs', he⟩)
      shared := fun e he hshared => by
        obtain ⟨s', hs', he⟩ := mem_flatMap.1 he
        obtain ⟨branch', hbranch', hr'⟩ := hb.branch s' hs'
        exact (hM.shared _).2 (.inr ⟨branch', hbranch', hr'.shared e he hshared, rfl⟩)
      exclusive := fun e he hexclusive => by
        obtain ⟨s', hs', he⟩ := mem_flatMap.1 he
        obtain ⟨branch', hbranch', hr'⟩ := hb.branch s' hs'
        obtain ⟨k, hk⟩ := hr'.exclusive e he hexclusive
        exact ⟨k, (hM.exclusive _).2 (.inr ⟨branch', hbranch', hk, rfl⟩)⟩
      keysNodup := hM.keysNodup (h.dropPointer pointer).keysNodup
      keysPlaced := fun k hk => by
        rcases (hM.exclusive _).1 hk with hk | ⟨branch', hbranch', hk, -⟩
        · exact absurd hk (not_mem_drop k)
        · exact keyPlaced_join hb hM hbranch' hk
      keysApart := fun k hk => by
        rcases (hM.exclusive _).1 hk with hk | ⟨branch', hbranch', hk, -⟩
        · exact absurd hk (not_mem_drop k)
        · exact hb.keysApart h hbranch' hk
      aggregateOwner := fun e he hname => by
        rcases (hM.aggregate e).1 he with he | ⟨branch', hbranch', he | ⟨-, he⟩⟩
        · exact h.aggregateOwner e he
        · obtain ⟨s', -, hr'⟩ := hb.source branch' hbranch'
          exact hr'.aggregateOwner e he hname
        · exact owner_of_ownPlaces he
      related := fun q B hq e he e' he' hexclusive hoverlap => by
        obtain ⟨s', hs', he⟩ := mem_flatMap.1 he
        obtain ⟨branch', -, hr'⟩ := hb.branch s' hs'
        exact mem_flatMap.2 ⟨s', hs', hr'.related q B hq e he e' he' hexclusive hoverlap⟩
      linked := linked_join hb hM }
  refine hregistering.registered_of_places (fun place hplace => ?_) fun owner' howner' => ?_
  · have hbranchPlace := (find_join_place hb hM place).1 hplace branch hbranch
    have hwhole := hplaceTarget place hplace
    rw [← hwhole, ← hplaces place hbranchPlace hwhole]
    exact hmem
  · rw [hfind] at howner'
    cases howner'
    exact ⟨recorded, hmem⟩

end Mlang.BorrowAlternatives
