import Mlang.BorrowRegistration

namespace Mlang.BorrowSources

open Mangling (Name)
open OrderedTables PointerBorrows BorrowRecords BorrowRegistration List

variable {B : Loan} {q : Name} {orders : Orders} {place owner : Place} {σ τ τ' : BorrowState}
  {L : Loans} {clock : Nat} {pointer parent : Name} {isMutable : Bool}

theorem ancestors_lt (h : Records σ L clock) (hq : L q = some B) {bound : Nat} (steps : Nat)
    (visited : List Name) {current : Name} {C : Loan} (hcurrent : L current = some C) (hbound : C.id ≤ bound)
    (hfound : findAncestor σ.pointerBorrowParent q steps visited current = true) :
    ∀ x ∈ B.ancestors, x < bound := by
  induction steps generalizing visited current C with
  | zero => cases hfound
  | succ steps ih =>
    unfold findAncestor at hfound
    split_ifs at hfound with hvisited
    cases hparent : find σ.pointerBorrowParent current with
    | none => simp [hparent] at hfound
    | some next =>
      simp only [hparent] at hfound
      by_cases hnext : next = q
      · subst hnext
        intro x hx
        exact ((h.links _ _ B C hparent hq hcurrent).1 x hx).trans_le hbound
      · rw [if_neg hnext] at hfound
        have hsome : ∃ later, find σ.pointerBorrowParent next = some later := by
          cases steps with
          | zero => cases hfound
          | succ steps =>
            unfold findAncestor at hfound
            split_ifs at hfound
            cases hlater : find σ.pointerBorrowParent next with
            | none => simp [hlater] at hfound
            | some later => exact ⟨later, rfl⟩
        obtain ⟨later, hlater⟩ := hsome
        obtain ⟨N, hN⟩ := Option.ne_none_iff_exists'.1 (h.parents _ (mem_of_find hlater))
        have hid := (h.links _ _ N C hparent hN hcurrent).2
        rw [hlater] at hid
        have hlt : N.id < C.id := hid.resolve_left (by simp)
        exact ih _ hN (hlt.le.trans hbound) hfound

theorem reborrow_ancestors (h : Records σ L clock) {R : Loan} (hR : L parent = some R)
    (hplace : ∀ e ∈ R.places, e.1 = place) (hq : L q = some B)
    (hancestor : isReborrowAncestor σ (some parent) q = true) {e : Place × Bool} (he : e ∈ B.places)
    (hflag : e.2 = true) (hoverlap : borrowPlacesOverlap place e.1 = true) : B.id ∈ R.id :: R.ancestors := by
  by_cases hqr : q = parent
  · subst hqr
    rw [hq] at hR
    rw [Option.some.inj hR]
    exact mem_cons_self
  · have hfound : isPointerBorrowAncestor σ q parent = true := by
      simpa [isReborrowAncestor, hqr] using hancestor
    have hlt := ancestors_lt h hq _ _ hR le_rfl hfound
    obtain ⟨r, hr⟩ := exists_mem_of_ne_nil _ (h.nonempty parent R hR)
    rw [borrowPlacesOverlap_comm, ← hplace r hr] at hoverlap
    rcases h.apart q parent B R hqr hq hR e he r hr (.inl hflag) hoverlap with hlater | hearlier
    · exact absurd (hlt _ hlater) (lt_irrefl _)
    · exact mem_cons_of_mem _ hearlier

theorem mem_reborrowedPlaces (hplace : place ∈ reborrowedPlaces σ parent owner) :
    (parent, owner, place) ∈ σ.aggregateBorrowPlaces ∨
    (find σ.pointerBorrowTarget parent = some owner ∧ find σ.pointerBorrowPlace parent = some place) ∨
    place = owner := by
  unfold reborrowedPlaces at hplace
  dsimp only at hplace
  split_ifs at hplace with hprecise
  · obtain ⟨⟨q, o, pl⟩, he, rfl⟩ := mem_map.1 hplace
    obtain ⟨hmem, hname⟩ := mem_filter.1 he
    simp only [Bool.and_eq_true, beq_iff_eq] at hname
    rw [hname.1, hname.2] at hmem
    exact .inl hmem
  · split at hplace
    · rename_i target pl htarget hpl
      split_ifs at hplace with howner
      · rw [mem_singleton] at hplace
        exact .inr (.inl ⟨howner ▸ htarget, hplace ▸ hpl⟩)
      · exact .inr (.inr (mem_singleton.1 hplace))
    · exact .inr (.inr (mem_singleton.1 hplace))

theorem mem_reborrowedPlaces_of_covers (h : Covers σ parent place) :
    place ∈ reborrowedPlaces σ parent (.whole place.owner) := by
  have hmem : ∀ owner place, (parent, owner, place) ∈ σ.aggregateBorrowPlaces →
      place ∈ (σ.aggregateBorrowPlaces.filter fun e =>
        e.1 == parent && e.2.1 == owner).map (·.2.2) := by
    intro owner place he
    exact mem_map.2 ⟨_, mem_filter.2 ⟨he, by simp⟩, rfl⟩
  unfold reborrowedPlaces
  dsimp only
  rcases h with h | ⟨hnone, htarget, hplace⟩
  · rw [if_pos (ne_nil_of_mem (hmem _ _ h))]
    exact hmem _ _ h
  · rw [if_neg]
    · simp [htarget, hplace]
    · rw [not_not, map_eq_nil_iff, filter_eq_nil_iff]
      intro e he
      simp [hnone e he]

structure Reborrowing (σ τ : BorrowState) (pointer : Name) : Prop where
  only : OnlyPointer σ τ pointer
  targets : τ.pointerBorrowTarget = σ.pointerBorrowTarget
  places : τ.pointerBorrowPlace = σ.pointerBorrowPlace
  parents : τ.pointerBorrowParent = σ.pointerBorrowParent
  shared : ∀ e ∈ σ.activeBorrowers, e ∈ τ.activeBorrowers
  exclusive : (∃ k, (k, pointer) ∈ σ.activeMutBorrower) → ∃ k, (k, pointer) ∈ τ.activeMutBorrower
  keysNodup : (τ.activeMutBorrower.map Prod.fst).Nodup
  keys : ∀ k, (k, pointer) ∈ τ.activeMutBorrower →
    (k, pointer) ∈ σ.activeMutBorrower ∨ ∃ owner, k = .reborrow pointer owner
  aggregate : ∀ e ∈ σ.aggregateBorrowPlaces, e ∈ τ.aggregateBorrowPlaces
  aggregateOwner : ∀ e ∈ τ.aggregateBorrowPlaces,
    e ∈ σ.aggregateBorrowPlaces ∨ e.2.2.owner = e.2.1.owner

theorem owner_of_reborrowedPlaces (h : Records σ L clock) (hσ : OnlyPointer σ τ pointer)
    (hne : parent ≠ pointer) (hplace : place ∈ reborrowedPlaces τ parent owner) :
    place.owner = owner.owner := by
  have hsame := hσ.same parent hne
  rcases mem_reborrowedPlaces hplace with hmem | ⟨htarget, hpl⟩ | rfl
  · exact h.aggregateOwner _ ((hsame.aggregate _ _).1 hmem)
  · rw [hsame.target] at htarget
    rw [hsame.place] at hpl
    have howner := htarget.symm.trans (h.placeTarget parent place hpl)
    rw [Option.some.inj howner, whole_owner]
  · rfl

theorem reborrowing_owner (h : Records σ L clock) (hσ : OnlyPointer σ τ pointer)
    (hne : parent ≠ pointer) (hτ : Reborrowing τ τ' pointer) (owner : Place) :
    Reborrowing τ (reborrowOwner orders pointer parent isMutable τ' owner) pointer := by
  have hapart : KeyApart σ pointer (.reborrow pointer owner) := fun _ q _ hq hholder => hq hholder.symm
  have hplaces := mem_addPlaces τ'.aggregateBorrowPlaces pointer owner
    (reborrowedPlaces τ' parent owner)
  have hkeys := @onlyPointer_insertKey _ _ _ _ orders _ h (hσ.trans hτ.only) _ hapart
  refine
    { only := hτ.only.trans ⟨fun q hq => ⟨rfl, rfl, fun o place => ?_⟩, fun _ _ => Iff.rfl,
        fun _ _ => Iff.rfl, fun _ _ => rfl, fun e he => ?_, fun e he => ?_⟩
      targets := hτ.targets
      places := hτ.places
      parents := hτ.parents
      shared := fun e he => ?_
      exclusive := fun hholds => ?_
      keysNodup := ?_
      keys := fun k hk => ?_
      aggregate := fun e he => (hplaces e).2 (.inl (hτ.aggregate e he))
      aggregateOwner := fun e he => ?_ }
  · refine (hplaces _).trans ⟨?_, .inl⟩
    rintro (hmem | ⟨_, -, heq⟩)
    · exact hmem
    · exact absurd (Prod.mk.inj heq).1 hq
  · cases isMutable with
    | true => exact Iff.rfl
    | false => exact (@onlyPointer_addBorrower _ owner τ').shared e he
  · cases isMutable with
    | true => exact hkeys.exclusive e he
    | false => exact Iff.rfl
  · have hmem := hτ.shared e he
    cases isMutable with
    | true => exact hmem
    | false => exact (mem_addBorrower _ _ _ _).2 (.inr hmem)
  · cases isMutable with
    | true => exact ⟨_, (mem_insert _ _ _ _ _).2 (.inl rfl)⟩
    | false => exact hτ.exclusive hholds
  · cases isMutable with
    | true => exact nodup_insert _ hτ.keysNodup _ _
    | false => exact hτ.keysNodup
  · cases isMutable with
    | true =>
      rcases (mem_insert _ _ _ _ _).1 hk with hk | ⟨hk, -⟩
      · exact .inr ⟨owner, (Prod.mk.inj hk).1⟩
      · exact hτ.keys k hk
    | false => exact hτ.keys k hk
  · rcases (hplaces e).1 he with hmem | ⟨place, hplace, rfl⟩
    · exact hτ.aggregateOwner e hmem
    · exact .inr (owner_of_reborrowedPlaces h (hσ.trans hτ.only) hne hplace)

theorem reborrowing_owners (h : Records σ L clock) (hσ : OnlyPointer σ τ pointer)
    (hne : parent ≠ pointer) (owners : List Place) (hτ : Reborrowing τ τ' pointer) :
    Reborrowing τ (owners.foldl (reborrowOwner orders pointer parent isMutable) τ') pointer ∧
      ∀ place, Covers σ parent place → (.whole place.owner ∈ owners ∨
          (pointer, .whole place.owner, place) ∈ τ'.aggregateBorrowPlaces) →
        (pointer, .whole place.owner, place) ∈
          (owners.foldl (reborrowOwner orders pointer parent isMutable) τ').aggregateBorrowPlaces := by
  induction owners generalizing τ' with
  | nil => exact ⟨hτ, fun place _ hmem => hmem.resolve_left (not_mem_nil)⟩
  | cons owner owners ih =>
    have hstep := @reborrowing_owner orders _ _ _ _ _ _ _ isMutable h hσ hne hτ owner
    obtain ⟨hall, hplaces⟩ := ih hstep
    refine ⟨hall, fun place hcovers hmem => hplaces place hcovers ?_⟩
    have hadded : ∀ pl ∈ reborrowedPlaces τ' parent owner, (pointer, owner, pl) ∈
        (reborrowOwner orders pointer parent isMutable τ' owner).aggregateBorrowPlaces := by
      intro pl hpl
      exact (mem_addPlaces _ _ _ _ _).2 (.inr ⟨pl, hpl, rfl⟩)
    rcases hmem with hmem | hmem
    · rcases mem_cons.1 hmem with rfl | hmem
      · have hsame := (hσ.trans hτ.only).same parent hne
        exact .inr (hadded place (mem_reborrowedPlaces_of_covers ((hsame.covers place).2 hcovers)))
      · exact .inl hmem
    · exact .inr ((mem_addPlaces _ _ _ _ _).2 (.inl hmem))

theorem Reborrowing.refl (h : (σ.activeMutBorrower.map Prod.fst).Nodup) : Reborrowing σ σ pointer :=
  ⟨OnlyPointer.refl, rfl, rfl, rfl, fun _ he => he, id, h, fun _ hk => .inl hk, fun _ he => he,
    fun _ he => .inl he⟩

theorem onlyPointer_insertParent : OnlyPointer σ
    { σ with pointerBorrowParent := insert orders.names σ.pointerBorrowParent pointer parent }
    pointer := by
  refine ⟨fun q _ => ⟨rfl, rfl, fun _ _ => Iff.rfl⟩, fun _ _ => Iff.rfl, fun e he => ?_,
    fun q hq => ?_, fun _ _ => Iff.rfl, fun _ _ => Iff.rfl⟩
  · have hne : e ≠ (pointer, parent) := by
      rintro rfl
      exact he rfl
    simp [he, hne]
  · simp [hq]

theorem registered_reborrow (h : Records σ L clock) (hne : parent ≠ pointer) {places : List (Place × Bool)}
    {ancestors : List Nat} (hr : Registering L σ τ pointer places ancestors)
    (hplace : find τ.pointerBorrowPlace pointer = some place) (hcovers : Covers σ parent place)
    (htarget : find σ.pointerBorrowTarget parent = some (.whole place.owner))
    (hlinked : ∀ q, find σ.pointerBorrowParent q ≠ some pointer) :
    Registered L σ (recordReborrow orders τ pointer parent isMutable) pointer places ancestors := by
  have honly := @onlyPointer_insertParent orders τ pointer parent
  obtain ⟨hR, hmem⟩ := @reborrowing_owners orders _ _ _ _ _ _ _ isMutable h (hr.only.trans honly) hne
    (possibleOwners { τ with
      pointerBorrowParent := insert orders.names τ.pointerBorrowParent pointer parent } parent)
    (Reborrowing.refl hr.keysNodup)
  have hplaces : (pointer, .whole place.owner, place) ∈
      (recordReborrow orders τ pointer parent isMutable).aggregateBorrowPlaces := by
    refine hmem place hcovers (.inl ?_)
    have hsame := ((hr.only.same parent hne).target.trans htarget)
    simp [possibleOwners, hsame]
  have htargets : (recordReborrow orders τ pointer parent isMutable).pointerBorrowTarget =
      τ.pointerBorrowTarget := hR.targets
  have hplaces' : (recordReborrow orders τ pointer parent isMutable).pointerBorrowPlace =
      τ.pointerBorrowPlace := hR.places
  have hregistering : Registering L σ (recordReborrow orders τ pointer parent isMutable) pointer
      places ancestors :=
    { only := hr.only.trans (honly.trans hR.only)
      target := htargets ▸ hr.target
      targetOwn := htargets ▸ hr.targetOwn
      placeTarget := by
        rw [htargets, hplaces']
        exact hr.placeTarget
      held := fun owner howner => by
        rw [htargets] at howner
        exact (hr.held owner howner).imp hR.exclusive (hR.shared _)
      nonempty := hr.nonempty
      placed := fun e he => by
        rw [hplaces']
        exact (hr.placed e he).imp (hR.aggregate _) id
      single := hplaces' ▸ hr.single
      shared := fun e he hshared => hR.shared _ (hr.shared e he hshared)
      exclusive := fun e he hexclusive => hR.exclusive (hr.exclusive e he hexclusive)
      keysNodup := hR.keysNodup
      keysPlaced := fun k hk => by
        rcases hR.keys k hk with hk | ⟨owner, rfl⟩
        · have hplaced := hr.keysPlaced k hk
          cases k with
          | reborrow holder owner => exact hplaced
          | place key =>
            unfold KeyPlaced
            rw [htargets, hplaces']
            refine hplaced.imp ?_ id
            rintro ⟨recorded, hrecorded, hoverlap⟩
            exact ⟨recorded, hR.aggregate _ hrecorded, hoverlap⟩
        · rfl
      keysApart := fun k hk => by
        rcases hR.keys k hk with hk | ⟨owner, rfl⟩
        · exact hr.keysApart k hk
        · exact fun _ q _ hq hholder => hq hholder.symm
      aggregateOwner := fun e he hname =>
        (hR.aggregateOwner e he).elim (fun he => hr.aggregateOwner e he hname) id
      related := hr.related
      linked := .inl fun q hq => by
        have hparents := hR.parents
        by_cases hqp : q = pointer
        · subst hqp
          unfold recordReborrow at hq
          rw [hparents] at hq
          simp [hne] at hq
        · have honly' := hr.only.trans (honly.trans hR.only)
          exact hlinked q ((honly'.parent q hqp).symm.trans hq) }
  refine hregistering.registered_of_places (fun pl hpl => ?_) fun owner howner => ⟨place, ?_⟩
  · rw [hplaces', hplace] at hpl
    rw [← Option.some.inj hpl]
    exact hplaces
  · rw [htargets, hr.placeTarget place hplace] at howner
    rw [← Option.some.inj howner]
    exact hplaces

variable {env : Surroundings} {σ' : BorrowState} {copied : Name} {primaryOwner : Place}

structure Copying (L : Loans) (σ τ : BorrowState) (pointer : Name) (entries : List (Place × Place)) :
    Prop where
  only : OnlyPointer σ τ pointer
  parents : τ.pointerBorrowParent = σ.pointerBorrowParent
  exclusive : τ.activeMutBorrower = σ.activeMutBorrower
  shared : ∀ b, b ∈ σ.activeBorrowers ∨ (∃ x ∈ entries, b = (x.1, pointer)) → b ∈ τ.activeBorrowers
  aggregate : ∀ e, e ∈ τ.aggregateBorrowPlaces ↔
    e ∈ σ.aggregateBorrowPlaces ∨ ∃ x ∈ entries, e = (pointer, x)
  apart : ∀ x ∈ entries, x.1 = .whole x.2.owner → ∀ q B, L q = some B → q ≠ pointer →
    ∀ e ∈ B.places, borrowPlacesOverlap x.2 e.1 = true → e.2 = false

theorem copying (h : Records σ L clock) (entries : List (Place × Place)) (hσ' : OnlyPointer σ σ' pointer)
    (hcopy : copyPlaces orders env pointer false σ' entries = some τ) :
    Copying L σ' τ pointer entries := by
  induction entries generalizing σ' with
  | nil =>
    cases hcopy
    exact ⟨OnlyPointer.refl, rfl, rfl, fun b hb => by simpa using hb, fun e => by simp,
      fun x hx => absurd hx (not_mem_nil)⟩
  | cons entry entries ih =>
    obtain ⟨owner, place⟩ := entry
    unfold copyPlaces at hcopy
    cases hreg : registerOwnerBorrow orders env σ' pointer false none owner place false with
    | none => simp [hreg] at hcopy
    | some σ₁ =>
      simp only [hreg] at hcopy
      have hσ₁ : σ₁ = { recordPlace orders σ' pointer owner place with
          activeBorrowers := addBorrower σ'.activeBorrowers owner pointer } := by
        rcases registerOwnerBorrow_eq_some hreg with ⟨hfalse, -, -⟩ | ⟨-, -, heq⟩
        · cases hfalse
        · exact heq
      have honly : OnlyPointer σ' { σ₁ with
          aggregateBorrowPlaces := addPlace σ₁.aggregateBorrowPlaces pointer owner place }
          pointer := by
        refine OnlyPointer.trans ?_ onlyPointer_addPlace
        rw [hσ₁]
        exact onlyPointer_recordPlace.trans onlyPointer_addBorrower
      have hrest := ih (hσ'.trans honly) hcopy
      subst hσ₁
      refine ⟨honly.trans hrest.only, hrest.parents, hrest.exclusive, fun b hb => ?_, fun e => ?_,
        fun x hx howner q B hq hne e he hoverlap => ?_⟩
      · apply hrest.shared
        rcases hb with hb | ⟨x, hx, rfl⟩
        · exact .inl ((mem_addBorrower _ _ _ _).2 (.inr hb))
        · rcases mem_cons.1 hx with rfl | hx
          · exact .inl ((mem_addBorrower _ _ _ _).2 (.inl rfl))
          · exact .inr ⟨x, hx, rfl⟩
      · rw [hrest.aggregate, mem_addPlace]
        constructor
        · rintro ((rfl | he) | ⟨x, hx, rfl⟩)
          · exact .inr ⟨_, mem_cons_self, rfl⟩
          · exact .inl he
          · exact .inr ⟨x, mem_cons_of_mem _ hx, rfl⟩
        · rintro (he | ⟨x, hx, rfl⟩)
          · exact .inl (.inr he)
          · rcases mem_cons.1 hx with rfl | hx
            · exact .inl (.inl rfl)
            · exact .inr ⟨x, hx, rfl⟩
      · rcases mem_cons.1 hx with rfl | hx
        · dsimp only at howner hoverlap
          subst howner
          by_contra hflag
          rw [Bool.not_eq_false] at hflag
          have hexempt := exempt_of_overlap h hσ' hreg hq hne he (.inr hflag) hoverlap
          simp [isReborrowAncestor] at hexempt
        · exact hrest.apart x hx howner q B hq hne e he hoverlap

def placesOfOwner (σ : BorrowState) (copied : Name) (primaryOwner owner : Place) :
    List (Place × Place) :=
  let ownerPaths := (((σ.aggregateBorrowPlaces.filter fun e => e.1 == copied).map (·.2)).filter
    fun e => e.1 == owner).map Prod.snd
  if ownerPaths ≠ [] then ownerPaths.map fun place => (owner, place)
  else
    match find σ.pointerBorrowPlace copied with
    | some place => if owner = primaryOwner then [(owner, place)] else [(owner, owner)]
    | none => [(owner, owner)]

variable {x : Place × Place}

theorem mem_ownerPaths : place ∈
    (((σ.aggregateBorrowPlaces.filter fun e => e.1 == copied).map (·.2)).filter fun e => e.1 == owner).map
    Prod.snd ↔ (copied, owner, place) ∈ σ.aggregateBorrowPlaces := by
  constructor
  · intro hplace
    obtain ⟨⟨o, pl⟩, he, rfl⟩ := mem_map.1 hplace
    obtain ⟨he, hname⟩ := mem_filter.1 he
    obtain ⟨⟨q, o', pl'⟩, he', heq⟩ := mem_map.1 he
    obtain ⟨hmem, hcopied⟩ := mem_filter.1 he'
    cases heq
    simp only [beq_iff_eq] at hname hcopied
    rwa [hname, hcopied] at hmem
  · intro hmem
    exact mem_map.2 ⟨(owner, place), mem_filter.2 ⟨mem_map.2
      ⟨_, mem_filter.2 ⟨hmem, by simp⟩, rfl⟩, by simp⟩, rfl⟩

theorem exists_placesOfOwner (owner : Place) :
    ∃ place, (owner, place) ∈ placesOfOwner σ copied primaryOwner owner := by
  unfold placesOfOwner
  dsimp only
  split
  · rename_i hpaths
    obtain ⟨place, hplace⟩ := exists_mem_of_ne_nil _ hpaths
    exact ⟨place, mem_map.2 ⟨place, hplace, rfl⟩⟩
  · split
    · split_ifs with howner
      · exact ⟨_, mem_singleton.2 rfl⟩
      · exact ⟨_, mem_singleton.2 rfl⟩
    · exact ⟨_, mem_singleton.2 rfl⟩

theorem eq_of_placesOfOwner (h : Records σ L clock)
    (hprimary : find σ.pointerBorrowTarget copied = some primaryOwner)
    (hx : x ∈ placesOfOwner σ copied primaryOwner owner) : x.1 = owner ∧ x.2.owner = owner.owner := by
  unfold placesOfOwner at hx
  dsimp only at hx
  split at hx
  · obtain ⟨place, hplace, rfl⟩ := mem_map.1 hx
    exact ⟨rfl, h.aggregateOwner _ (mem_ownerPaths.1 hplace)⟩
  · split at hx
    · rename_i place hplace
      split_ifs at hx with howner
      · obtain rfl := mem_singleton.1 hx
        have heq := hprimary.symm.trans (h.placeTarget copied place hplace)
        refine ⟨rfl, ?_⟩
        rw [howner, Option.some.inj heq, whole_owner]
      · obtain rfl := mem_singleton.1 hx
        exact ⟨rfl, rfl⟩
    · obtain rfl := mem_singleton.1 hx
      exact ⟨rfl, rfl⟩

theorem mem_copiedPlaces : x ∈ copiedPlaces σ copied primaryOwner ↔ ∃ owner,
    (owner = primaryOwner ∨ (owner, copied) ∈ σ.activeBorrowers ∨ ∃ place, (copied, owner, place) ∈
      σ.aggregateBorrowPlaces) ∧ x ∈ placesOfOwner σ copied primaryOwner owner := by
  have howners : ∀ owner, owner ∈ primaryOwner :: (σ.activeBorrowers.filterMap fun borrower =>
        if borrower.2 = copied then some borrower.1 else none) ++
        ((σ.aggregateBorrowPlaces.filter fun e => e.1 == copied).map (·.2)).map Prod.fst ↔
      owner = primaryOwner ∨ (owner, copied) ∈ σ.activeBorrowers ∨
        ∃ place, (copied, owner, place) ∈ σ.aggregateBorrowPlaces := by
    intro owner
    rw [mem_append, mem_cons, or_assoc]
    refine or_congr Iff.rfl (or_congr ?_ ?_)
    · rw [mem_filterMap]
      constructor
      · rintro ⟨⟨o, q⟩, hb, heq⟩
        split_ifs at heq with hq
        cases heq
        obtain rfl : q = copied := hq
        exact hb
      · intro hb
        exact ⟨_, hb, if_pos rfl⟩
    · rw [map_map, mem_map]
      constructor
      · rintro ⟨⟨q, o, place⟩, he, rfl⟩
        obtain ⟨hmem, hname⟩ := mem_filter.1 he
        obtain rfl : q = copied := by simpa using hname
        exact ⟨place, hmem⟩
      · rintro ⟨place, hmem⟩
        exact ⟨_, mem_filter.2 ⟨hmem, by simp⟩, rfl⟩
  unfold copiedPlaces
  rw [mem_flatMap]
  constructor
  · rintro ⟨owner, howner, hx⟩
    exact ⟨owner, (howners owner).1 howner, hx⟩
  · rintro ⟨owner, howner, hx⟩
    exact ⟨owner, (howners owner).2 howner, hx⟩

theorem mem_copiedPlaces_of_covers (hprimary : find σ.pointerBorrowTarget copied = some primaryOwner)
    (hcovers : Covers σ copied place) : (.whole place.owner, place) ∈ copiedPlaces σ copied primaryOwner := by
  rw [mem_copiedPlaces]
  rcases hcovers with hmem | ⟨hnone, htarget, hplace⟩
  · refine ⟨_, .inr (.inr ⟨place, hmem⟩), ?_⟩
    have hpath := mem_ownerPaths.2 hmem
    unfold placesOfOwner
    rw [if_pos (ne_nil_of_mem hpath)]
    exact mem_map.2 ⟨place, hpath, rfl⟩
  · have howner := Option.some.inj (htarget.symm.trans hprimary)
    refine ⟨_, .inl howner, ?_⟩
    unfold placesOfOwner
    rw [if_neg]
    · simp [hplace, howner]
    · rw [not_not, eq_nil_iff_forall_not_mem]
      intro pl hpl
      exact hnone _ (mem_ownerPaths.1 hpl) rfl

variable (h : Records σ L clock)
include h

theorem registered_copy (hfresh : Fresh σ pointer)
    (hslot : ∀ e ∈ σ.pointerBorrowTarget, e.2 ≠ .whole pointer) (hB : L copied = some B)
    (hprimary : find σ.pointerBorrowTarget copied = some primaryOwner) (hnone : L pointer = none)
    (hcopy : copyPlaces orders env pointer false σ (copiedPlaces σ copied primaryOwner) = some τ) :
    Registered L σ
    (recordPlace orders τ pointer primaryOwner ((find σ.pointerBorrowPlace copied).getD primaryOwner)) pointer
    (B.places.map fun e => (e.1, false)) [] := by
  have hC := copying (L := L) h _ OnlyPointer.refl hcopy
  obtain ⟨-, x, rfl, hx⟩ := h.live _ (mem_of_find hprimary)
  have hxp : x ≠ pointer := by
    rintro rfl
    exact hslot _ (mem_of_find hprimary) rfl
  have hplaces : ∀ e ∈ B.places.map fun e => (e.1, false), e.2 = false ∧
      (.whole e.1.owner, e.1) ∈ copiedPlaces σ copied (.whole x) := by
    intro e he
    obtain ⟨e', he', rfl⟩ := mem_map.1 he
    exact ⟨rfl, mem_copiedPlaces_of_covers hprimary (h.covers copied B hB e' he')⟩
  have hrecorded : ∀ e ∈ B.places.map fun e => (e.1, false),
      (pointer, .whole e.1.owner, e.1) ∈ τ.aggregateBorrowPlaces :=
    fun e he => (hC.aggregate _).2 (.inr ⟨_, (hplaces e he).2, rfl⟩)
  have hfind : find (recordPlace orders τ pointer (.whole x)
      ((find σ.pointerBorrowPlace copied).getD (.whole x))).pointerBorrowTarget pointer =
        some (.whole x) := by
    simp [recordPlace]
  have hnokey : ∀ k, (k, pointer) ∉ τ.activeMutBorrower := by
    rw [hC.exclusive]
    exact hfresh.exclusive
  exact
    { only := hC.only.trans onlyPointer_recordPlace
      target := ⟨_, hfind⟩
      targetOwn := fun e he hname => by
        rcases (mem_insert _ _ _ _ _).1 he with rfl | ⟨-, hother⟩
        · exact ⟨x, rfl, hxp, hx⟩
        · exact absurd hname hother
      placeTarget := fun place hplace => by
        rw [hfind]
        simp only [recordPlace, find_insert, if_true, Option.some.injEq] at hplace
        rw [← hplace]
        cases hcopied : find σ.pointerBorrowPlace copied with
        | none => rfl
        | some recorded => exact hprimary.symm.trans (h.placeTarget copied recorded hcopied)
      held := fun owner howner => by
        rw [hfind] at howner
        cases howner
        obtain ⟨place, hplace⟩ := @exists_placesOfOwner σ copied (.whole x) (.whole x)
        exact .inr (hC.shared _ (.inr ⟨_, mem_copiedPlaces.2 ⟨_, .inl rfl, hplace⟩, rfl⟩))
      nonempty := by
        rw [ne_eq, map_eq_nil_iff]
        exact h.nonempty copied B hB
      placed := fun e he => .inl (hrecorded e he)
      single := fun place hsingle => by
        have hcopied := h.single copied B place hB fun e he =>
          hsingle (e.1, false) (mem_map.2 ⟨e, he, rfl⟩)
        simp [recordPlace, hcopied]
      shared := fun e he _ => hC.shared _ (.inr ⟨_, (hplaces e he).2, rfl⟩)
      exclusive := fun e he hexclusive => by
        rw [(hplaces e he).1] at hexclusive
        cases hexclusive
      keysNodup := by
        have hnodup := h.keysNodup
        rw [← hC.exclusive] at hnodup
        exact hnodup
      keysPlaced := fun k hk => absurd hk (hnokey k)
      keysApart := fun k hk => absurd hk (hnokey k)
      aggregateOwner := fun e he _ => by
        rcases (hC.aggregate e).1 he with he | ⟨entry, hentry, rfl⟩
        · exact h.aggregateOwner e he
        · obtain ⟨owner, -, hentry⟩ := mem_copiedPlaces.1 hentry
          obtain ⟨hfst, hsnd⟩ := eq_of_placesOfOwner h hprimary hentry
          exact hsnd.trans (congrArg Place.owner hfst).symm
      related := fun q B' hq e he e' he' hexclusive hoverlap => by
        have hqp : q ≠ pointer := by
          rintro rfl
          rw [hnone] at hq
          cases hq
        obtain ⟨hshared, hmem⟩ := hplaces e he
        have hflag := hC.apart _ hmem rfl q B' hq hqp e' he' hoverlap
        simp [hshared, hflag] at hexclusive
      linked := .inr ⟨rfl, (congrArg (find · pointer) hC.parents).trans hfresh.parent⟩
      covers := fun e he => .inl (hrecorded e he)
      keys := fun k hk => absurd hk (hnokey k)
      aggregate := fun e he hname owner howner => by
        rw [hfind] at howner
        cases howner
        obtain ⟨place, hplace⟩ := @exists_placesOfOwner σ copied (.whole x) (.whole x)
        exact ⟨place, (hC.aggregate _).2 (.inr ⟨_, mem_copiedPlaces.2 ⟨_, .inl rfl, hplace⟩, rfl⟩)⟩ }

variable {path : List Segment}

theorem fresh_releaseBorrow :
    Fresh (releaseBorrow orders σ pointer) pointer where
  target := by simp [releaseBorrow]
  place := by simp [releaseBorrow]
  parent := by simp [releaseBorrow]
  shared owner := by simp [releaseBorrow]
  exclusive k hk := by
    have hholders := (sameHolders_releaseBorrow orders h pointer).holders pointer
    obtain ⟨k', hk'⟩ := hholders.1 ⟨k, hk⟩
    simp [dropPointer] at hk'

theorem isMutBorrower_releaseBorrow (hq : q ≠ pointer) :
    isMutBorrower (releaseBorrow orders σ pointer) q = isMutBorrower σ q := by
  rw [Bool.eq_iff_iff, isMutBorrower_iff, isMutBorrower_iff,
    (sameHolders_releaseBorrow orders h pointer).holders q]
  simp [dropPointer, hq]

theorem reborrowParent_releaseBorrow (hq : q ≠ pointer) (path : List Segment) :
    reborrowParent (releaseBorrow orders σ pointer) (.deref q path) = reborrowParent σ (.deref q path) := by
  have hshared : ((releaseBorrow orders σ pointer).activeBorrowers.any fun b => b.2 == q) =
      σ.activeBorrowers.any fun b => b.2 == q := by
    rw [Bool.eq_iff_iff, any_eq_true, any_eq_true]
    constructor
    · rintro ⟨b, hb, hname⟩
      exact ⟨b, (mem_filter.1 hb).1, hname⟩
    · rintro ⟨b, hb, hname⟩
      refine ⟨b, mem_filter.2 ⟨hb, ?_⟩, hname⟩
      rw [beq_iff_eq] at hname
      simpa [hname] using hq
  cases path with
  | nil => simp only [reborrowParent, isMutBorrower_releaseBorrow h hq, hshared]
  | cons x path => rfl

omit h

theorem eq_of_reborrowParent {parent : Name} (h : reborrowParent σ (.deref q path) = some parent) :
    parent = q ∧ path = [] := by
  cases path with
  | nil =>
    simp only [reborrowParent, Option.ite_none_right_eq_some] at h
    exact ⟨(Option.some.inj h.2).symm, rfl⟩
  | cons x path => cases h

/-- The condition on one source of a pointer. -/
def SourceSeparates (σ : BorrowState) (L : Loans) (pointer : Name) : Source → Prop
  | .address _ (.named name _) => name ≠ pointer ∧ L name = none
  | .address _ (.deref q _) =>
    q ≠ pointer ∧ (∃ B, L q = some B ∧ ∃ place, ∀ e ∈ B.places, e.1 = place) ∧
      ∀ e ∈ σ.pointerBorrowParent, e.2 ≠ pointer
  | .copy q => q ≠ pointer ∧ L q ≠ none

def SourceUnplaced (σ : BorrowState) (pointer : Name) : Source → Prop
  | .address _ operand =>
    reborrowParent σ operand = none → ∀ e ∈ σ.aggregateBorrowPlaces, e.1 ≠ pointer
  | .copy _ => True

variable (h : Records σ L clock)
  (hslot : ∀ e ∈ σ.pointerBorrowTarget, e.1 ≠ pointer → e.2 ≠ .whole pointer)

include hslot in
theorem slot_releaseBorrow : ∀ e ∈ (releaseBorrow orders σ pointer).pointerBorrowTarget,
    e.2 ≠ .whole pointer := by
  intro e he
  obtain ⟨he, hne⟩ := (mem_erase _ _ e).1 he
  exact hslot e he hne

include h hslot

theorem registering_named {isMutable : Bool} {name : Name} (hname : name ≠ pointer) (hnone : L name = none)
    (hreg : registerSource orders env σ pointer (.address isMutable (.named name path)) isMutable = some τ) :
    Registering (Function.update L pointer none) (releaseBorrow orders σ pointer) τ pointer
    [(⟨name, path⟩, isMutable)] [] ∧ τ.aggregateBorrowPlaces = σ.aggregateBorrowPlaces := by
  unfold registerSource at hreg
  rw [clearPointerBorrow_eq orders h hslot] at hreg
  simp only [reborrowParent, Option.filter_none, resolveBorrowOwnerFromLValue,
    resolveBorrowPlaceFromLValue] at hreg
  split at hreg
  · cases hreg
  · rename_i σ' hσ'
    cases hreg
    refine ⟨registering_address (h.releaseBorrow orders pointer) (fresh_releaseBorrow h)
      (by simp) hσ' (cons_ne_nil _ _) (fun e he => mem_singleton.1 he) ?_ hname
      (fun q B _ hancestor => by simp [isReborrowAncestor] at hancestor) (.inr rfl),
      (registerOwnerBorrow_tables hσ').2.2.2⟩
    rw [Function.update_of_ne hname]
    exact hnone

theorem registering_deref {isMutable : Bool} (hq : q ≠ pointer) (hB : L q = some B)
    (hplace : ∀ e ∈ B.places, e.1 = place) (hchild : ∀ e ∈ σ.pointerBorrowParent, e.2 ≠ pointer)
    (hreg : registerSource orders env σ pointer (.address isMutable (.deref q path)) isMutable = some τ) :
    Registering (Function.update L pointer none) (releaseBorrow orders σ pointer) τ pointer
    (B.places.map fun e => (e.1.extend path, isMutable)) (B.id :: B.ancestors) ∧
    ((reborrowParent σ (.deref q path) = none → ∀ e ∈ σ.aggregateBorrowPlaces, e.1 ≠ pointer) → Registered
      (Function.update L pointer none) (releaseBorrow orders σ pointer) τ pointer (B.places.map fun e =>
      (e.1.extend path, isMutable)) (B.id :: B.ancestors)) := by
  have h₁ := h.releaseBorrow orders pointer
  have hB₁ : Function.update L pointer none q = some B := by rwa [Function.update_of_ne hq]
  have hfind := h₁.single q B place hB₁ hplace
  have htarget := h₁.placeTarget q place hfind
  obtain ⟨-, x, hx, hxnone⟩ := h₁.live _ (mem_of_find htarget)
  obtain rfl : place.owner = x := congrArg Place.owner hx
  have hne : place.owner ≠ pointer := by
    intro hname
    exact slot_releaseBorrow hslot _ (mem_of_find htarget) (congrArg Place.whole hname)
  have hplaces : ∀ e ∈ B.places.map fun e => (e.1.extend path, isMutable),
      e = (place.extend path, isMutable) := by
    intro e he
    obtain ⟨e', he', rfl⟩ := mem_map.1 he
    rw [hplace e' he']
  have hnonempty : (B.places.map fun e => (e.1.extend path, isMutable)) ≠ [] := by
    rw [ne_eq, map_eq_nil_iff]
    exact h.nonempty q B hB
  have hlinked : ∀ q, find (releaseBorrow orders σ pointer).pointerBorrowParent q ≠
      some pointer := by
    intro q hparent
    exact hchild _ ((mem_erase _ _ _).1 (mem_of_find hparent)).1 rfl
  have hancestors : ∀ parent, (reborrowParent (releaseBorrow orders σ pointer)
      (.deref q path)).filter (isMutBorrower (releaseBorrow orders σ pointer)) = parent →
      ∀ r R, Function.update L pointer none r = some R →
        isReborrowAncestor (releaseBorrow orders σ pointer) parent r = true →
          ∀ e ∈ R.places, e.2 = true → borrowPlacesOverlap (place.extend path) e.1 = true →
            R.id ∈ B.id :: B.ancestors := by
    intro parent hparent r R hR hancestor e he hflag hoverlap
    cases parent with
    | none => simp [isReborrowAncestor] at hancestor
    | some parent =>
      obtain ⟨rfl, rfl⟩ := eq_of_reborrowParent (Option.filter_eq_some_iff.1 hparent).1
      rw [extend_nil] at hoverlap
      exact reborrow_ancestors h₁ hB₁ hplace hR hancestor he hflag hoverlap
  unfold registerSource at hreg
  rw [clearPointerBorrow_eq orders h hslot] at hreg
  simp only [resolveBorrowOwnerFromLValue, resolveBorrowPlaceFromLValue, htarget, hfind,
    Option.getD_some] at hreg
  split at hreg
  · cases hreg
  · rename_i σ' hσ'
    have hσ₁ := registering_address h₁ (fresh_releaseBorrow h) (by simp) hσ' hnonempty hplaces
      hxnone hne (hancestors _ rfl) (.inl hlinked)
    rw [reborrowParent_releaseBorrow h hq] at hreg
    cases hparent : reborrowParent σ (.deref q path) with
    | none =>
      simp only [hparent] at hreg
      cases hreg
      refine ⟨hσ₁, fun hfresh => hσ₁.registered_of_none ?_⟩
      rw [(registerOwnerBorrow_tables hσ').2.2.2]
      exact hfresh rfl
    | some parent =>
      simp only [hparent] at hreg
      cases hreg
      have hr : Registered (Function.update L pointer none) (releaseBorrow orders σ pointer)
          (recordReborrow orders σ' pointer parent isMutable) pointer
          (B.places.map fun e => (e.1.extend path, isMutable)) (B.id :: B.ancestors) := by
        obtain ⟨rfl, rfl⟩ := eq_of_reborrowParent hparent
        obtain ⟨e, he⟩ := exists_mem_of_ne_nil _ (h.nonempty parent B hB)
        have hcovers := h₁.covers parent B hB₁ e he
        rw [hplace e he] at hcovers
        refine registered_reborrow h₁ hq hσ₁ ?_ hcovers htarget hlinked
        rw [(registerOwnerBorrow_tables hσ').2.1]
        simp
      exact ⟨hr.toRegistering, fun _ => hr⟩

theorem registered_copied {isMutable : Bool} (hq : q ≠ pointer) (hB : L q = some B)
    (hmutable : isMutable = true → isMutBorrower σ q = true)
    (hreg : registerSource orders env σ pointer (.copy q) isMutable = some τ) :
    Registered (Function.update L pointer none) (releaseBorrow orders σ pointer) τ pointer
    (B.places.map fun e => (e.1, false)) [] := by
  have h₁ := h.releaseBorrow orders pointer
  have hB₁ : Function.update L pointer none q = some B := by rwa [Function.update_of_ne hq]
  obtain ⟨owner, howner⟩ := h₁.target q B hB₁
  unfold registerSource at hreg
  rw [clearPointerBorrow_eq orders h hslot] at hreg
  simp only [howner, if_neg hq, isMutBorrower_releaseBorrow h hq] at hreg
  split_ifs at hreg with hexclusive
  have hshared : isMutable = false := by
    cases isMutable with
    | true => exact absurd (hmutable rfl) hexclusive
    | false => rfl
  subst hshared
  obtain ⟨τ', hcopy, rfl⟩ := Option.map_eq_some_iff.1 hreg
  exact registered_copy h₁ (fresh_releaseBorrow h) (slot_releaseBorrow hslot) hB₁ howner (by simp)
    hcopy

theorem registering_source {isMutable : Bool} {s : Source} (hs : SourceSeparates σ L pointer s)
    (hmutable : isMutable = sourceIsMutable σ s ∨ (isMutable = false ∧ ∃ q, s = .copy q))
    (hreg : registerSource orders env σ pointer s isMutable = some τ) :
    Registering (Function.update L pointer none) (releaseBorrow orders σ pointer) τ pointer
        (sourcePlaces L s) (sourceAncestors L s) ∧
      (SourceUnplaced σ pointer s →
        Registered (Function.update L pointer none) (releaseBorrow orders σ pointer) τ pointer
          (sourcePlaces L s) (sourceAncestors L s)) := by
  cases s with
  | address flag operand =>
    have hflag : isMutable = flag := by
      rcases hmutable with hflag | ⟨-, q, hq⟩
      · exact hflag
      · cases hq
    subst hflag
    cases operand with
    | named name path =>
      obtain ⟨hr, hplaces⟩ := registering_named h hslot hs.1 hs.2 hreg
      refine ⟨hr, fun hunplaced => hr.registered_of_none ?_⟩
      rw [hplaces]
      exact hunplaced rfl
    | deref q path =>
      obtain ⟨hq, ⟨B, hB, place, hplace⟩, hchild⟩ := hs
      simp only [sourcePlaces, sourceAncestors, hB]
      exact registering_deref h hslot hq hB hplace hchild hreg
  | copy q =>
    obtain ⟨hq, hlive⟩ := hs
    obtain ⟨B, hB⟩ := Option.ne_none_iff_exists'.1 hlive
    have hcopied : isMutable = true → isMutBorrower σ q = true := by
      intro htrue
      rcases hmutable with hflag | ⟨hfalse, -⟩
      · exact hflag.symm.trans htrue
      · exact absurd (hfalse.symm.trans htrue) (by decide)
    have hr := registered_copied h hslot hq hB hcopied hreg
    simp only [sourcePlaces, sourceAncestors, hB]
    exact ⟨hr.toRegistering, fun _ => hr⟩

end Mlang.BorrowSources
