import Mlang.PointerBorrows

namespace Mlang.BorrowRecords

open Mangling (Name)
open OrderedTables PointerBorrows List

/-- What a live pointer was bound to: the places it may point to, each with whether it was bound by a
`&mut`, the time of the binding, and the bindings it was reborrowed from. -/
structure Loan where
  places : List (Place × Bool)
  id : Nat
  ancestors : List Nat

abbrev Loans := Name → Option Loan

def sourcePlaces (L : Loans) : Source → List (Place × Bool)
  | .address isMutable (.named name path) => [(⟨name, path⟩, isMutable)]
  | .address isMutable (.deref pointer path) =>
    match L pointer with
    | some loan => loan.places.map fun e => (e.1.extend path, isMutable)
    | none => []
  | .copy pointer =>
    match L pointer with
    | some loan => loan.places.map fun e => (e.1, false)
    | none => []

def sourceAncestors (L : Loans) : Source → List Nat
  | .address _ (.deref pointer _) =>
    match L pointer with
    | some loan => loan.id :: loan.ancestors
    | none => []
  | _ => []

variable {place : Place}

@[simp] theorem pathsOverlap_nil (path : List Segment) : pathsOverlap path [] = true := by
  cases path <;> rfl

theorem Segment.overlaps_comm (a b : Segment) : a.overlaps b = b.overlaps a := by
  cases a with
  | field a => cases b with
    | field b => exact Bool.beq_comm
    | index b => rfl
  | index a => cases b with
    | field b => rfl
    | index b =>
      simp only [Segment.overlaps]
      rw [Bool.beq_comm]
      cases (b == a) <;> cases (a == ['*']) <;> cases (b == ['*']) <;> rfl

theorem pathsOverlap_comm (a b : List Segment) : pathsOverlap a b = pathsOverlap b a := by
  induction a generalizing b with
  | nil => cases b <;> rfl
  | cons x a ih =>
    cases b with
    | nil => rfl
    | cons y b => rw [pathsOverlap, pathsOverlap, ih, Segment.overlaps_comm]

theorem borrowPlacesOverlap_comm (a b : Place) : borrowPlacesOverlap a b = borrowPlacesOverlap b a := by
  rw [borrowPlacesOverlap, borrowPlacesOverlap, pathsOverlap_comm, Bool.beq_comm]

@[simp] theorem borrowPlacesOverlap_self (a : Place) : borrowPlacesOverlap a a = true := by
  have hpath : ∀ path : List Segment, pathsOverlap path path = true := by
    intro path
    induction path with
    | nil => rfl
    | cons x path ih => cases x <;> simp [pathsOverlap, Segment.overlaps, ih]
  simp [borrowPlacesOverlap, hpath]

theorem owner_eq_of_overlap {a b : Place} (h : borrowPlacesOverlap a b = true) : a.owner = b.owner := by
  unfold borrowPlacesOverlap at h
  simpa using (Bool.and_eq_true_iff.1 h).1

theorem overlap_whole {name : Name} (h : place.owner = name) :
    borrowPlacesOverlap place (.whole name) = true := by
  simp [borrowPlacesOverlap, Place.whole, h]

@[simp] theorem whole_owner (name : Name) : (Place.whole name).owner = name := rfl

@[simp] theorem whole_path (name : Name) : (Place.whole name).path = [] := rfl

theorem eq_whole (h : place.path = []) : place = .whole place.owner := by
  cases place
  cases h
  rfl

@[simp] theorem extend_nil (place : Place) : place.extend [] = place := by
  simp [Place.extend]

variable {L : Loans} {pointer : Name} {clock : Nat}

section Records

variable (σ : BorrowState)

def Covers (pointer : Name) (place : Place) : Prop :=
  (pointer, .whole place.owner, place) ∈ σ.aggregateBorrowPlaces ∨
    ((∀ e ∈ σ.aggregateBorrowPlaces, e.1 ≠ pointer) ∧
      find σ.pointerBorrowTarget pointer = some (.whole place.owner) ∧
        find σ.pointerBorrowPlace pointer = some place)

def KeyCovered (key : BorrowKey) (pointer : Name) : Prop :=
  match key with
  | .reborrow holder _ => holder = pointer
  | .place place =>
    (∃ recorded, (pointer, .whole place.owner, recorded) ∈ σ.aggregateBorrowPlaces ∧
      borrowPlacesOverlap recorded place = true) ∨
    ((∀ e ∈ σ.aggregateBorrowPlaces, e.1 ≠ pointer) ∧
      find σ.pointerBorrowTarget pointer = some (.whole place.owner) ∧
        (place.path = [] ∨ find σ.pointerBorrowPlace pointer = some place))

structure Records (L : Loans) (clock : Nat) : Prop where
  target : ∀ p B, L p = some B → ∃ owner, find σ.pointerBorrowTarget p = some owner
  live : ∀ e ∈ σ.pointerBorrowTarget, L e.1 ≠ none ∧ ∃ x, e.2 = .whole x ∧ L x = none
  placeTarget : ∀ p place, find σ.pointerBorrowPlace p = some place →
    find σ.pointerBorrowTarget p = some (.whole place.owner)
  nonempty : ∀ p B, L p = some B → B.places ≠ []
  covers : ∀ p B, L p = some B → ∀ e ∈ B.places, Covers σ p e.1
  single : ∀ p B place, L p = some B → (∀ e ∈ B.places, e.1 = place) →
    find σ.pointerBorrowPlace p = some place
  shared : ∀ p B, L p = some B → ∀ e ∈ B.places, e.2 = false →
    (Place.whole e.1.owner, p) ∈ σ.activeBorrowers
  exclusive : ∀ p B, L p = some B → ∀ e ∈ B.places, e.2 = true → ∃ k, (k, p) ∈ σ.activeMutBorrower
  keysNodup : (σ.activeMutBorrower.map Prod.fst).Nodup
  keys : ∀ e ∈ σ.activeMutBorrower, KeyCovered σ e.1 e.2
  aggregate : ∀ e ∈ σ.aggregateBorrowPlaces, ∀ owner,
    find σ.pointerBorrowTarget e.1 = some owner → ∃ place, (e.1, owner, place) ∈ σ.aggregateBorrowPlaces
  aggregateOwner : ∀ e ∈ σ.aggregateBorrowPlaces, e.2.2.owner = e.2.1.owner
  apart : ∀ p q B B', p ≠ q → L p = some B → L q = some B' → ∀ e ∈ B.places, ∀ e' ∈ B'.places,
    (e.2 = true ∨ e'.2 = true) → borrowPlacesOverlap e.1 e'.1 = true →
      B'.id ∈ B.ancestors ∨ B.id ∈ B'.ancestors
  parents : ∀ e ∈ σ.pointerBorrowParent, L e.1 ≠ none
  links : ∀ p q B B', find σ.pointerBorrowParent q = some p → L p = some B → L q = some B' →
    (∀ x ∈ B.ancestors, x < B'.id) ∧ (find σ.pointerBorrowParent p = none ∨ B.id < B'.id)
  ids : ∀ p B, L p = some B → B.id < clock ∧ ∀ x ∈ B.ancestors, x < B.id

variable {σ}

theorem isMutBorrower_iff : isMutBorrower σ pointer = true ↔ ∃ k, (k, pointer) ∈ σ.activeMutBorrower := by
  simp [isMutBorrower]

theorem aggregate_any {owner : Place} (h : (pointer, owner, place) ∈ σ.aggregateBorrowPlaces) :
    (σ.aggregateBorrowPlaces.any fun e => e.1 == pointer) = true :=
  any_eq_true.2 ⟨_, h, by simp⟩

theorem aggregate_not_any (h : ∀ e ∈ σ.aggregateBorrowPlaces, e.1 ≠ pointer) :
    ¬(σ.aggregateBorrowPlaces.any fun e => e.1 == pointer) = true := by
  rw [any_eq_true]
  rintro ⟨e, he, hname⟩
  exact h e he (by simpa using hname)

theorem overlaps_of_covers {recorded : Place} (h : Covers σ pointer recorded)
    (hoverlap : borrowPlacesOverlap recorded place = true) :
    borrowerPlaceOverlaps σ pointer (.whole place.owner) place = true := by
  have howner := owner_eq_of_overlap hoverlap
  unfold borrowerPlaceOverlaps
  rcases h with h | ⟨hnone, htarget, hplace⟩
  · rw [if_pos (aggregate_any h), any_eq_true]
    refine ⟨_, h, ?_⟩
    simp [howner, hoverlap]
  · rw [if_neg (aggregate_not_any hnone)]
    simp [htarget, hplace, howner, hoverlap]

theorem overlaps_of_keyCovered (hσ : Records σ L clock) (h : KeyCovered σ (.place place) pointer) :
    borrowerPlaceOverlaps σ pointer (.whole place.owner) (.whole place.owner) = true ∧
    (place.path ≠ [] → borrowerPlaceOverlaps σ pointer (.whole place.owner) place = true) := by
  unfold borrowerPlaceOverlaps
  rcases h with ⟨recorded, hmem, hoverlap⟩ | ⟨hnone, htarget, hplace⟩
  · rw [if_pos (aggregate_any hmem), if_pos (aggregate_any hmem), any_eq_true, any_eq_true]
    have hwhole := overlap_whole (hσ.aggregateOwner _ hmem)
    refine ⟨⟨_, hmem, ?_⟩, fun _ => ⟨_, hmem, ?_⟩⟩
    · simpa using hwhole
    · simpa using hoverlap
  · rw [if_neg (aggregate_not_any hnone), if_neg (aggregate_not_any hnone)]
    simp only [htarget, ne_eq, not_true_eq_false, if_false]
    constructor
    · cases hfind : find σ.pointerBorrowPlace pointer with
      | none => exact overlap_whole rfl
      | some recorded =>
        have htarget' := htarget.symm.trans (hσ.placeTarget pointer recorded hfind)
        exact overlap_whole (congrArg Place.owner (Option.some.inj htarget')).symm
    · intro hpath
      rcases hplace with hplace | hplace
      · exact absurd hplace hpath
      · simp [hplace]

end Records

variable {σ σ' : BorrowState}

structure SameFor (σ σ' : BorrowState) (pointer : Name) : Prop where
  target : find σ'.pointerBorrowTarget pointer = find σ.pointerBorrowTarget pointer
  place : find σ'.pointerBorrowPlace pointer = find σ.pointerBorrowPlace pointer
  aggregate : ∀ owner place, (pointer, owner, place) ∈ σ'.aggregateBorrowPlaces ↔
    (pointer, owner, place) ∈ σ.aggregateBorrowPlaces

theorem SameFor.refl (pointer : Name) : SameFor σ σ pointer := ⟨rfl, rfl, fun _ _ => Iff.rfl⟩

variable (h : SameFor σ σ' pointer)
include h

theorem SameFor.trans {σ'' : BorrowState} (h' : SameFor σ' σ'' pointer) :
    SameFor σ σ'' pointer :=
  ⟨h'.target.trans h.target, h'.place.trans h.place,
    fun owner place => (h'.aggregate owner place).trans (h.aggregate owner place)⟩

theorem SameFor.aggregate_none :
    (∀ e ∈ σ'.aggregateBorrowPlaces, e.1 ≠ pointer) ↔ ∀ e ∈ σ.aggregateBorrowPlaces, e.1 ≠ pointer := by
  constructor
  · rintro hnone ⟨_, owner, place⟩ he rfl
    exact hnone _ ((h.aggregate owner place).2 he) rfl
  · rintro hnone ⟨_, owner, place⟩ he rfl
    exact hnone _ ((h.aggregate owner place).1 he) rfl

theorem SameFor.covers (place : Place) :
    Covers σ' pointer place ↔ Covers σ pointer place := by
  unfold Covers
  rw [h.aggregate, h.aggregate_none, h.target, h.place]

theorem SameFor.keyCovered (key : BorrowKey) :
    KeyCovered σ' key pointer ↔ KeyCovered σ key pointer := by
  unfold KeyCovered
  cases key with
  | reborrow holder owner => exact Iff.rfl
  | place place => simp only [h.aggregate, h.aggregate_none, h.target, h.place]

omit h

def dropPointer (σ : BorrowState) (pointer : Name) : BorrowState where
  pointerBorrowTarget := erase σ.pointerBorrowTarget pointer
  pointerBorrowPlace := erase σ.pointerBorrowPlace pointer
  pointerBorrowParent := erase σ.pointerBorrowParent pointer
  activeBorrowers := σ.activeBorrowers.filter fun borrower => decide (borrower.2 ≠ pointer)
  activeMutBorrower := σ.activeMutBorrower.filter fun borrow => decide (borrow.2 ≠ pointer)
  aggregateBorrowPlaces := σ.aggregateBorrowPlaces

theorem sameFor_dropPointer {q : Name} (hq : q ≠ pointer) : SameFor σ (dropPointer σ pointer) q :=
  ⟨by simp [dropPointer, hq], by simp [dropPointer, hq], fun _ _ => Iff.rfl⟩

theorem ne_of_update {q : Name} {B : Loan} (h : Function.update L pointer none q = some B) :
    q ≠ pointer ∧ L q = some B := by
  by_cases hq : q = pointer
  · rw [hq, Function.update_self] at h
    cases h
  · rw [Function.update_of_ne hq] at h
    exact ⟨hq, h⟩

theorem Records.dropPointer (h : Records σ L clock) (pointer : Name) :
    Records (dropPointer σ pointer) (Function.update L pointer none) clock where
  target p B hp := by
    obtain ⟨hne, hp⟩ := ne_of_update hp
    obtain ⟨owner, howner⟩ := h.target p B hp
    exact ⟨owner, (sameFor_dropPointer hne).target.trans howner⟩
  live e he := by
    obtain ⟨he, hne⟩ := (mem_erase _ _ e).1 he
    obtain ⟨hlive, x, hx, hnone⟩ := h.live e he
    rw [Function.update_of_ne hne]
    refine ⟨hlive, x, hx, ?_⟩
    by_cases hxp : x = pointer
    · rw [hxp, Function.update_self]
    · rwa [Function.update_of_ne hxp]
  placeTarget p place hplace := by
    have hne : p ≠ pointer := by
      rintro rfl
      simp [BorrowRecords.dropPointer] at hplace
    rw [(sameFor_dropPointer hne).place] at hplace
    rw [(sameFor_dropPointer hne).target]
    exact h.placeTarget p place hplace
  nonempty p B hp := h.nonempty p B (ne_of_update hp).2
  covers p B hp e he := by
    obtain ⟨hne, hp⟩ := ne_of_update hp
    exact ((sameFor_dropPointer hne).covers _).2 (h.covers p B hp e he)
  single p B place hp hsingle := by
    obtain ⟨hne, hp⟩ := ne_of_update hp
    exact (sameFor_dropPointer hne).place.trans (h.single p B place hp hsingle)
  shared p B hp e he hshared := by
    obtain ⟨hne, hp⟩ := ne_of_update hp
    exact mem_filter.2 ⟨h.shared p B hp e he hshared, by simpa using hne⟩
  exclusive p B hp e he hexclusive := by
    obtain ⟨hne, hp⟩ := ne_of_update hp
    obtain ⟨k, hk⟩ := h.exclusive p B hp e he hexclusive
    exact ⟨k, mem_filter.2 ⟨hk, by simpa using hne⟩⟩
  keysNodup := (List.filter_sublist.map Prod.fst).nodup h.keysNodup
  keys e he := by
    obtain ⟨he, hne⟩ := mem_filter.1 he
    exact ((sameFor_dropPointer (by simpa using hne)).keyCovered _).2 (h.keys e he)
  aggregate e he owner howner := by
    have hne : e.1 ≠ pointer := by
      rintro hname
      simp [BorrowRecords.dropPointer, hname] at howner
    rw [(sameFor_dropPointer hne).target] at howner
    exact h.aggregate e he owner howner
  aggregateOwner := h.aggregateOwner
  apart p q B B' hpq hp hq := h.apart p q B B' hpq (ne_of_update hp).2 (ne_of_update hq).2
  parents e he := by
    obtain ⟨he, hne⟩ := (mem_erase _ _ e).1 he
    rw [Function.update_of_ne hne]
    exact h.parents e he
  links p q B B' hparent hp hq := by
    obtain ⟨hnep, hp⟩ := ne_of_update hp
    obtain ⟨hneq, hq⟩ := ne_of_update hq
    simp only [BorrowRecords.dropPointer, find_erase, hneq, hnep, if_false] at hparent ⊢
    exact h.links p q B B' hparent hp hq
  ids p B hp := h.ids p B (ne_of_update hp).2

variable (orders : Orders)

structure SameHolders (σ : BorrowState) (borrows : Table BorrowKey Name) : Prop where
  nodup : (borrows.map Prod.fst).Nodup
  keys : ∀ e ∈ borrows, KeyCovered σ e.1 e.2
  holders : ∀ q, (∃ k, (k, q) ∈ borrows) ↔ ∃ k, (k, q) ∈ σ.activeMutBorrower

variable {borrows : Table BorrowKey Name} {targets : Table Name Place}

theorem Records.withBorrows (h : Records σ L clock) (hborrows : SameHolders σ borrows) :
    Records { σ with activeMutBorrower := borrows } L clock :=
  { h with
    exclusive := fun p B hp e he hexclusive =>
      (hborrows.holders p).2 (h.exclusive p B hp e he hexclusive)
    keysNodup := hborrows.nodup
    keys := hborrows.keys }

theorem keyCovered_target (h : Records σ L clock) {x : Name}
    (htarget : find σ.pointerBorrowTarget pointer = some (.whole x)) :
    KeyCovered σ (.place (.whole x)) pointer := by
  by_cases hany : ∃ e ∈ σ.aggregateBorrowPlaces, e.1 = pointer
  · obtain ⟨e, he, rfl⟩ := hany
    obtain ⟨place, hplace⟩ := h.aggregate e he _ htarget
    exact .inl ⟨place, hplace, overlap_whole (h.aggregateOwner _ hplace)⟩
  · simp only [not_exists, not_and] at hany
    exact .inr ⟨hany, htarget, .inl rfl⟩

theorem SameHolders.restore (h : Records σ L clock)
    (htargets : ∀ q k, (k, q) ∈ σ.activeMutBorrower → find targets q = find σ.pointerBorrowTarget q)
    {borrow : Name × Place} (hborrow : ∃ x, borrow.2 = .whole x) (hborrows : SameHolders σ borrows) :
    SameHolders σ (restoreRootBorrow orders pointer targets borrows borrow) := by
  obtain ⟨x, hx⟩ := hborrow
  unfold restoreRootBorrow
  split_ifs with hskip
  · exact hborrows
  · split
    · exact hborrows
    · rename_i candidate hcandidate
      have hmem := mem_of_find?_eq_some hcandidate
      have htarget : find targets candidate.2 = some (.whole x) := by
        simpa [hx] using find?_some hcandidate
      obtain ⟨k, hk⟩ := (hborrows.holders candidate.2).1 ⟨candidate.1, hmem⟩
      rw [htargets _ k hk] at htarget
      have hcovered := keyCovered_target h htarget
      have hnone : find borrows (.place (.whole x)) = none := by
        rw [hx] at hskip
        simpa using (not_or.1 hskip).2
      have hinsert : SameHolders σ (insert orders.keys borrows (.place (.whole x)) candidate.2) := by
        refine ⟨nodup_insert _ hborrows.nodup _ _, fun e he => ?_, fun q => ?_⟩
        · rcases (mem_insert _ _ _ _ e).1 he with rfl | ⟨he, -⟩
          · exact hcovered
          · exact hborrows.keys e he
        · rw [← hborrows.holders q]
          constructor
          · rintro ⟨k, hk⟩
            rcases (mem_insert _ _ _ _ _).1 hk with hk | ⟨hk, -⟩
            · exact ⟨candidate.1, (Prod.mk.inj hk).2 ▸ hmem⟩
            · exact ⟨k, hk⟩
          · rintro ⟨k, hk⟩
            exact ⟨k, (mem_insert _ _ _ _ _).2 (.inr ⟨hk, find_eq_none.1 hnone _ hk⟩)⟩
      rw [hx]
      dsimp only
      split_ifs with hkey
      · refine ⟨nodup_erase hinsert.nodup _, fun e he => ?_, fun q => ?_⟩
        · exact hinsert.keys e ((mem_erase _ _ e).1 he).1
        · rw [← hinsert.holders q]
          constructor
          · rintro ⟨k, hk⟩
            exact ⟨k, ((mem_erase _ _ _).1 hk).1⟩
          · rintro ⟨k, hk⟩
            by_cases hsame : k = candidate.1
            · have heq : ((k, q) : BorrowKey × Name) = candidate := by
                rcases (mem_insert _ _ _ _ _).1 hk with hk | ⟨hk, -⟩
                · exact absurd (hsame.symm.trans (Prod.mk.inj hk).1) hkey
                · exact eq_of_mem hborrows.nodup hk hmem hsame
              refine ⟨.place (.whole x), (mem_erase _ _ _).2 ⟨?_, Ne.symm hkey⟩⟩
              rw [mem_insert, ← heq]
              exact .inl rfl
            · exact ⟨k, (mem_erase _ _ _).2 ⟨hk, hsame⟩⟩
      · exact hinsert

theorem SameHolders.foldl (h : Records σ L clock)
    (htargets : ∀ q k, (k, q) ∈ σ.activeMutBorrower → find targets q = find σ.pointerBorrowTarget q)
    (borrowed : List (Name × Place)) (hborrowed : ∀ e ∈ borrowed, ∃ x, e.2 = .whole x)
    (hborrows : SameHolders σ borrows) :
    SameHolders σ (borrowed.foldl (restoreRootBorrow orders pointer targets) borrows) := by
  induction borrowed generalizing borrows with
  | nil => exact hborrows
  | cons e borrowed ih =>
    obtain ⟨he, hrest⟩ := forall_mem_cons.1 hborrowed
    exact ih hrest (hborrows.restore orders h htargets he)

theorem sameHolders_self (h : Records σ L clock) : SameHolders σ σ.activeMutBorrower :=
  ⟨h.keysNodup, h.keys, fun _ => Iff.rfl⟩

theorem sameHolders_releaseBorrow (h : Records σ L clock) (pointer : Name) :
    SameHolders (dropPointer σ pointer) (releaseBorrow orders σ pointer).activeMutBorrower := by
  refine SameHolders.foldl orders (h.dropPointer pointer) (fun q k hk => ?_) _ (fun e he => ?_)
    (sameHolders_self (h.dropPointer pointer))
  · have hq : q ≠ pointer := by simpa using (mem_filter.1 hk).2
    simp [dropPointer, hq]
  · obtain ⟨-, x, hx, -⟩ := h.live e he
    exact ⟨x, hx⟩

theorem Records.releaseBorrow (h : Records σ L clock) (pointer : Name) :
    Records (releaseBorrow orders σ pointer) (Function.update L pointer none) clock :=
  (h.dropPointer pointer).withBorrows (sameHolders_releaseBorrow orders h pointer)

theorem clearPointerBorrow_borrowed (h : ∃ e ∈ σ.pointerBorrowTarget, e.1 ≠ pointer ∧ e.2 = .whole pointer) :
    clearPointerBorrow orders σ pointer = σ := by
  obtain ⟨e, he, hne, hwhole⟩ := h
  unfold clearPointerBorrow clearRounds
  rw [if_pos]
  rw [any_eq_true]
  exact ⟨e, he, by simp [hne, hwhole]⟩

theorem clearPointerBorrow_eq (h : Records σ L clock)
    (hslot : ∀ e ∈ σ.pointerBorrowTarget, e.1 ≠ pointer → e.2 ≠ .whole pointer) :
    clearPointerBorrow orders σ pointer = PointerBorrows.releaseBorrow orders σ pointer := by
  unfold clearPointerBorrow clearRounds
  rw [if_neg]
  · cases htarget : find σ.pointerBorrowTarget pointer with
    | none => rfl
    | some owner =>
      obtain ⟨-, x, rfl, hnone⟩ := h.live _ (mem_of_find htarget)
      dsimp only
      rw [if_neg]
      rintro ⟨-, -, hsome, -⟩
      obtain ⟨owner', howner⟩ := Option.isSome_iff_exists.1 hsome
      have hmem := ((mem_erase _ _ _).1 (mem_of_find howner)).1
      exact (h.live _ hmem).1 hnone
  · rw [any_eq_true]
    rintro ⟨e, he, hborrow⟩
    simp only [Bool.and_eq_true, bne_iff_ne, ne_eq, beq_iff_eq] at hborrow
    exact hslot e he hborrow.1 hborrow.2

theorem Records.clear (h : Records σ L clock) (pointer : Name) :
    Records (clearPointerBorrow orders σ pointer) (Function.update L pointer none) clock := by
  by_cases hslot : ∃ e ∈ σ.pointerBorrowTarget, e.1 ≠ pointer ∧ e.2 = .whole pointer
  · rw [clearPointerBorrow_borrowed orders hslot]
    obtain ⟨e, he, -, hwhole⟩ := hslot
    obtain ⟨-, x, hx, hnone⟩ := h.live e he
    have hpointer : L pointer = none := by
      rw [hwhole] at hx
      rw [(Place.mk.inj hx).1]
      exact hnone
    rwa [Function.update_eq_self_iff.2 hpointer.symm]
  · simp only [not_exists, not_and] at hslot
    rw [clearPointerBorrow_eq orders h hslot]
    exact h.releaseBorrow orders pointer

end Mlang.BorrowRecords
