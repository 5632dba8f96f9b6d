import Mlang.BorrowRecords

namespace Mlang.BorrowRegistration

open Mangling (Name)
open OrderedTables PointerBorrows BorrowRecords List
open Function (update_of_ne update_self)

variable {ρ : BorrowState} {pointer : Name}

section Frames

structure OnlyPointer (ρ ρ' : BorrowState) (pointer : Name) : Prop where
  same : ∀ q, q ≠ pointer → SameFor ρ ρ' q
  targets : ∀ e, e.1 ≠ pointer → (e ∈ ρ'.pointerBorrowTarget ↔ e ∈ ρ.pointerBorrowTarget)
  parents : ∀ e, e.1 ≠ pointer → (e ∈ ρ'.pointerBorrowParent ↔ e ∈ ρ.pointerBorrowParent)
  parent : ∀ q, q ≠ pointer → find ρ'.pointerBorrowParent q = find ρ.pointerBorrowParent q
  shared : ∀ e, e.2 ≠ pointer → (e ∈ ρ'.activeBorrowers ↔ e ∈ ρ.activeBorrowers)
  exclusive : ∀ e, e.2 ≠ pointer → (e ∈ ρ'.activeMutBorrower ↔ e ∈ ρ.activeMutBorrower)

variable {ρ' ρ'' : BorrowState}

theorem OnlyPointer.refl : OnlyPointer ρ ρ pointer :=
  ⟨fun q _ => SameFor.refl q, fun _ _ => Iff.rfl, fun _ _ => Iff.rfl, fun _ _ => rfl,
    fun _ _ => Iff.rfl, fun _ _ => Iff.rfl⟩

theorem OnlyPointer.trans (h : OnlyPointer ρ ρ' pointer) (h' : OnlyPointer ρ' ρ'' pointer) :
    OnlyPointer ρ ρ'' pointer where
  same q hq := (h.same q hq).trans (h'.same q hq)
  targets e he := (h'.targets e he).trans (h.targets e he)
  parents e he := (h'.parents e he).trans (h.parents e he)
  parent q hq := (h'.parent q hq).trans (h.parent q hq)
  shared e he := (h'.shared e he).trans (h.shared e he)
  exclusive e he := (h'.exclusive e he).trans (h.exclusive e he)

end Frames

variable {places : List (Place × Bool)} {ancestors : List Nat} {B : Loan} {L : Loans} {q : Name} {clock : Nat}

section Registered

def KeyApart (ρ : BorrowState) (pointer : Name) (key : BorrowKey) : Prop :=
  ∀ k q, (k, q) ∈ ρ.activeMutBorrower → q ≠ pointer → ¬KeyCovered ρ key q

def KeyPlaced (σ : BorrowState) (key : BorrowKey) (pointer : Name) : Prop :=
  match key with
  | .reborrow holder _ => holder = pointer
  | .place place =>
    (∃ recorded, (pointer, .whole place.owner, recorded) ∈ σ.aggregateBorrowPlaces ∧
      borrowPlacesOverlap recorded place = true) ∨
    (find σ.pointerBorrowTarget pointer = some (.whole place.owner) ∧
      (place.path = [] ∨ find σ.pointerBorrowPlace pointer = some place))

/-- A pointer without records in one state is registered in another one, with the places that it may
point to and the bindings that it is reborrowed from. -/
structure Registering (L : Loans) (ρ ρ' : BorrowState) (pointer : Name)
    (places : List (Place × Bool)) (ancestors : List Nat) : Prop where
  only : OnlyPointer ρ ρ' pointer
  target : ∃ owner, find ρ'.pointerBorrowTarget pointer = some owner
  targetOwn : ∀ e ∈ ρ'.pointerBorrowTarget, e.1 = pointer →
    ∃ x, e.2 = .whole x ∧ x ≠ pointer ∧ L x = none
  placeTarget : ∀ place, find ρ'.pointerBorrowPlace pointer = some place →
    find ρ'.pointerBorrowTarget pointer = some (.whole place.owner)
  held : ∀ owner, find ρ'.pointerBorrowTarget pointer = some owner →
    (∃ k, (k, pointer) ∈ ρ'.activeMutBorrower) ∨ (owner, pointer) ∈ ρ'.activeBorrowers
  nonempty : places ≠ []
  placed : ∀ e ∈ places, (pointer, .whole e.1.owner, e.1) ∈ ρ'.aggregateBorrowPlaces ∨
    find ρ'.pointerBorrowPlace pointer = some e.1
  single : ∀ place, (∀ e ∈ places, e.1 = place) → find ρ'.pointerBorrowPlace pointer = some place
  shared : ∀ e ∈ places, e.2 = false → (Place.whole e.1.owner, pointer) ∈ ρ'.activeBorrowers
  exclusive : ∀ e ∈ places, e.2 = true → ∃ k, (k, pointer) ∈ ρ'.activeMutBorrower
  keysNodup : (ρ'.activeMutBorrower.map Prod.fst).Nodup
  keysPlaced : ∀ k, (k, pointer) ∈ ρ'.activeMutBorrower → KeyPlaced ρ' k pointer
  keysApart : ∀ k, (k, pointer) ∈ ρ'.activeMutBorrower → KeyApart ρ pointer k
  aggregateOwner : ∀ e ∈ ρ'.aggregateBorrowPlaces, e.1 = pointer → e.2.2.owner = e.2.1.owner
  related : ∀ q B, L q = some B → ∀ e ∈ places, ∀ e' ∈ B.places, (e.2 = true ∨ e'.2 = true) →
    borrowPlacesOverlap e.1 e'.1 = true → B.id ∈ ancestors
  linked : (∀ q, find ρ'.pointerBorrowParent q ≠ some pointer) ∨
    (ancestors = [] ∧ find ρ'.pointerBorrowParent pointer = none)

structure Registered (L : Loans) (ρ ρ' : BorrowState) (pointer : Name) (places : List (Place × Bool))
    (ancestors : List Nat) : Prop extends Registering L ρ ρ' pointer places ancestors where
  covers : ∀ e ∈ places, Covers ρ' pointer e.1
  keys : ∀ k, (k, pointer) ∈ ρ'.activeMutBorrower → KeyCovered ρ' k pointer
  aggregate : ∀ e ∈ ρ'.aggregateBorrowPlaces, e.1 = pointer → ∀ owner,
    find ρ'.pointerBorrowTarget pointer = some owner →
      ∃ place, (pointer, owner, place) ∈ ρ'.aggregateBorrowPlaces

variable {ρ' : BorrowState}

theorem Registering.registered_of_none (h : Registering L ρ ρ' pointer places ancestors)
    (hnone : ∀ e ∈ ρ'.aggregateBorrowPlaces, e.1 ≠ pointer) :
    Registered L ρ ρ' pointer places ancestors where
  toRegistering := h
  covers e he := by
    rcases h.placed e he with hmem | hplace
    · exact .inl hmem
    · exact .inr ⟨hnone, h.placeTarget _ hplace, hplace⟩
  keys k hk := by
    have hplaced := h.keysPlaced k hk
    cases k with
    | reborrow holder owner => exact hplaced
    | place place => exact hplaced.imp id fun hplaced => ⟨hnone, hplaced⟩
  aggregate e he hname := absurd hname (hnone e he)

theorem Registering.registered_of_places (h : Registering L ρ ρ' pointer places ancestors)
    (hplaces : ∀ place, find ρ'.pointerBorrowPlace pointer = some place →
      (pointer, .whole place.owner, place) ∈ ρ'.aggregateBorrowPlaces)
    (htarget : ∀ owner, find ρ'.pointerBorrowTarget pointer = some owner →
      ∃ place, (pointer, owner, place) ∈ ρ'.aggregateBorrowPlaces) :
    Registered L ρ ρ' pointer places ancestors where
  toRegistering := h
  covers e he := .inl ((h.placed e he).elim id (hplaces _))
  keys k hk := by
    have hplaced := h.keysPlaced k hk
    cases k with
    | reborrow holder owner => exact hplaced
    | place place =>
      rcases hplaced with hplaced | ⟨howner, hkey⟩
      · exact .inl hplaced
      · rcases hkey with hpath | hplace
        · obtain ⟨recorded, hrecorded⟩ := htarget _ howner
          refine .inl ⟨recorded, hrecorded, ?_⟩
          rw [eq_whole hpath]
          exact overlap_whole (h.aggregateOwner _ hrecorded rfl)
        · exact .inl ⟨place, hplaces place hplace, borrowPlacesOverlap_self place⟩
  aggregate _ _ _ := htarget

theorem eq_or_of_update {B₀ : Loan} (h : Function.update L pointer (some B₀) q = some B) :
    (q = pointer ∧ B = B₀) ∨ (q ≠ pointer ∧ L q = some B) := by
  by_cases hq : q = pointer
  · rw [hq, update_self] at h
    exact .inl ⟨hq, (Option.some.inj h).symm⟩
  · rw [update_of_ne hq] at h
    exact .inr ⟨hq, h⟩

theorem records_register (h : Records ρ L clock) (hnone : L pointer = none)
    (hslot : ∀ e ∈ ρ.pointerBorrowTarget, e.2 ≠ .whole pointer)
    (hr : Registered L ρ ρ' pointer places ancestors) (hearlier : ∀ x ∈ ancestors, x < clock) :
    Records ρ' (Function.update L pointer (some ⟨places, clock, ancestors⟩)) (clock + 1) where
  target p B hp := by
    rcases eq_or_of_update hp with ⟨rfl, -⟩ | ⟨hne, hp⟩
    · exact hr.target
    · obtain ⟨owner, howner⟩ := h.target p B hp
      exact ⟨owner, (hr.only.same p hne).target.trans howner⟩
  live e he := by
    by_cases hne : e.1 = pointer
    · obtain ⟨x, hx, hxp, hxnone⟩ := hr.targetOwn e he hne
      rw [hne, update_self]
      exact ⟨by simp, x, hx, by rwa [update_of_ne hxp]⟩
    · obtain ⟨hlive, x, hx, hxnone⟩ := h.live e ((hr.only.targets e hne).1 he)
      have hxp : x ≠ pointer := by
        rintro rfl
        exact hslot e ((hr.only.targets e hne).1 he) hx
      rw [update_of_ne hne]
      exact ⟨hlive, x, hx, by rwa [update_of_ne hxp]⟩
  placeTarget p place hplace := by
    by_cases hne : p = pointer
    · subst hne
      exact hr.placeTarget place hplace
    · rw [(hr.only.same p hne).place] at hplace
      rw [(hr.only.same p hne).target]
      exact h.placeTarget p place hplace
  nonempty p B hp := by
    rcases eq_or_of_update hp with ⟨rfl, rfl⟩ | ⟨hne, hp⟩
    · exact hr.nonempty
    · exact h.nonempty p B hp
  covers p B hp e he := by
    rcases eq_or_of_update hp with ⟨rfl, rfl⟩ | ⟨hne, hp⟩
    · exact hr.covers e he
    · exact ((hr.only.same p hne).covers _).2 (h.covers p B hp e he)
  single p B place hp hsingle := by
    rcases eq_or_of_update hp with ⟨rfl, rfl⟩ | ⟨hne, hp⟩
    · exact hr.single place hsingle
    · exact (hr.only.same p hne).place.trans (h.single p B place hp hsingle)
  shared p B hp e he hshared := by
    rcases eq_or_of_update hp with ⟨rfl, rfl⟩ | ⟨hne, hp⟩
    · exact hr.shared e he hshared
    · exact (hr.only.shared _ hne).2 (h.shared p B hp e he hshared)
  exclusive p B hp e he hexclusive := by
    rcases eq_or_of_update hp with ⟨rfl, rfl⟩ | ⟨hne, hp⟩
    · exact hr.exclusive e he hexclusive
    · obtain ⟨k, hk⟩ := h.exclusive p B hp e he hexclusive
      exact ⟨k, (hr.only.exclusive _ hne).2 hk⟩
  keysNodup := hr.keysNodup
  keys e he := by
    obtain ⟨k, q⟩ := e
    by_cases hne : q = pointer
    · subst hne
      exact hr.keys k he
    · exact ((hr.only.same q hne).keyCovered _).2 (h.keys _ ((hr.only.exclusive _ hne).1 he))
  aggregate e he owner howner := by
    obtain ⟨q, o, place⟩ := e
    by_cases hne : q = pointer
    · subst hne
      exact hr.aggregate _ he rfl owner howner
    · have hsame := hr.only.same q hne
      obtain ⟨place', hplace'⟩ := h.aggregate _ ((hsame.aggregate _ _).1 he) owner
        (hsame.target.symm.trans howner)
      exact ⟨place', (hsame.aggregate _ _).2 hplace'⟩
  aggregateOwner e he := by
    obtain ⟨q, o, place⟩ := e
    by_cases hne : q = pointer
    · exact hr.aggregateOwner _ he hne
    · exact h.aggregateOwner _ (((hr.only.same q hne).aggregate _ _).1 he)
  apart p q B B' hpq hp hq e he e' he' hexclusive hoverlap := by
    rcases eq_or_of_update hp with ⟨rfl, rfl⟩ | ⟨hnep, hp⟩
    · rcases eq_or_of_update hq with ⟨rfl, -⟩ | ⟨-, hq⟩
      · exact absurd rfl hpq
      · exact .inl (hr.related q B' hq e he e' he' hexclusive hoverlap)
    · rcases eq_or_of_update hq with ⟨-, rfl⟩ | ⟨-, hq⟩
      · rw [borrowPlacesOverlap_comm] at hoverlap
        exact .inr (hr.related p B hp e' he' e he hexclusive.symm hoverlap)
      · exact h.apart p q B B' hpq hp hq e he e' he' hexclusive hoverlap
  parents e he := by
    by_cases hne : e.1 = pointer
    · rw [hne, update_self]
      simp
    · rw [update_of_ne hne]
      exact h.parents e ((hr.only.parents e hne).1 he)
  links p q B B' hparent hp hq := by
    rcases eq_or_of_update hq with ⟨rfl, rfl⟩ | ⟨hneq, hq⟩
    · have hpq : p ≠ q := by
        rintro rfl
        rcases hr.linked with hlinked | ⟨-, hlinked⟩
        · exact hlinked p hparent
        · rw [hlinked] at hparent
          cases hparent
      rcases eq_or_of_update hp with ⟨rfl, -⟩ | ⟨-, hp⟩
      · exact absurd rfl hpq
      · obtain ⟨hid, hancestors⟩ := h.ids p B hp
        exact ⟨fun x hx => (hancestors x hx).trans hid, .inr hid⟩
    · rcases eq_or_of_update hp with ⟨rfl, rfl⟩ | ⟨hnep, hp⟩
      · rcases hr.linked with hlinked | ⟨rfl, hlinked⟩
        · exact absurd hparent (hlinked q)
        · exact ⟨fun x hx => absurd hx (not_mem_nil), .inl hlinked⟩
      · rw [hr.only.parent q hneq] at hparent
        rw [hr.only.parent p hnep]
        exact h.links p q B B' hparent hp hq
  ids p B hp := by
    rcases eq_or_of_update hp with ⟨rfl, rfl⟩ | ⟨hne, hp⟩
    · exact ⟨Nat.lt_succ_self clock, hearlier⟩
    · obtain ⟨hid, hancestors⟩ := h.ids p B hp
      exact ⟨hid.trans (Nat.lt_succ_self clock), hancestors⟩

end Registered

variable {enforce isMutable : Bool} {parent : Option Name} {place owner : Place}

section Owners

theorem mem_foldl {α β : Type} {step : List α → β → List α} {adds : β → α → Prop}
    (hstep : ∀ acc b a, a ∈ step acc b ↔ a ∈ acc ∨ adds b a) (bs : List β) (acc : List α) (a : α) :
    a ∈ bs.foldl step acc ↔ a ∈ acc ∨ ∃ b ∈ bs, adds b a := by
  induction bs generalizing acc with
  | nil => simp
  | cons b bs ih =>
    rw [foldl_cons, ih, hstep, or_assoc]
    simp

variable (orders : Orders) (env : Surroundings)

@[simp] theorem mem_addBorrower (borrowers : List (Place × Name)) (owner : Place) (pointer : Name)
    (b : Place × Name) :
    b ∈ addBorrower borrowers owner pointer ↔ b = (owner, pointer) ∨ b ∈ borrowers := by
  unfold addBorrower
  split_ifs with h
  · refine ⟨.inr, ?_⟩
    rintro (rfl | hb)
    · exact h
    · exact hb
  · exact mem_cons

@[simp] theorem mem_addPlace (places : List (Name × Place × Place)) (pointer : Name)
    (owner place : Place) (e : Name × Place × Place) :
    e ∈ addPlace places pointer owner place ↔ e = (pointer, owner, place) ∨ e ∈ places := by
  unfold addPlace
  split_ifs with h
  · refine ⟨.inr, ?_⟩
    rintro (rfl | he)
    · exact h
    · exact he
  · exact mem_cons

theorem mem_addPlaces (recorded : List (Name × Place × Place)) (pointer : Name) (owner : Place)
    (places : List Place) (e : Name × Place × Place) :
    e ∈ places.foldl (fun recorded place => addPlace recorded pointer owner place) recorded ↔
      e ∈ recorded ∨ ∃ place ∈ places, e = (pointer, owner, place) := by
  have hstep : ∀ recorded place e, e ∈ addPlace recorded pointer owner place ↔
      e ∈ recorded ∨ e = (pointer, owner, place) := by
    intro recorded place e
    rw [mem_addPlace, or_comm]
  exact mem_foldl hstep places recorded e

variable {orders : Orders} {env : Surroundings} {σ σ' : BorrowState} {enforceExclusive : Bool}

theorem registerOwnerBorrow_eq_some
    (h : registerOwnerBorrow orders env σ pointer isMutable parent owner place enforceExclusive =
      some σ') :
    (isMutable = true ∧ mutableConflict σ pointer owner place parent = false ∧
      σ' = { recordPlace orders σ pointer owner place with
        activeMutBorrower := insert orders.keys σ.activeMutBorrower
          (borrowKey σ pointer owner place parent) pointer }) ∨
    (isMutable = false ∧ sharedConflict σ pointer owner place parent enforceExclusive = false ∧
      σ' = { recordPlace orders σ pointer owner place with
        activeBorrowers := addBorrower σ.activeBorrowers owner pointer }) := by
  unfold registerOwnerBorrow at h
  split_ifs at h with hcan hmutable hconflict hshared
  · simp only [Bool.or_eq_true, not_or, Bool.not_eq_true] at hconflict
    exact .inl ⟨hmutable, hconflict.1, (Option.some.inj h).symm⟩
  · exact .inr ⟨by simpa using hmutable, by simpa using hshared, (Option.some.inj h).symm⟩

theorem onlyPointer_recordPlace : OnlyPointer σ (recordPlace orders σ pointer owner place) pointer := by
  refine ⟨fun q hq => ⟨?_, ?_, fun _ _ => Iff.rfl⟩, fun e he => ?_, fun _ _ => Iff.rfl,
    fun _ _ => rfl, fun _ _ => Iff.rfl, fun _ _ => Iff.rfl⟩
  · simp [recordPlace, hq]
  · simp [recordPlace, hq]
  · have hne : e ≠ (pointer, owner) := by
      rintro rfl
      exact he rfl
    simp [recordPlace, he, hne]

theorem onlyPointer_insertKey (h : Records ρ L clock) (hσ : OnlyPointer ρ σ pointer)
    {key : BorrowKey} (hkey : KeyApart ρ pointer key) :
    OnlyPointer σ { σ with activeMutBorrower := insert orders.keys σ.activeMutBorrower key pointer }
      pointer := by
  refine ⟨fun q _ => ⟨rfl, rfl, fun _ _ => Iff.rfl⟩, fun _ _ => Iff.rfl, fun _ _ => Iff.rfl,
    fun _ _ => rfl, fun _ _ => Iff.rfl, fun e he => ?_⟩
  have hne : e ≠ (key, pointer) := by
    rintro rfl
    exact he rfl
  simp only [mem_insert, hne, false_or, and_iff_left_iff_imp]
  rintro hmem rfl
  have hmem' := (hσ.exclusive e he).1 hmem
  exact hkey e.1 e.2 hmem' he (h.keys e hmem')

theorem onlyPointer_addBorrower :
    OnlyPointer σ { σ with activeBorrowers := addBorrower σ.activeBorrowers owner pointer }
      pointer := by
  refine ⟨fun q _ => ⟨rfl, rfl, fun _ _ => Iff.rfl⟩, fun _ _ => Iff.rfl, fun _ _ => Iff.rfl,
    fun _ _ => rfl, fun e he => ?_, fun _ _ => Iff.rfl⟩
  have hne : e ≠ (owner, pointer) := by
    rintro rfl
    exact he rfl
  simp [hne]

theorem onlyPointer_addPlace :
    OnlyPointer σ { σ with aggregateBorrowPlaces := addPlace σ.aggregateBorrowPlaces pointer owner place }
      pointer := by
  refine ⟨fun q hq => ⟨rfl, rfl, fun o pl => ?_⟩, fun _ _ => Iff.rfl, fun _ _ => Iff.rfl,
    fun _ _ => rfl, fun _ _ => Iff.rfl, fun _ _ => Iff.rfl⟩
  simp [hq]

theorem exempt_of_overlap (h : Records ρ L clock) (hσ : OnlyPointer ρ σ pointer)
    (hreg : registerOwnerBorrow orders env σ pointer isMutable parent (.whole place.owner) place
      enforceExclusive = some σ')
    (hq : L q = some B) (hne : q ≠ pointer) {e : Place × Bool} (he : e ∈ B.places)
    (hexclusive : isMutable = true ∨ e.2 = true) (hoverlap : borrowPlacesOverlap place e.1 = true) :
    e.2 = true ∧ isReborrowAncestor σ parent q = true := by
  rw [borrowPlacesOverlap_comm] at hoverlap
  have howner := owner_eq_of_overlap hoverlap
  have hcovers := ((hσ.same q hne).covers _).2 (h.covers q B hq e he)
  have hplace := overlaps_of_covers hcovers hoverlap
  have hwhole : borrowerPlaceOverlaps σ q (.whole place.owner) (.whole place.owner) = true :=
    overlaps_of_covers hcovers (overlap_whole howner)
  cases hflag : e.2 with
  | false =>
    have hmutable : isMutable = true := by simpa [hflag] using hexclusive
    have hshared := (hσ.shared _ hne).2 (h.shared q B hq e he hflag)
    rcases registerOwnerBorrow_eq_some hreg with ⟨-, hconflict, -⟩ | ⟨hshared', -, -⟩
    · unfold mutableConflict at hconflict
      rw [Bool.or_eq_false_iff, any_eq_false] at hconflict
      exact absurd (by simp [howner, hplace]) (hconflict.1 _ hshared)
    · rw [hmutable] at hshared'
      cases hshared'
  | true =>
    refine ⟨rfl, ?_⟩
    obtain ⟨k, hk⟩ := h.exclusive q B hq e he hflag
    have hmem := (hσ.exclusive _ hne).2 hk
    by_contra hancestor
    rw [Bool.not_eq_true] at hancestor
    rcases registerOwnerBorrow_eq_some hreg with ⟨-, hconflict, -⟩ | ⟨-, hconflict, -⟩
    · unfold mutableConflict at hconflict
      rw [Bool.or_eq_false_iff, any_eq_false, any_eq_false] at hconflict
      exact absurd (by simp [hne, hwhole, hancestor, hplace]) (hconflict.2 _ hmem)
    · unfold sharedConflict at hconflict
      rw [Bool.or_eq_false_iff, any_eq_false] at hconflict
      exact absurd (by simp [hancestor, hplace]) (hconflict.1 _ hmem)

theorem borrowKey_apart (h : Records σ L clock)
    (hreg : registerOwnerBorrow orders env σ pointer true parent (.whole place.owner) place enforce = some σ')
    : KeyApart σ pointer (borrowKey σ pointer (.whole place.owner) place parent) := by
  intro k q hk hne hcovered
  unfold borrowKey at hcovered
  split_ifs at hcovered with hroot
  · have hwhole := (overlaps_of_keyCovered h hcovered).1
    unfold hasRootMutableBorrow at hroot
    rw [any_eq_false] at hroot
    exact absurd (by simpa [hne] using hwhole) (hroot _ hk)
  · cases parent with
    | some parent => exact hne hcovered.symm
    | none =>
      obtain ⟨hwhole, hplace⟩ := overlaps_of_keyCovered h hcovered
      rcases registerOwnerBorrow_eq_some hreg with ⟨-, hconflict, -⟩ | ⟨hfalse, -, -⟩
      · unfold mutableConflict at hconflict
        rw [Bool.or_eq_false_iff, any_eq_false, any_eq_false] at hconflict
        refine absurd ?_ (hconflict.2 _ hk)
        have hoverlap : borrowerPlaceOverlaps σ q (.whole place.owner) place = true := by
          by_cases hpath : place.path = []
          · exact (congrArg (borrowerPlaceOverlaps σ q _) (eq_whole hpath)).trans hwhole
          · exact hplace hpath
        simp [hne, hwhole, hoverlap, isReborrowAncestor]
      · cases hfalse

end Owners

section Addresses

variable {orders : Orders} {env : Surroundings} {σ σ' : BorrowState}

structure Fresh (σ : BorrowState) (pointer : Name) : Prop where
  target : find σ.pointerBorrowTarget pointer = none
  place : find σ.pointerBorrowPlace pointer = none
  parent : find σ.pointerBorrowParent pointer = none
  shared : ∀ owner, (owner, pointer) ∉ σ.activeBorrowers
  exclusive : ∀ k, (k, pointer) ∉ σ.activeMutBorrower

theorem registerOwnerBorrow_tables
    (hreg : registerOwnerBorrow orders env σ pointer isMutable parent owner place enforce = some σ') :
    σ'.pointerBorrowTarget = insert orders.names σ.pointerBorrowTarget pointer owner ∧
      σ'.pointerBorrowPlace = insert orders.names σ.pointerBorrowPlace pointer place ∧
        σ'.pointerBorrowParent = σ.pointerBorrowParent ∧
          σ'.aggregateBorrowPlaces = σ.aggregateBorrowPlaces := by
  rcases registerOwnerBorrow_eq_some hreg with ⟨-, -, rfl⟩ | ⟨-, -, rfl⟩ <;>
    exact ⟨rfl, rfl, rfl, rfl⟩

theorem onlyPointer_registerOwnerBorrow (h : Records σ L clock)
    (hreg : registerOwnerBorrow orders env σ pointer isMutable parent (.whole place.owner) place
      enforce = some σ') : OnlyPointer σ σ' pointer := by
  rcases registerOwnerBorrow_eq_some hreg with ⟨rfl, -, rfl⟩ | ⟨-, -, rfl⟩
  · exact onlyPointer_recordPlace.trans
      (onlyPointer_insertKey h onlyPointer_recordPlace (borrowKey_apart h hreg))
  · exact onlyPointer_recordPlace.trans onlyPointer_addBorrower

theorem keyPlaced_borrowKey (htarget : find σ'.pointerBorrowTarget pointer = some (.whole place.owner))
    (hplace : find σ'.pointerBorrowPlace pointer = some place) :
    KeyPlaced σ' (borrowKey σ pointer (.whole place.owner) place parent) pointer := by
  unfold borrowKey
  split_ifs
  · exact .inr ⟨htarget, .inl rfl⟩
  · cases parent with
    | none => exact .inr ⟨htarget, .inr hplace⟩
    | some parent => rfl

theorem registering_address (h : Records σ L clock) (hfresh : Fresh σ pointer) (hnone : L pointer = none)
    (hreg : registerOwnerBorrow orders env σ pointer isMutable parent (.whole place.owner) place enforce =
      some σ')
    (hnonempty : places ≠ []) (hplaces : ∀ e ∈ places, e = (place, isMutable)) (howner : L place.owner = none)
    (hne : place.owner ≠ pointer)
    (hancestors : ∀ q B, L q = some B → isReborrowAncestor σ parent q = true → ∀ e ∈ B.places, e.2 = true →
      borrowPlacesOverlap place e.1 = true → B.id ∈ ancestors)
    (hlinked : (∀ q, find σ.pointerBorrowParent q ≠ some pointer) ∨ ancestors = []) :
    Registering L σ σ' pointer places ancestors := by
  obtain ⟨htargets, hplaces', hparents, haggregate⟩ := registerOwnerBorrow_tables hreg
  have htarget : find σ'.pointerBorrowTarget pointer = some (.whole place.owner) := by
    simp [htargets]
  have hplace : find σ'.pointerBorrowPlace pointer = some place := by simp [hplaces']
  have hkeys : ∀ k, (k, pointer) ∈ σ'.activeMutBorrower → isMutable = true ∧
      k = borrowKey σ pointer (.whole place.owner) place parent := by
    intro k hk
    rcases registerOwnerBorrow_eq_some hreg with ⟨hmutable, -, rfl⟩ | ⟨-, -, rfl⟩
    · rcases (mem_insert _ _ _ _ _).1 hk with hk | ⟨hk, -⟩
      · exact ⟨hmutable, (Prod.mk.inj hk).1⟩
      · exact absurd hk (hfresh.exclusive k)
    · exact absurd hk (hfresh.exclusive k)
  refine
    { only := onlyPointer_registerOwnerBorrow h hreg
      target := ⟨_, htarget⟩
      targetOwn := fun e he hname => ?_
      placeTarget := fun pl hpl => ?_
      held := fun owner howner => ?_
      nonempty := hnonempty
      placed := fun e he => .inr ?_
      single := fun pl hpl => ?_
      shared := fun e he hshared => ?_
      exclusive := fun e he hexclusive => ?_
      keysNodup := ?_
      keysPlaced := fun k hk => ?_
      keysApart := fun k hk => ?_
      aggregateOwner := fun e he _ => ?_
      related := fun q B hq e he e' he' hexclusive hoverlap => ?_
      linked := ?_ }
  · rw [htargets, mem_insert] at he
    rcases he with rfl | ⟨-, hother⟩
    · exact ⟨place.owner, rfl, hne, howner⟩
    · exact absurd hname hother
  · rw [hplace] at hpl
    rw [htarget, Option.some.inj hpl]
  · rw [htarget] at howner
    obtain rfl := Option.some.inj howner
    rcases registerOwnerBorrow_eq_some hreg with ⟨-, -, rfl⟩ | ⟨-, -, rfl⟩
    · exact .inl ⟨_, (mem_insert _ _ _ _ _).2 (.inl rfl)⟩
    · exact .inr ((mem_addBorrower _ _ _ _).2 (.inl rfl))
  · rw [hplaces e he, hplace]
  · obtain ⟨e, he⟩ := exists_mem_of_ne_nil places hnonempty
    rw [hplace, ← hpl e he, hplaces e he]
  · rw [hplaces e he] at hshared ⊢
    rcases registerOwnerBorrow_eq_some hreg with ⟨hmutable, -, -⟩ | ⟨-, -, rfl⟩
    · exact absurd (hmutable.symm.trans hshared) (by decide)
    · exact (mem_addBorrower _ _ _ _).2 (.inl rfl)
  · rw [hplaces e he] at hexclusive
    rcases registerOwnerBorrow_eq_some hreg with ⟨-, -, rfl⟩ | ⟨hshared, -, -⟩
    · exact ⟨_, (mem_insert _ _ _ _ _).2 (.inl rfl)⟩
    · exact absurd (hshared.symm.trans hexclusive) (by decide)
  · rcases registerOwnerBorrow_eq_some hreg with ⟨-, -, rfl⟩ | ⟨-, -, rfl⟩
    · exact nodup_insert _ h.keysNodup _ _
    · exact h.keysNodup
  · rw [(hkeys k hk).2]
    exact keyPlaced_borrowKey htarget hplace
  · obtain ⟨rfl, rfl⟩ := hkeys k hk
    exact borrowKey_apart h hreg
  · rw [haggregate] at he
    exact h.aggregateOwner e he
  · have hqp : q ≠ pointer := by
      rintro rfl
      rw [hnone] at hq
      cases hq
    rw [hplaces e he] at hexclusive hoverlap
    obtain ⟨hflag, hancestor⟩ :=
      exempt_of_overlap h OnlyPointer.refl hreg hq hqp he' hexclusive hoverlap
    exact hancestors q B hq hancestor e' he' hflag hoverlap
  · rw [hparents]
    exact hlinked.imp id fun hnil => ⟨hnil, hfresh.parent⟩

end Addresses

end Mlang.BorrowRegistration
