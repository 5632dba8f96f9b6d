import Mlang.BorrowAlternatives

namespace Mlang.BorrowExclusivity

open Mangling (Name)
open OrderedTables PointerBorrows BorrowRecords BorrowRegistration BorrowSources BorrowAlternatives List

inductive Event
  | bind (env : Surroundings) (pointer : Name) (binding : Binding)
  | clear (pointer : Name)

structure Run where
  state : BorrowState
  loans : Loans
  clock : Nat

def Run.initial : Run := ⟨⟨[], [], [], [], [], []⟩, fun _ => none, 0⟩

variable (orders : Orders)

def Run.loan (r : Run) (b : Binding) : Loan :=
  ⟨b.sources.flatMap (sourcePlaces r.loans), r.clock, b.sources.flatMap (sourceAncestors r.loans)⟩

def step (r : Run) : Event → Option Run
  | .bind env pointer binding =>
    (registerPointerBorrow orders env r.state pointer binding).map fun σ =>
      ⟨σ, Function.update r.loans pointer (some (r.loan binding)), r.clock + 1⟩
  | .clear pointer =>
    some ⟨clearPointerBorrow orders r.state pointer, Function.update r.loans pointer none, r.clock⟩

def run (r : Run) : List Event → Option Run
  | [] => some r
  | e :: events => (step orders r e).bind fun r' => run r' events

structure BindingSeparates (r : Run) (pointer : Name) (binding : Binding) : Prop where
  sources : ∀ s ∈ binding.sources, SourceSeparates r.state r.loans pointer s
  notBorrowed : ∀ e ∈ r.state.pointerBorrowTarget, e.1 ≠ pointer → e.2 ≠ .whole pointer
  unplaced : ∀ s, binding = .source s → SourceUnplaced r.state pointer s

def Event.Separates (r : Run) : Event → Prop
  | .bind _ pointer binding => BindingSeparates r pointer binding
  | .clear _ => True

inductive Reaches : Run → Prop
  | initial : Reaches .initial
  | step (r r' : Run) (e : Event) : Reaches r → e.Separates r → step orders r e = some r' → Reaches r'

structure Exclusive (r : Run) : Prop where
  apart : ∀ p q B B', p ≠ q → r.loans p = some B → r.loans q = some B' → ∀ e ∈ B.places,
    ∀ e' ∈ B'.places, (e.2 = true ∨ e'.2 = true) → borrowPlacesOverlap e.1 e'.1 = true →
      B'.id ∈ B.ancestors ∨ B.id ∈ B'.ancestors
  recorded : ∀ p B, r.loans p = some B → ∀ e ∈ B.places, e.2 = true →
    isMutBorrower r.state p = true
  rejected : ∀ p B, r.loans p = some B → ∀ e ∈ B.places, e.2 = true → ∀ env q isMutable name path,
    q ≠ p → borrowPlacesOverlap ⟨name, path⟩ e.1 = true →
      registerPointerBorrow orders env r.state q
        (.source (.address isMutable (.named name path))) = none

section Steps

variable {orders : Orders} {env : Surroundings} {σ τ : BorrowState} {L : Loans} {clock : Nat}
  {pointer : Name}

theorem records_initial : Records Run.initial.state Run.initial.loans Run.initial.clock where
  target _ _ h := by cases h
  live _ h := by cases h
  placeTarget _ _ h := by cases h
  nonempty _ _ h := by cases h
  covers _ _ h := by cases h
  single _ _ _ h := by cases h
  shared _ _ h := by cases h
  exclusive _ _ h := by cases h
  keysNodup := nodup_nil
  keys _ h := by cases h
  aggregate _ h := by cases h
  aggregateOwner _ h := by cases h
  apart _ _ _ _ _ h := by cases h
  parents _ h := by cases h
  links _ _ _ _ h := by cases h
  ids _ _ h := by cases h

theorem ancestors_source (h : Records σ L clock) (s : Source) : ∀ x ∈ sourceAncestors L s, x < clock := by
  intro x hx
  cases s with
  | copy q => cases hx
  | address flag operand =>
    cases operand with
    | named name path => cases hx
    | deref q path =>
      cases hB : L q with
      | none => simp [sourceAncestors, hB] at hx
      | some B =>
        obtain ⟨hid, hancestors⟩ := h.ids q B hB
        simp only [sourceAncestors, hB, mem_cons] at hx
        rcases hx with rfl | hx
        · exact hid
        · exact (hancestors x hx).trans hid

theorem mapM_eq_some {α β : Type} {f : α → Option β} {xs : List α} {ys : List β}
    (h : xs.mapM f = some ys) :
    (∀ x ∈ xs, ∃ y ∈ ys, f x = some y) ∧ ∀ y ∈ ys, ∃ x ∈ xs, f x = some y := by
  induction xs generalizing ys with
  | nil =>
    cases h
    exact ⟨fun x hx => absurd hx not_mem_nil, fun y hy => absurd hy not_mem_nil⟩
  | cons x xs ih =>
    rw [mapM_cons] at h
    obtain ⟨y, hy, h⟩ := Option.bind_eq_some_iff.1 h
    obtain ⟨ys', hys, h⟩ := Option.bind_eq_some_iff.1 h
    cases h
    obtain ⟨hleft, hright⟩ := ih hys
    refine ⟨forall_mem_cons.2 ⟨⟨y, mem_cons_self, hy⟩, fun x' hx' => ?_⟩,
      forall_mem_cons.2 ⟨⟨x, mem_cons_self, hy⟩, fun y' hy' => ?_⟩⟩
    · obtain ⟨y', hy', heq⟩ := hleft x' hx'
      exact ⟨y', mem_cons_of_mem _ hy', heq⟩
    · obtain ⟨x', hx', heq⟩ := hright y' hy'
      exact ⟨x', mem_cons_of_mem _ hx', heq⟩

variable (h : Records σ L clock)
  (hslot : ∀ e ∈ σ.pointerBorrowTarget, e.1 ≠ pointer → e.2 ≠ .whole pointer)

include h hslot

theorem registered_single {s : Source} {isMutable : Bool} (hs : SourceSeparates σ L pointer s)
    (hunplaced : SourceUnplaced σ pointer s)
    (hmutable : isMutable = sourceIsMutable σ s ∨ (isMutable = false ∧ ∃ q, s = .copy q))
    (hreg : registerSource orders env σ pointer s isMutable = some τ) :
    Records τ (Function.update L pointer (some ⟨sourcePlaces L s, clock, sourceAncestors L s⟩))
      (clock + 1) := by
  have hr := (registering_source h hslot hs hmutable hreg).2 hunplaced
  have hrecords := records_register (h.releaseBorrow orders pointer) (Function.update_self _ _ _)
    (slot_releaseBorrow hslot) hr (ancestors_source h s)
  rwa [Function.update_idem] at hrecords

theorem registered_alternatives {sources : List Source} (hsome : sources ≠ [])
    (hs : ∀ s ∈ sources, SourceSeparates σ L pointer s)
    (hreg : registerPointerBorrowAlternatives orders env σ pointer sources false = some τ) :
    Records τ (Function.update L pointer
      (some ⟨sources.flatMap (sourcePlaces L), clock, sources.flatMap (sourceAncestors L)⟩))
      (clock + 1) := by
  unfold registerPointerBorrowAlternatives at hreg
  rw [if_neg (by simpa using hsome)] at hreg
  split at hreg
  · cases hreg
  · rename_i branches hbranches
    obtain ⟨hleft, hright⟩ := mapM_eq_some hbranches
    cases hreg
    have hb : Branches orders (Function.update L pointer none) L σ pointer sources branches := by
      refine ⟨hsome, fun s hmem => ?_, fun branch hbranch => ?_⟩
      · obtain ⟨branch, hbranch, hsource⟩ := hleft s hmem
        exact ⟨branch, hbranch, (registering_source h hslot (hs s hmem) (.inl rfl) hsource).1⟩
      · obtain ⟨s, hmem, hsource⟩ := hright branch hbranch
        exact ⟨s, hmem, (registering_source h hslot (hs s hmem) (.inl rfl) hsource).1⟩
    have hearlier : ∀ x ∈ sources.flatMap (sourceAncestors L), x < clock := by
      intro x hx
      obtain ⟨s, -, hx⟩ := mem_flatMap.1 hx
      exact ancestors_source h s x hx
    have hdropped : ∀ e ∈ (dropPointer σ pointer).pointerBorrowTarget, e.2 ≠ .whole pointer := by
      intro e he
      obtain ⟨he, hne⟩ := (mem_erase _ _ e).1 he
      exact hslot e he hne
    have hrecords := records_register (h.dropPointer pointer) (Function.update_self _ _ _) hdropped
      (hb.registered h) hearlier
    rwa [Function.update_idem] at hrecords

end Steps

section Invariant

variable {orders : Orders}

theorem records_step {r r' : Run} {e : Event} (h : Records r.state r.loans r.clock)
    (he : e.Separates r) (hstep : step orders r e = some r') : Records r'.state r'.loans r'.clock := by
  cases e with
  | clear pointer =>
    cases hstep
    exact h.clear orders pointer
  | bind env pointer binding =>
    obtain ⟨τ, hreg, rfl⟩ := Option.map_eq_some_iff.1 hstep
    cases binding with
    | source s =>
      have hs := he.sources s (mem_singleton.2 rfl)
      have hloan : r.loan (.source s) =
          ⟨sourcePlaces r.loans s, r.clock, sourceAncestors r.loans s⟩ := by
        simp [Run.loan, Binding.sources]
      rw [hloan]
      cases s with
      | address isMutable operand =>
        exact registered_single h he.notBorrowed hs (he.unplaced _ rfl) (.inl rfl) hreg
      | copy q =>
        exact registered_single h he.notBorrowed hs (he.unplaced _ rfl) (.inr ⟨rfl, q, rfl⟩)
          hreg
    | alternatives first rest =>
      exact registered_alternatives h he.notBorrowed (cons_ne_nil _ _) he.sources hreg

theorem records_of_reaches {r : Run} (h : Reaches orders r) : Records r.state r.loans r.clock := by
  induction h with
  | initial => exact records_initial
  | step r r' e _ he hstep ih => exact records_step ih he hstep

theorem rejected_of_records {r : Run} (h : Records r.state r.loans r.clock) {p : Name} {B : Loan}
    (hB : r.loans p = some B) {e : Place × Bool} (he : e ∈ B.places) (hflag : e.2 = true)
    (env : Surroundings) {q : Name} (isMutable : Bool) (name : Name) (path : List Segment)
    (hq : q ≠ p) (hoverlap : borrowPlacesOverlap ⟨name, path⟩ e.1 = true) :
    registerPointerBorrow orders env r.state q (.source (.address isMutable (.named name path))) =
      none := by
  have hcleared := h.clear orders q
  have hB' : Function.update r.loans q none p = some B := by rwa [Function.update_of_ne hq.symm]
  simp only [registerPointerBorrow, registerSource, reborrowParent, Option.filter_none,
    resolveBorrowOwnerFromLValue, resolveBorrowPlaceFromLValue]
  split
  · rfl
  · rename_i τ hreg
    have hexempt := exempt_of_overlap hcleared OnlyPointer.refl hreg hB' hq.symm he (.inr hflag)
      (show borrowPlacesOverlap ⟨name, path⟩ e.1 = true from hoverlap)
    simp [isReborrowAncestor] at hexempt

/-- In every run whose steps meet the condition, live borrows are exclusive. -/
theorem exclusive_of_reaches {r : Run} (h : Reaches orders r) : Exclusive orders r := by
  have hrecords := records_of_reaches h
  refine ⟨hrecords.apart, fun p B hB e he hflag => ?_,
    fun p B hB e he hflag env q isMutable name path hq hoverlap =>
      rejected_of_records hrecords hB he hflag env isMutable name path hq hoverlap⟩
  exact isMutBorrower_iff.2 (hrecords.exclusive p B hB e he hflag)

end Invariant

def openSurroundings : Surroundings where
  movedVariables := []
  isGlobal _ := false
  scopeDepth _ := none
  isConstant _ := false
  enforceExclusive _ _ := false

def bindAddress (pointer name : Name) (isMutable : Bool) : Event :=
  .bind openSurroundings pointer (.source (.address isMutable (.named name [])))

def bindCopy (pointer copied : Name) : Event :=
  .bind openSurroundings pointer (.source (.copy copied))

theorem reborrow_exclusive : ∃ r, run textOrders .initial [bindAddress ['p'] ['a'] true,
      .bind openSurroundings ['r'] (.source (.address true (.deref ['p'] [])))] = some r ∧
    Exclusive textOrders r := by
  refine ⟨_, rfl, exclusive_of_reaches (.step _ _
    (.bind openSurroundings ['r'] (.source (.address true (.deref ['p'] []))))
    (.step _ _ (bindAddress ['p'] ['a'] true) .initial (BindingSeparates.mk ?_ ?_ ?_) rfl)
    (BindingSeparates.mk ?_ ?_ ?_) rfl)⟩
  · intro s hs
    obtain rfl := mem_singleton.1 hs
    exact ⟨by decide, rfl⟩
  · intro e he
    cases he
  · rintro s ⟨⟩ - e he
    cases he
  · intro s hs
    obtain rfl := mem_singleton.1 hs
    refine ⟨by decide, ⟨_, rfl, .whole ['a'], ?_⟩, fun e he => by cases he⟩
    intro e he
    obtain rfl := mem_singleton.1 he
    rfl
  · decide
  · rintro s ⟨⟩ - e he
    cases he

/-- A copy leaves the places that it has recorded when the pointer is bound again. -/
theorem rebound_copy_notExclusive : ∃ r, run textOrders .initial [bindAddress ['q'] ['b'] false,
      bindCopy ['p'] ['q'], bindAddress ['p'] ['a'] true, bindAddress ['r'] ['a'] true] = some r ∧
    ¬Exclusive textOrders r := by
  refine ⟨_, rfl, fun h => ?_⟩
  have hrecorded := h.recorded ['p'] _ rfl (.whole ['a'], true) (mem_singleton.2 rfl) rfl
  revert hrecorded
  decide

end Mlang.BorrowExclusivity
