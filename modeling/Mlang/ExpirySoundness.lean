import Mlang.IdentUses
import Mlang.PointerBorrows

namespace Mlang.BorrowExpiry

open Mangling (Name)
open OrderedTables PointerBorrows AstAnalysis

def clearTargets : Nat → Table Name Place → Name → Table Name Place
  | 0, targets, _ => targets
  | rounds + 1, targets, pointer =>
    if targets.any fun borrow => borrow.1 != pointer && borrow.2 == Place.whole pointer then targets
    else
      let released := erase targets pointer
      match find targets pointer with
      | none => released
      | some owner =>
        if owner.path = [] ∧ owner.owner ≠ pointer ∧
            (find released owner.owner).isSome = true ∧
            (released.any fun borrow => borrow.1 != owner.owner && borrow.2 == owner) = false then
          clearTargets rounds released owner.owner
        else released

theorem clearRounds_targets (orders : Orders) (rounds : Nat) (σ : BorrowState) (pointer : Name) :
    (clearRounds orders rounds σ pointer).pointerBorrowTarget =
      clearTargets rounds σ.pointerBorrowTarget pointer := by
  induction rounds generalizing σ pointer with
  | zero => rfl
  | succ rounds ih =>
    unfold clearRounds clearTargets
    split_ifs
    · rfl
    · dsimp only
      cases find σ.pointerBorrowTarget pointer with
      | none => rfl
      | some owner =>
        dsimp only
        have hreleased : (releaseBorrow orders σ pointer).pointerBorrowTarget =
            erase σ.pointerBorrowTarget pointer := rfl
        rw [hreleased]
        split_ifs
        · rw [ih, hreleased]
        · rfl

theorem clearPointerBorrow_targets (orders : Orders) (σ : BorrowState) (pointer : Name) :
    (clearPointerBorrow orders σ pointer).pointerBorrowTarget =
      clearTargets (σ.pointerBorrowTarget.length + 1) σ.pointerBorrowTarget pointer :=
  clearRounds_targets orders _ σ pointer

theorem nodup_clearTargets (rounds : Nat) {targets : Table Name Place}
    (h : (targets.map Prod.fst).Nodup) (pointer : Name) :
    ((clearTargets rounds targets pointer).map Prod.fst).Nodup := by
  induction rounds generalizing targets pointer with
  | zero => exact h
  | succ rounds ih =>
    unfold clearTargets
    split_ifs
    · exact h
    · dsimp only
      split
      · exact nodup_erase h pointer
      · split_ifs
        · exact ih (nodup_erase h pointer) _
        · exact nodup_erase h pointer

structure ExpiryState extends BorrowState where
  aggregateBorrowOrigins : Table Name (List Place)
  aggregateBorrowFieldPlaces : List (Name × Name × Place × Place)
  runtimeClosureBorrowOwners : Table Name (List Name)
  variableScopeDepth : Table Name Int
  targetsNodup : (pointerBorrowTarget.map Prod.fst).Nodup

variable (orders : Orders) (s : ExpiryState)

def ExpiryState.clearPointer (pointer : Name) : ExpiryState :=
  { s with
    toBorrowState := clearPointerBorrow orders s.toBorrowState pointer
    targetsNodup := by
      rw [clearPointerBorrow_targets]
      exact nodup_clearTargets _ s.targetsNodup pointer }

def clearAggregateBorrowOrigins (variableName : Name) : ExpiryState :=
  let s := { s with
    aggregateBorrowPlaces := s.aggregateBorrowPlaces.filter fun e => decide (e.1 ≠ variableName)
    aggregateBorrowFieldPlaces :=
      s.aggregateBorrowFieldPlaces.filter fun e => decide (e.1 ≠ variableName) }
  let s := if isMutBorrower s.toBorrowState variableName then s.clearPointer orders variableName else s
  let owners := (find s.aggregateBorrowOrigins variableName).getD []
  { s with
    activeBorrowers :=
      s.activeBorrowers.filter fun b => decide (¬(b.2 = variableName ∧ b.1 ∈ owners))
    aggregateBorrowOrigins := erase s.aggregateBorrowOrigins variableName
    pointerBorrowPlace := erase s.pointerBorrowPlace variableName }

def releaseRuntimeClosureBorrows (closureName : Name) : ExpiryState :=
  let owners := (find s.runtimeClosureBorrowOwners closureName).getD []
  { s with
    activeBorrowers := s.activeBorrowers.filter fun b =>
      decide (¬(b.2 = closureName ∧ b.1 ∈ owners.map Place.whole)) }

variable (futureIdents : List Name)

def capturedPointersInLiveClosures : List Name :=
  (s.runtimeClosureBorrowOwners.filter fun closure => decide (closure.1 ∈ futureIdents)).flatMap
    fun closure => closure.2.filter fun capture =>
      (find s.pointerBorrowTarget capture).isSome || (find s.aggregateBorrowOrigins capture).isSome

variable (scopeDepth : Int)

def isLocal (name : Name) : Bool := find s.variableScopeDepth name == some scopeDepth

/-- A local of the scope that is not mentioned later, and not captured by a closure that is. -/
def isUnused (name : Name) : Bool :=
  isLocal s scopeDepth name && !futureIdents.contains name &&
    !(capturedPointersInLiveClosures s futureIdents).contains name

def pointersToClear : List Name :=
  (s.pointerBorrowTarget.map Prod.fst).filter (isUnused s futureIdents scopeDepth)

def aggregatesToClear (cleared : ExpiryState) : List Name :=
  (cleared.aggregateBorrowOrigins.map Prod.fst).filter (isUnused s futureIdents scopeDepth)

def closuresToRelease : List Name :=
  (s.runtimeClosureBorrowOwners.map Prod.fst).filter fun closure =>
    isLocal s scopeDepth closure && !futureIdents.contains closure

variable (statements : List Node) (statementIndex : Nat)

def laterStatements : List Node := statements.drop (statementIndex + 1)

def expireUnusedLocalBorrows : ExpiryState :=
  let futureIdents := collectAll (laterStatements statements statementIndex)
  let cleared := (pointersToClear s futureIdents scopeDepth).foldl (ExpiryState.clearPointer orders) s
  let cleared := (aggregatesToClear s futureIdents scopeDepth cleared).foldl
    (clearAggregateBorrowOrigins orders) cleared
  (closuresToRelease s futureIdents scopeDepth).foldl releaseRuntimeClosureBorrows cleared

end Mlang.BorrowExpiry

namespace Mlang.ExpirySoundness

open Mangling (Name)
open OrderedTables PointerBorrows AstAnalysis ControlFlows IdentUses BorrowExpiry List Option

variable {v : Name} {targets : Table Name Place}

section Ending

variable (s : ExpiryState) (futureIdents : List Name) (scopeDepth : Int)

/-- The pointers that may be cleared. -/
inductive Ends : Name → Prop
  | unused (v : Name) : isUnused s futureIdents scopeDepth v = true →
      (∀ slot, slot ≠ v → find s.pointerBorrowTarget slot = some (Place.whole v) → Ends slot) → Ends v
  | released (v slot : Name) : slot ≠ v → find s.pointerBorrowTarget slot = some (Place.whole v) →
      (∀ slot, slot ≠ v → find s.pointerBorrowTarget slot = some (Place.whole v) → Ends slot) → Ends v

structure Cleared (targets : Table Name Place) : Prop where
  kept : ∀ v p, find targets v = some p → find s.pointerBorrowTarget v = some p
  ended : ∀ v, (find s.pointerBorrowTarget v).isSome = true → find targets v = none →
    Ends s futureIdents scopeDepth v

variable {s futureIdents scopeDepth}

theorem Ends.slots (h : Ends s futureIdents scopeDepth v) : ∀ slot, slot ≠ v →
    find s.pointerBorrowTarget slot = some (Place.whole v) → Ends s futureIdents scopeDepth slot := by
  cases h with
  | unused _ _ hslots => exact hslots
  | released _ _ _ _ hslots => exact hslots

/-- Why a pointer may be cleared. -/
def Eligible (s : ExpiryState) (futureIdents : List Name) (scopeDepth : Int) (v : Name) : Prop :=
  isUnused s futureIdents scopeDepth v = true ∨
    ∃ slot, slot ≠ v ∧ find s.pointerBorrowTarget slot = some (Place.whole v)

theorem Cleared.ends (h : Cleared s futureIdents scopeDepth targets)
    (hv : Eligible s futureIdents scopeDepth v)
    (hfree : ¬ (targets.any fun borrow => borrow.1 != v && borrow.2 == Place.whole v) = true) :
    Ends s futureIdents scopeDepth v := by
  have hslots : ∀ slot, slot ≠ v → find s.pointerBorrowTarget slot = some (Place.whole v) →
      Ends s futureIdents scopeDepth slot := by
    intro slot hne hslot
    apply h.ended slot (isSome_of_mem hslot)
    cases hfind : find targets slot with
    | none => rfl
    | some p =>
      obtain rfl : p = Place.whole v := some.inj ((h.kept slot p hfind).symm.trans hslot)
      refine absurd (any_eq_true.2 ⟨(slot, Place.whole v), mem_of_find hfind, ?_⟩) hfree
      simp [hne]
  rcases hv with hunused | ⟨slot, hne, hslot⟩
  · exact .unused v hunused hslots
  · exact .released v slot hne hslot hslots

theorem Cleared.erase (h : Cleared s futureIdents scopeDepth targets)
    (hv : Ends s futureIdents scopeDepth v) :
    Cleared s futureIdents scopeDepth (OrderedTables.erase targets v) where
  kept u p hp := by
    rw [find_erase] at hp
    split_ifs at hp
    exact h.kept u p hp
  ended u hu hnone := by
    rw [find_erase] at hnone
    split_ifs at hnone with huv
    · exact huv ▸ hv
    · exact h.ended u hu hnone

theorem Cleared.clearTargets (rounds : Nat) (h : Cleared s futureIdents scopeDepth targets)
    (hv : Eligible s futureIdents scopeDepth v) :
    Cleared s futureIdents scopeDepth (clearTargets rounds targets v) := by
  induction rounds generalizing targets v with
  | zero => exact h
  | succ rounds ih =>
    rw [BorrowExpiry.clearTargets]
    split_ifs with hborrowed
    · exact h
    · have hreleased := h.erase (h.ends hv hborrowed)
      dsimp only
      cases howner : find targets v with
      | none => exact hreleased
      | some owner =>
        dsimp only
        split_ifs with hchain
        · obtain ⟨hpath, hne, -, -⟩ := hchain
          apply ih hreleased
          have hwhole : owner = Place.whole owner.owner := by
            rw [Place.whole, ← hpath]
          exact .inr ⟨v, Ne.symm hne, hwhole ▸ h.kept v owner howner⟩
        · exact hreleased

end Ending

variable {pointer : Name} {orders : Orders} {σ : BorrowState} {b : Place × Name}

theorem find_clearTargets_none (rounds : Nat) (h : find targets v = none) :
    find (clearTargets rounds targets pointer) v = none := by
  induction rounds generalizing targets pointer with
  | zero => exact h
  | succ rounds ih =>
    have herased : find (OrderedTables.erase targets pointer) v = none := by
      rw [find_erase, h, ite_self]
    rw [clearTargets]
    split_ifs
    · exact h
    · dsimp only
      cases find targets pointer with
      | none => exact herased
      | some owner =>
        dsimp only
        split_ifs
        · exact ih herased
        · exact herased

theorem clearRounds_borrowers (rounds : Nat) (hb : b ∈ σ.activeBorrowers)
    (hdropped : b ∉ (clearRounds orders rounds σ pointer).activeBorrowers) :
    find (clearRounds orders rounds σ pointer).pointerBorrowTarget b.2 = none ∧
    (b.2 = pointer ∨ (find σ.pointerBorrowTarget b.2).isSome = true) := by
  induction rounds generalizing σ pointer with
  | zero => exact absurd hb hdropped
  | succ rounds ih =>
    have hreleased : b ∈ (releaseBorrow orders σ pointer).activeBorrowers ↔ b.2 ≠ pointer := by
      simp [releaseBorrow, hb]
    have herased : b.2 = pointer →
        find (releaseBorrow orders σ pointer).pointerBorrowTarget b.2 = none := by
      intro heq
      rw [releaseBorrow, find_erase, if_pos heq]
    rw [clearRounds] at hdropped ⊢
    split_ifs at hdropped ⊢ with hborrowed
    · exact absurd hb hdropped
    · dsimp only at hdropped ⊢
      cases howner : find σ.pointerBorrowTarget pointer with
      | none =>
        simp only [howner] at hdropped ⊢
        have heq := not_not.1 (mt hreleased.2 hdropped)
        exact ⟨herased heq, .inl heq⟩
      | some owner =>
        simp only [howner] at hdropped ⊢
        split_ifs at hdropped ⊢ with hchain
        · by_cases heq : b.2 = pointer
          · refine ⟨?_, .inl heq⟩
            rw [clearRounds_targets]
            exact find_clearTargets_none rounds (herased heq)
          · obtain ⟨hnone, hkept⟩ := ih (hreleased.2 heq) hdropped
            refine ⟨hnone, .inr ?_⟩
            rcases hkept with heq' | hsome
            · rw [releaseBorrow, find_erase, ← heq', if_neg heq] at hchain
              exact hchain.2.2.1
            · rwa [releaseBorrow, find_erase, if_neg heq] at hsome
        · have heq := not_not.1 (mt hreleased.2 hdropped)
          exact ⟨herased heq, .inl heq⟩

section Expiring

variable (s : ExpiryState) (futureIdents : List Name) (scopeDepth : Int)

inductive Expired (v : Name) : Prop
  | pointer : (find s.pointerBorrowTarget v).isSome = true → Ends s futureIdents scopeDepth v → Expired v
  | aggregate : (find s.aggregateBorrowOrigins v).isSome = true →
      isUnused s futureIdents scopeDepth v = true → Expired v
  | closure : v ∈ closuresToRelease s futureIdents scopeDepth → Expired v

structure Kept (cleared : ExpiryState) : Prop where
  targets : Cleared s futureIdents scopeDepth cleared.pointerBorrowTarget
  origins : ∀ v, (find cleared.aggregateBorrowOrigins v).isSome = true →
    (find s.aggregateBorrowOrigins v).isSome = true
  aggregates : ∀ v, (find s.aggregateBorrowOrigins v).isSome = true →
    find cleared.aggregateBorrowOrigins v = none → isUnused s futureIdents scopeDepth v = true
  borrowers : ∀ b ∈ s.activeBorrowers, b ∉ cleared.activeBorrowers →
    Expired s futureIdents scopeDepth b.2

variable {s futureIdents scopeDepth} {cleared : ExpiryState}

theorem kept_self : Kept s futureIdents scopeDepth s where
  targets := ⟨fun _ _ hp => hp, fun _ hsome hnone => absurd hnone (isSome_iff_ne_none.1 hsome)⟩
  origins _ hsome := hsome
  aggregates _ hsome hnone := absurd hnone (isSome_iff_ne_none.1 hsome)
  borrowers _ hb hdropped := absurd hb hdropped

variable (h : Kept s futureIdents scopeDepth cleared)
include h

theorem Kept.clearPointer (hunused : isUnused s futureIdents scopeDepth v = true)
    (hv : (find s.pointerBorrowTarget v).isSome = true ∨
      (find s.aggregateBorrowOrigins v).isSome = true) :
    Kept s futureIdents scopeDepth (cleared.clearPointer orders v) := by
  have htargets : Cleared s futureIdents scopeDepth
      (clearPointerBorrow orders cleared.toBorrowState v).pointerBorrowTarget := by
    rw [clearPointerBorrow_targets]
    exact h.targets.clearTargets _ (.inl hunused)
  refine ⟨htargets, h.origins, h.aggregates, fun b hb hdropped => ?_⟩
  by_cases hbefore : b ∈ cleared.activeBorrowers
  · obtain ⟨hnone, hwhich⟩ := clearRounds_borrowers _ hbefore hdropped
    by_cases hsome : (find s.pointerBorrowTarget b.2).isSome = true
    · exact .pointer hsome (htargets.ended b.2 hsome hnone)
    · rcases hwhich with heq | hkept
      · rw [heq] at hsome ⊢
        exact .aggregate (hv.resolve_left hsome) hunused
      · obtain ⟨p, hp⟩ := isSome_iff_exists.1 hkept
        exact absurd (isSome_of_mem (h.targets.kept b.2 p hp)) hsome
  · exact h.borrowers b hb hbefore

theorem Kept.dropOrigins (hv : Expired s futureIdents scopeDepth v) (hunused : isUnused s futureIdents scopeDepth v = true)
    (owners : List Place) :
    Kept s futureIdents scopeDepth { cleared with
      activeBorrowers :=
        cleared.activeBorrowers.filter fun b => decide (¬(b.2 = v ∧ b.1 ∈ owners))
      aggregateBorrowOrigins := erase cleared.aggregateBorrowOrigins v
      pointerBorrowPlace := erase cleared.pointerBorrowPlace v } where
  targets := h.targets
  origins u hu := by
    rw [find_erase] at hu
    split_ifs at hu
    · cases hu
    · exact h.origins u hu
  aggregates u hu hnone := by
    rw [find_erase] at hnone
    split_ifs at hnone with heq
    · exact heq ▸ hunused
    · exact h.aggregates u hu hnone
  borrowers b hb hdropped := by
    by_cases hbefore : b ∈ cleared.activeBorrowers
    · have hown : b.2 = v ∧ b.1 ∈ owners := by simpa [hbefore] using hdropped
      exact hown.1 ▸ hv
    · exact h.borrowers b hb hbefore

theorem Kept.clearAggregate (hunused : isUnused s futureIdents scopeDepth v = true)
    (hv : (find s.aggregateBorrowOrigins v).isSome = true) :
    Kept s futureIdents scopeDepth (clearAggregateBorrowOrigins orders cleared v) := by
  apply Kept.dropOrigins _ (.aggregate hv hunused) hunused
  have hplaces : Kept s futureIdents scopeDepth { cleared with
      aggregateBorrowPlaces := cleared.aggregateBorrowPlaces.filter fun e => decide (e.1 ≠ v)
      aggregateBorrowFieldPlaces :=
        cleared.aggregateBorrowFieldPlaces.filter fun e => decide (e.1 ≠ v) } :=
    ⟨h.targets, h.origins, h.aggregates, h.borrowers⟩
  split_ifs
  · exact hplaces.clearPointer hunused (.inr hv)
  · exact hplaces

theorem Kept.releaseClosure (hv : v ∈ closuresToRelease s futureIdents scopeDepth) :
    Kept s futureIdents scopeDepth (releaseRuntimeClosureBorrows cleared v) where
  targets := h.targets
  origins := h.origins
  aggregates := h.aggregates
  borrowers b hb hdropped := by
    by_cases hbefore : b ∈ cleared.activeBorrowers
    · rw [releaseRuntimeClosureBorrows, mem_filter, decide_eq_true_iff] at hdropped
      have hown := not_not.1 fun hother => hdropped ⟨hbefore, hother⟩
      exact hown.1 ▸ .closure hv
    · exact h.borrowers b hb hbefore

omit h

theorem kept_foldl {f : ExpiryState → Name → ExpiryState} {names : List Name}
    (hstep : ∀ cleared, ∀ v ∈ names, Kept s futureIdents scopeDepth cleared →
      Kept s futureIdents scopeDepth (f cleared v)) (h : Kept s futureIdents scopeDepth cleared) :
    Kept s futureIdents scopeDepth (names.foldl f cleared) := by
  induction names generalizing cleared with
  | nil => exact h
  | cons v names ih =>
    rw [foldl_cons]
    apply ih
    · exact fun cleared u hu => hstep cleared u (mem_cons_of_mem v hu)
    · exact hstep cleared v mem_cons_self h

theorem isSome_find_of_mem {ν : Type} {t : Table Name ν} (h : v ∈ t.map Prod.fst) :
    (find t v).isSome = true := by
  by_contra hnone
  obtain ⟨e, he, hkey⟩ := mem_map.1 h
  exact find_eq_none.1 (not_isSome_iff_eq_none.1 hnone) e he hkey

theorem kept_expireUnusedLocalBorrows (orders : Orders) (s : ExpiryState) (scopeDepth : Int)
    (statements : List Node) (statementIndex : Nat) :
    Kept s (collectAll (laterStatements statements statementIndex)) scopeDepth
      (expireUnusedLocalBorrows orders s scopeDepth statements statementIndex) := by
  apply kept_foldl
  · exact fun cleared v hv h => h.releaseClosure hv
  have hpointers : Kept s (collectAll (laterStatements statements statementIndex)) scopeDepth
      ((pointersToClear s (collectAll (laterStatements statements statementIndex)) scopeDepth).foldl
        (ExpiryState.clearPointer orders) s) := by
    apply kept_foldl
    · intro cleared v hv h
      obtain ⟨hkey, hunused⟩ := mem_filter.1 hv
      exact h.clearPointer hunused (.inl (isSome_find_of_mem hkey))
    · exact kept_self
  apply kept_foldl
  · intro cleared v hv h
    obtain ⟨hkey, hunused⟩ := mem_filter.1 hv
    exact h.clearAggregate hunused (hpointers.origins v (isSome_find_of_mem hkey))
  · exact hpointers

end Expiring

variable {holder : Name}

section Executions

variable (s : ExpiryState) (futureIdents : List Name) (scopeDepth : Int)

/-- Why a variable is used where another one is mentioned, as far as the tables tell. -/
inductive Recorded (holder : Name) : Name → Prop
  | self : Recorded holder holder
  | captured (v : Name) (captures : List Name) :
      (holder, captures) ∈ s.runtimeClosureBorrowOwners → v ∈ captures →
      ((find s.pointerBorrowTarget v).isSome || (find s.aggregateBorrowOrigins v).isSome) = true →
      find s.runtimeClosureBorrowOwners v = none → Recorded holder v
  | behind (slot v : Name) : Recorded holder slot →
      find s.pointerBorrowTarget slot = some (Place.whole v) →
      find s.aggregateBorrowOrigins v = none → find s.runtimeClosureBorrowOwners v = none →
      Recorded holder v

def Followed : Event → Prop
  | .use v holder origin => origin = .direct ∧ Recorded s holder v
  | .assign _ _ => True
  | .declare _ => True

/-- No pointer that is still mentioned, or captured by a closure that is, loses its target because the
last pointer to it does. -/
def Guarded : Prop :=
  ∀ v, Ends s futureIdents scopeDepth v → (find s.pointerBorrowTarget v).isSome = true →
    v ∉ futureIdents ∧ v ∉ capturedPointersInLiveClosures s futureIdents

inductive Drops (s expired : ExpiryState) (v : Name) : Prop
  | pointer : (find s.pointerBorrowTarget v).isSome = true →
      find expired.pointerBorrowTarget v = none → Drops s expired v
  | aggregate : (find s.aggregateBorrowOrigins v).isSome = true →
      find expired.aggregateBorrowOrigins v = none → Drops s expired v
  | captures (owner : Place) : (owner, v) ∈ s.activeBorrowers → (owner, v) ∉ expired.activeBorrowers →
      Drops s expired v

def Unassigned (v : Name) (t : List Event) : Prop :=
  ∀ e ∈ t, e ≠ .declare v ∧ ∀ origin, e ≠ .assign v origin

def UsedFirst (v : Name) (t : List Event) : Prop :=
  ∃ front holder origin rest, t = front ++ .use v holder origin :: rest ∧ Unassigned v front

/-- What expires is not used before it is assigned by any execution of the later statements. -/
def ExpiresSoundly (orders : Orders) (env : IdentUses.Surroundings) (statements : List Node)
    (statementIndex : Nat) : Prop :=
  ∀ v, Drops s (expireUnusedLocalBorrows orders s scopeDepth statements statementIndex) v →
    ∀ t k, Runs (flowAll env (laterStatements statements statementIndex)) t k → ¬UsedFirst v t

variable {s futureIdents scopeDepth}

theorem Kept.expired {expired : ExpiryState} (h : Kept s futureIdents scopeDepth expired)
    (hdrops : Drops s expired v) : Expired s futureIdents scopeDepth v := by
  cases hdrops with
  | pointer hsome hnone => exact .pointer hsome (h.targets.ended v hsome hnone)
  | aggregate hsome hnone => exact .aggregate hsome (h.aggregates v hsome hnone)
  | captures owner hb hdropped => exact h.borrowers (owner, v) hb hdropped

theorem mem_captured {closure : Name} {captures : List Name}
    (hclosure : (closure, captures) ∈ s.runtimeClosureBorrowOwners) (hfuture : closure ∈ futureIdents)
    (hv : v ∈ captures)
    (hborrows : ((find s.pointerBorrowTarget v).isSome ||
      (find s.aggregateBorrowOrigins v).isSome) = true) :
    v ∈ capturedPointersInLiveClosures s futureIdents :=
  mem_flatMap.2 ⟨(closure, captures),
    mem_filter.2 ⟨hclosure, decide_eq_true hfuture⟩, mem_filter.2 ⟨hv, hborrows⟩⟩

theorem notMem_of_isUnused (h : isUnused s futureIdents scopeDepth v = true) :
    v ∉ futureIdents ∧ v ∉ capturedPointersInLiveClosures s futureIdents := by
  simp only [isUnused, Bool.and_eq_true, Bool.not_eq_true', contains_eq_mem,
    decide_eq_false_iff_not] at h
  exact ⟨h.1.2, h.2⟩

theorem not_ends_of_recorded (hguarded : Guarded s futureIdents scopeDepth) (hholder : holder ∈ futureIdents)
    (h : Recorded s holder v) (hsome : (find s.pointerBorrowTarget v).isSome = true) :
    ¬Ends s futureIdents scopeDepth v := by
  induction h with
  | self => exact fun hends => (hguarded holder hends hsome).1 hholder
  | captured v captures hclosure hv hborrows =>
    exact fun hends => (hguarded v hends hsome).2 (mem_captured hclosure hholder hv hborrows)
  | behind slot v _ hslot _ _ ih =>
    intro hends
    have hslotSome := isSome_of_mem hslot
    by_cases heq : slot = v
    · exact ih hslotSome (heq ▸ hends)
    · exact ih hslotSome (hends.slots slot heq hslot)

theorem not_expired_of_recorded (hguarded : Guarded s futureIdents scopeDepth)
    (hholder : holder ∈ futureIdents) (h : Recorded s holder v) : ¬Expired s futureIdents scopeDepth v := by
  intro hexpired
  cases hexpired with
  | pointer hsome hends => exact not_ends_of_recorded hguarded hholder h hsome hends
  | aggregate hsome hunused =>
    obtain ⟨hfuture, hcaptured⟩ := notMem_of_isUnused hunused
    cases h with
    | self => exact hfuture hholder
    | captured _ captures hclosure hv hborrows =>
      exact hcaptured (mem_captured hclosure hholder hv hborrows)
    | behind slot _ _ _ hnone =>
      rw [hnone] at hsome
      cases hsome
  | closure hv =>
    obtain ⟨hkey, hunmentioned⟩ := mem_filter.1 hv
    have hsome := isSome_find_of_mem hkey
    cases h with
    | self => simp [hholder] at hunmentioned
    | captured _ _ _ _ _ hnone =>
      rw [hnone] at hsome
      cases hsome
    | behind _ _ _ _ _ hnone =>
      rw [hnone] at hsome
      cases hsome

/-- Where the borrows of a variable expire, no execution of the later statements uses it before it is
assigned again, as long as its steps are those that the walk sees. -/
theorem expireUnusedLocalBorrows_sound (orders : Orders) (env : IdentUses.Surroundings)
    (s : ExpiryState) (scopeDepth : Int) (statements : List Node) (statementIndex : Nat)
    (hguarded : Guarded s (collectAll (laterStatements statements statementIndex)) scopeDepth) (v : Name)
    (hdrops : Drops s (expireUnusedLocalBorrows orders s scopeDepth statements statementIndex) v)
    (t : List Event) (k : Exit)
    (hruns : Runs (flowAll env (laterStatements statements statementIndex)) t k)
    (hfollowed : ∀ front e rest, t = front ++ e :: rest → Unassigned v front → Followed s e) :
    ¬UsedFirst v t := by
  rintro ⟨front, holder, origin, rest, rfl, hunassigned⟩
  obtain ⟨rfl, hrecorded⟩ := hfollowed front _ rest rfl hunassigned
  have hexpired := (kept_expireUnusedLocalBorrows orders s scopeDepth statements statementIndex).expired hdrops
  have hcovered := hruns.all (covered_flowAll env _ fun x hx => hx)
    (.use v holder .direct) (mem_append_right front mem_cons_self)
  exact not_expired_of_recorded hguarded (hcovered rfl) hrecorded hexpired

theorem runs_mentions (env : IdentUses.Surroundings) (name : Name) :
    Runs (mentions env name) [Event.use name name .direct] .normal := by
  have hheld : Runs (Flow.star (.event fun e => ∃ used, env.holds name used ∧ e = Event.use used name .direct))
      [] .normal :=
    .loopExit _ [] .broke .normal (.left _ _ [] .broke (.exit .broke)) rfl
  exact .seq _ _ [Event.use name name .direct] [] .normal (.event _ _ rfl) hheld

theorem runs_derefAssignment (env : IdentUses.Surroundings) (name : Name) :
    Runs (flow env .skip (.derefAssignment (.identifier name) .literal))
      [Event.use name name .direct] .normal := by
  rw [flow, flow, flow]
  exact .seq _ _ [] [Event.use name name .direct] .normal .skip (runs_mentions env name)

theorem runs_single {env : IdentUses.Surroundings} {node : Node} {t : List Event}
    (h : Runs (flow env .skip node) t .normal) : Runs (flowAll env [node]) t .normal := by
  have hseq := Runs.seq (flow env .skip node) (flowAll env []) t [] .normal h .skip
  rwa [append_nil] at hseq

end Executions

def alwaysTrue : IdentUses.Surroundings := ⟨fun _ _ => False, fun _ => true⟩

/-- `p` borrows `a`, and `q` may hold the address of `p`. -/
def borrowing (slots : Table Name Place) (h : (((['p'], Place.whole ['a']) :: slots).map Prod.fst).Nodup) :
    ExpiryState where
  pointerBorrowTarget := (['p'], Place.whole ['a']) :: slots
  pointerBorrowPlace := (['p'], Place.whole ['a']) :: slots
  pointerBorrowParent := []
  activeBorrowers := slots.map fun slot => (slot.2, slot.1)
  activeMutBorrower := [(.place (Place.whole ['a']), ['p'])]
  aggregateBorrowPlaces := []
  aggregateBorrowOrigins := []
  aggregateBorrowFieldPlaces := []
  runtimeClosureBorrowOwners := []
  variableScopeDepth := [(['a'], 1), (['p'], 1), (['q'], 1)]
  targetsNodup := h

def direct : ExpiryState := borrowing [] (by decide)

def slotted : ExpiryState := borrowing [(['q'], Place.whole ['p'])] (by decide)

/-- `var p = &mut a;` -/
def declaresPointer : Node := .varDecl none ['p'] (some (.unaryOp (.identifier ['a'])))

/-- `var q = &p;` -/
def declaresSlot : Node := .varDecl none ['q'] (some (.unaryOp (.identifier ['p'])))

/-- `*p = 1;` -/
def writesPointer : Node := .derefAssignment (.identifier ['p']) .literal

theorem usedFirst_cons (v holder : Name) (origin : Origin) (rest : List Event) :
    UsedFirst v (.use v holder origin :: rest) :=
  ⟨[], holder, origin, rest, rfl, fun _ he => absurd he not_mem_nil⟩

theorem expireUnusedLocalBorrows_unsound :
    ¬ExpiresSoundly direct 1 textOrders alwaysTrue
        [declaresPointer, .cexprIf .literal [writesPointer] none none] 0 ∧
      ¬ExpiresSoundly slotted 1 textOrders alwaysTrue
        [declaresPointer, declaresSlot, writesPointer] 1 := by
  have hwrites := runs_derefAssignment alwaysTrue ['p']
  constructor
  · intro hsound
    have hdrops : Drops direct (expireUnusedLocalBorrows textOrders direct 1
        [declaresPointer, .cexprIf .literal [writesPointer] none none] 0) ['p'] :=
      .pointer rfl (by decide)
    refine hsound ['p'] hdrops [.use ['p'] ['p'] .compileTimeIf] .normal (runs_single ?_)
      (usedFirst_cons _ _ _ _)
    rw [flow]
    exact .renamed _ _ [Event.use ['p'] ['p'] .direct] .normal
      (.filtered _ _ _ [Event.use ['p'] ['p'] .direct] .normal (runs_single hwrites))
  · intro hsound
    have hdrops : Drops slotted (expireUnusedLocalBorrows textOrders slotted 1
        [declaresPointer, declaresSlot, writesPointer] 1) ['p'] :=
      .pointer rfl (by decide)
    exact hsound ['p'] hdrops [.use ['p'] ['p'] .direct] .normal (runs_single hwrites)
      (usedFirst_cons _ _ _ _)

/-- `p` expires where only `a` is mentioned later. -/
theorem unusedPointer_expires :
    Drops direct (expireUnusedLocalBorrows textOrders direct 1
      [declaresPointer, .expressionStatement (.identifier ['a'])] 0) ['p'] ∧
    ¬UsedFirst ['p'] [.use ['a'] ['a'] .direct] := by
  have hdrops : Drops direct (expireUnusedLocalBorrows textOrders direct 1
      [declaresPointer, .expressionStatement (.identifier ['a'])] 0) ['p'] :=
    .pointer rfl (by decide)
  refine ⟨hdrops, expireUnusedLocalBorrows_sound textOrders alwaysTrue direct 1
    [declaresPointer, .expressionStatement (.identifier ['a'])] 0 ?_ ['p'] hdrops
    [.use ['a'] ['a'] .direct] .normal (runs_single ?_) ?_⟩
  · intro v _ hsome
    refine ⟨fun hv => ?_, not_mem_nil⟩
    rw [mem_singleton.1 hv] at hsome
    exact absurd hsome (by decide)
  · rw [flow, flow]
    exact runs_mentions alwaysTrue ['a']
  · intro front e rest heq _
    have he : e ∈ [Event.use ['a'] ['a'] .direct] :=
      heq ▸ mem_append_right front mem_cons_self
    rw [mem_singleton.1 he]
    exact ⟨rfl, .self⟩

end Mlang.ExpirySoundness
