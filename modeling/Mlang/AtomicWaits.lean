import Mlang.NarrowAtomics
import Mlang.Wakeups

namespace Mlang.AtomicWaits

open NarrowAtomics (AtomicOrder)
open Transitions Wakeups List Option

section Model

/-- What the last call of a thread came to: a wait returned `0` having read a value, or a call gave `-1`. -/
inductive Result (α : Type)
  | waited (old read : α)
  | changed
  | notified
  | failed
  deriving DecidableEq

/-- Where a thread is: in `wait` before the lock, the load, the condition variable and the unlock,
and in `notify` before the lock, the signal and the unlock. -/
inductive Point (α : Type)
  | outside (result : Option (Result α))
  | locking (old : α)
  | loading (old : α)
  | parking (old : α)
  | waiting (old : α) (asleep : Bool)
  | leaving (old read : α)
  | notifying (all : Bool)
  | signalling (all : Bool)
  | unlocking
  deriving DecidableEq

/-- A thread that changed the value owes a `notify_all` until it has woken the waiters. -/
structure Thread (α : Type) where
  point : Point α
  owing : Bool
  deriving DecidableEq

structure State (α : Type) where
  value : α
  owner : Option Nat
  threads : List (Thread α)

inductive Action (α : Type)
  | wait (i : Nat) (old : α) (order : AtomicOrder)
  | store (i : Nat) (value : α) (order : AtomicOrder)
  | modify (i : Nat) (f : α → α)
  | notify (i : Nat) (all : Bool)
  | proceed (i : Nat) (woken : List Nat)
  | spurious (i : Nat)

variable {α : Type} [DecidableEq α]

def sleeping : Condition (Thread α) where
  asleep t := match t.point with
    | .waiting _ asleep => asleep
    | _ => false
  awake t := match t.point with
    | .waiting _ asleep => !asleep
    | _ => false
  wake t := match t.point with
    | .waiting old _ => { t with point := .waiting old false }
    | _ => t
  wakes t h := by
    obtain ⟨point, owing⟩ := t
    cases point with
    | waiting old asleep =>
      cases h
      exact ⟨rfl, rfl, rfl⟩
    | _ => cases h

def initial (value : α) (threads : Nat) : State α :=
  ⟨value, none, List.replicate threads ⟨.outside none, false⟩⟩

variable (i : Nat) (t : Thread α) (s : State α)

def goes (point : Point α) (owner : Option Nat) : State α :=
  { s with owner := owner, threads := s.threads.set i { t with point := point } }

def locks (point : Point α) : Option (State α) :=
  if s.owner = none then some (goes i t s point (some i)) else none

def changes (value : α) : State α :=
  { s with
    value := value
    threads := s.threads.set i ⟨.outside (some .changed), t.owing || decide (value ≠ s.value)⟩ }

def proceed (woken : List Nat) : Option (State α) :=
  match t.point with
  | .outside _ => none
  | .locking old => locks i t s (.loading old)
  | .loading old => some (goes i t s (if s.value = old then .parking old else .leaving old s.value) s.owner)
  | .parking old => some (goes i t s (.waiting old true) none)
  | .waiting old asleep => if asleep then none else locks i t s (.loading old)
  | .leaving old read => some (goes i t s (.outside (some (.waited old read))) none)
  | .notifying all => locks i t s (.signalling all)
  | .signalling all =>
    if all then some { s with threads := broadcast sleeping (s.threads.set i ⟨.unlocking, false⟩) }
    else if signals sleeping woken s.threads then
      some { s with threads := rouse sleeping woken (s.threads.set i { t with point := .unlocking }) }
    else none
  | .unlocking => some (goes i t s (.outside (some .notified)) none)

def begins (a : Action α) : Option (State α) :=
  match a with
  | .wait _ old order =>
    if order = .release ∨ order = .acqRel then some (goes i t s (.outside (some .failed)) s.owner)
    else some (goes i t s (.locking old) s.owner)
  | .store _ value order =>
    if order = .consume ∨ order = .acquire ∨ order = .acqRel then
      some (goes i t s (.outside (some .failed)) s.owner)
    else some (changes i t s value)
  | .modify _ f => some (changes i t s (f s.value))
  | .notify _ all => some (goes i t s (.notifying all) s.owner)
  | _ => none

def Action.thread : Action α → Nat
  | .wait i _ _ | .store i _ _ | .modify i _ | .notify i _ | .proceed i _ | .spurious i => i

def step (a : Action α) (s : State α) : Option (State α) := do
  let t ← s.threads[a.thread]?
  match a, t.point with
  | .proceed i woken, _ => proceed i t s woken
  | .spurious i, .waiting old true => some (goes i t s (.waiting old false) s.owner)
  | .spurious _, _ => none
  | a, .outside _ => begins a.thread t s a
  | _, _ => none

end Model

variable {α : Type}

def holds : Point α → Bool
  | .loading _ | .parking _ | .leaving _ _ | .signalling _ | .unlocking => true
  | _ => false

def expects : Point α → Option α
  | .parking old => some old
  | .waiting old true => some old
  | _ => none

def Differs : Point α → Prop
  | .leaving old read | .outside (some (.waited old read)) => read ≠ old
  | _ => True

structure Sound (s : State α) : Prop where
  held : ∀ (i : Nat) (t : Thread α), s.threads[i]? = some t → holds t.point = true → s.owner = some i
  differs : ∀ (i : Nat) (t : Thread α), s.threads[i]? = some t → Differs t.point
  owed : (∃ (i : Nat) (t : Thread α), s.threads[i]? = some t ∧ t.owing = true) ∨
    ∀ (i : Nat) (t : Thread α) (old : α),
      s.threads[i]? = some t → expects t.point = some old → old = s.value

variable {s s' : State α} {i : Nat} {t : Thread α} {point : Point α} {owner : Option Nat} {woken : List Nat}

theorem of_getElem?_set {l : List (Thread α)} {j : Nat} {u t' : Thread α} (h : (l.set i t')[j]? = some u) :
    i = j ∧ u = t' ∨ i ≠ j ∧ l[j]? = some u := by
  rw [getElem?_set] at h
  split_ifs at h with hij hlt
  · exact .inl ⟨hij, (some.inj h).symm⟩
  · exact .inr ⟨hij, h⟩

/-- One thread moves: the mutex changes hands only to it or from it. -/
theorem Sound.goes (h : Sound s) (ht : s.threads[i]? = some t)
    (hothers : ∀ j, i ≠ j → s.owner = some j → owner = some j) (hholds : holds point = true → owner = some i)
    (hdiffers : Differs point) (hexpects : ∀ old, expects point = some old → expects t.point = some old ∨ old = s.value) :
    Sound (goes i t s point owner) where
  held j u hu hpoint := by
    rcases of_getElem?_set hu with ⟨rfl, rfl⟩ | ⟨hij, hu⟩
    · exact hholds hpoint
    · exact hothers j hij (h.held j u hu hpoint)
  differs j u hu := by
    rcases of_getElem?_set hu with ⟨rfl, rfl⟩ | ⟨hij, hu⟩
    · exact hdiffers
    · exact h.differs j u hu
  owed := by
    obtain ⟨hi, -⟩ := List.getElem?_eq_some_iff.1 ht
    rcases h.owed with ⟨j, u, hu, howing⟩ | hall
    · by_cases hij : i = j
      · cases hij
        cases ht.symm.trans hu
        exact .inl ⟨i, _, getElem?_set_self hi, howing⟩
      · exact .inl ⟨j, u, (getElem?_set_ne hij).trans hu, howing⟩
    · refine .inr fun j u old hu hold => ?_
      rcases of_getElem?_set hu with ⟨rfl, rfl⟩ | ⟨hij, hu⟩
      · exact (hexpects old hold).elim (hall i t old ht) id
      · exact hall j u old hu hold

theorem Sound.locks (h : Sound s) (ht : s.threads[i]? = some t) (hs : locks i t s point = some s')
    (hexpects : expects point = none) (hdiffers : Differs point) : Sound s' := by
  unfold AtomicWaits.locks at hs
  split_ifs at hs with hfree
  cases hs
  refine h.goes ht (fun j _ hj => ?_) (fun _ => rfl) hdiffers fun old hold => ?_
  · cases hfree.symm.trans hj
  · cases hexpects.symm.trans hold

theorem Sound.changes [DecidableEq α] (h : Sound s) (ht : s.threads[i]? = some t) (value : α) :
    Sound (changes i t s value) where
  held j u hu hpoint := by
    rcases of_getElem?_set hu with ⟨rfl, rfl⟩ | ⟨hij, hu⟩
    · cases hpoint
    · exact h.held j u hu hpoint
  differs j u hu := by
    rcases of_getElem?_set hu with ⟨rfl, rfl⟩ | ⟨hij, hu⟩
    · trivial
    · exact h.differs j u hu
  owed := by
    obtain ⟨hi, -⟩ := List.getElem?_eq_some_iff.1 ht
    by_cases hsame : t.owing || decide (value ≠ s.value)
    · exact .inl ⟨i, _, getElem?_set_self hi, hsame⟩
    · simp only [Bool.or_eq_true, decide_eq_true_eq, not_or, not_not] at hsame
      rcases h.owed with ⟨j, u, hu, howing⟩ | hall
      · refine .inl ⟨j, u, (getElem?_set_ne fun hij => ?_).trans hu, howing⟩
        cases hij
        cases ht.symm.trans hu
        exact hsame.1 howing
      · refine .inr fun j u old hu hold => ?_
        rcases of_getElem?_set hu with ⟨rfl, rfl⟩ | ⟨hij, hu⟩
        · cases hold
        · exact (hall j u old hu hold).trans hsame.2.symm

/-- Threads that are woken hold nothing and expect nothing. -/
theorem Sound.wakes {threads : List (Thread α)} (h : Sound s)
    (hthreads : ∀ (j : Nat) (u : Thread α), threads[j]? = some u → ∃ t, s.threads[j]? = some t ∧
      (u = t ∨ ∃ old, t.point = .waiting old true ∧ u = { t with point := .waiting old false }))
    (howing : ∀ (j : Nat) (t : Thread α),
      s.threads[j]? = some t → ∃ u : Thread α, threads[j]? = some u ∧ u.owing = t.owing) :
    Sound { s with threads := threads } where
  held j u hu hpoint := by
    obtain ⟨t, ht, rfl | ⟨old, -, rfl⟩⟩ := hthreads j u hu
    · exact h.held j u ht hpoint
    · cases hpoint
  differs j u hu := by
    obtain ⟨t, ht, rfl | ⟨old, -, rfl⟩⟩ := hthreads j u hu
    · exact h.differs j u ht
    · trivial
  owed := by
    rcases h.owed with ⟨j, t, ht, howes⟩ | hall
    · obtain ⟨u, hu, hsame⟩ := howing j t ht
      exact .inl ⟨j, u, hu, hsame.trans howes⟩
    · refine .inr fun j u old hu hold => ?_
      obtain ⟨t, ht, rfl | ⟨waited, -, rfl⟩⟩ := hthreads j u hu
      · exact hall j u old ht hold
      · cases hold

theorem wake_cases (t : Thread α) (woken : Bool) :
    (if sleeping.asleep t && woken then sleeping.wake t else t) = t ∨
      ∃ old, t.point = .waiting old true ∧
        (if sleeping.asleep t && woken then sleeping.wake t else t) = { t with point := .waiting old false } := by
  obtain ⟨point, owing⟩ := t
  cases point with
  | waiting old asleep =>
    cases asleep with
    | true =>
      cases woken with
      | true => exact .inr ⟨old, rfl, rfl⟩
      | false => exact .inl rfl
    | false => exact .inl rfl
  | _ => exact .inl rfl

theorem Sound.rouse (h : Sound s) (woken : List Nat) :
    Sound { s with threads := Wakeups.rouse sleeping woken s.threads } := by
  refine h.wakes (fun j u hu => ?_) fun j t ht => ?_
  · obtain ⟨t, ht, rfl⟩ := map_eq_some_iff.1 (getElem?_mapIdx.symm.trans hu)
    exact ⟨t, ht, wake_cases t _⟩
  · refine ⟨_, getElem?_mapIdx.trans (congrArg _ ht), ?_⟩
    rcases wake_cases t (woken.contains j) with heq | ⟨old, -, heq⟩
    · exact congrArg Thread.owing heq
    · exact (congrArg Thread.owing heq).trans rfl

/-- Nobody is between the load and the sleep, as the thread that wakes all has the mutex. -/
theorem Sound.broadcast (h : Sound s) (ht : s.threads[i]? = some t) (hpoint : holds t.point = true) :
    Sound { s with threads := Wakeups.broadcast sleeping (s.threads.set i ⟨.unlocking, false⟩) } := by
  have howner : s.owner = some i := h.held i t ht hpoint
  have hwoken : ∀ (j : Nat) (u : Thread α), (Wakeups.broadcast sleeping (s.threads.set i ⟨.unlocking, false⟩))[j]? = some u →
      holds u.point = true ∧ i = j ∧ u = ⟨.unlocking, false⟩ ∨
        holds u.point = false ∧ expects u.point = none ∧ Differs u.point := by
    intro j u hu
    obtain ⟨t', ht', rfl⟩ := map_eq_some_iff.1 (getElem?_map.symm.trans hu)
    rcases of_getElem?_set ht' with ⟨rfl, rfl⟩ | ⟨hij, ht'⟩
    · exact .inl ⟨rfl, rfl, rfl⟩
    · have hheld := h.held j t' ht'
      have hdiffers := h.differs j t' ht'
      have hfree : holds t'.point = false := Bool.eq_false_iff.2 fun hholds =>
        hij (some.inj (howner.symm.trans (hheld hholds)))
      obtain ⟨point, owing⟩ := t'
      refine .inr ?_
      cases point with
      | waiting old asleep =>
        cases asleep with
        | true => exact ⟨rfl, rfl, trivial⟩
        | false => exact ⟨rfl, rfl, trivial⟩
      | parking old => cases hfree
      | _ => exact ⟨hfree, rfl, hdiffers⟩
  refine ⟨fun j u hu hholds => ?_, fun j u hu => ?_, .inr fun j u old hu hold => ?_⟩
  · rcases hwoken j u hu with ⟨-, rfl, -⟩ | ⟨hfree, -, -⟩
    · exact howner
    · cases hfree.symm.trans hholds
  · rcases hwoken j u hu with ⟨-, -, rfl⟩ | ⟨-, -, hdiffers⟩
    · trivial
    · exact hdiffers
  · rcases hwoken j u hu with ⟨-, -, rfl⟩ | ⟨-, hnone, -⟩
    · cases hold
    · cases hnone.symm.trans hold

/-- The thread that has the mutex gives it back, or keeps it. -/
theorem Sound.leaves (h : Sound s) (ht : s.threads[i]? = some t) (hheld : holds t.point = true)
    (hpoint : holds point = false) (hdiffers : Differs point)
    (hexpects : ∀ old, expects point = some old → expects t.point = some old) :
    Sound (AtomicWaits.goes i t s point none) := by
  refine h.goes ht (fun j hij hj => ?_) (fun hholds => ?_) hdiffers fun old hold => .inl (hexpects old hold)
  · exact absurd (some.inj ((h.held i t ht hheld).symm.trans hj)) hij
  · cases hpoint.symm.trans hholds

theorem Sound.stays (h : Sound s) (ht : s.threads[i]? = some t)
    (hholds : holds point = true → holds t.point = true) (hdiffers : Differs point)
    (hexpects : ∀ old, expects point = some old → expects t.point = some old ∨ old = s.value) :
    Sound (AtomicWaits.goes i t s point s.owner) :=
  h.goes ht (fun _ _ hj => hj) (fun hpoint => h.held i t ht (hholds hpoint)) hdiffers hexpects

theorem sound_initial (value : α) (threads : Nat) : Sound (initial value threads) := by
  have houtside : ∀ (i : Nat) (t : Thread α),
      (initial value threads).threads[i]? = some t → t = ⟨.outside none, false⟩ := by
    intro i t ht
    have hmem : t ∈ List.replicate threads _ := mem_of_getElem? ht
    exact eq_of_mem_replicate hmem
  refine ⟨fun i t ht hholds => ?_, fun i t ht => ?_, .inr fun i t old ht hold => ?_⟩
  · cases houtside i t ht
    cases hholds
  · cases houtside i t ht
    trivial
  · cases houtside i t ht
    cases hold

/-- Who has the mutex is at a point where it can go on. -/
def Guarded (s : State α) : Prop :=
  ∀ i, s.owner = some i → ∃ t : Thread α, s.threads[i]? = some t ∧ holds t.point = true

/-- A call that is neither done nor asleep. -/
def busy : Point α → Bool
  | .outside _ | .waiting _ true => false
  | _ => true

theorem busy_of_holds (h : holds point = true) : busy point = true := by
  cases point <;> first | rfl | cases h

theorem holds_wake (t : Thread α) (woken : Bool) :
    holds (if sleeping.asleep t && woken then sleeping.wake t else t).point = holds t.point := by
  rcases wake_cases t woken with heq | ⟨old, hpoint, heq⟩
  · rw [heq]
  · rw [heq, hpoint]
    rfl

theorem guarded_rouse : Guarded { s with threads := rouse sleeping woken s.threads } ↔ Guarded s := by
  refine forall₂_congr fun i _ => ?_
  show (∃ t, (rouse sleeping woken s.threads)[i]? = some t ∧ _) ↔ _
  rw [rouse, getElem?_mapIdx]
  cases s.threads[i]? with
  | none => simp
  | some t => simpa using congrArg (· = true) (holds_wake t (woken.contains i))

theorem guarded_broadcast : Guarded { s with threads := broadcast sleeping s.threads } ↔ Guarded s := by
  refine forall₂_congr fun i _ => ?_
  have h := fun t : Thread α => holds_wake t true
  simp only [Bool.and_true] at h
  show (∃ t, (broadcast sleeping s.threads)[i]? = some t ∧ _) ↔ _
  unfold broadcast
  simp [h]

variable [DecidableEq α]

theorem Sound.proceed (h : Sound s) (ht : s.threads[i]? = some t)
    (hs : proceed i t s woken = some s') : Sound s' := by
  have hdiffers := h.differs i t ht
  obtain ⟨point, owing⟩ := t
  cases point with
  | outside result => cases hs
  | locking old => exact h.locks ht hs rfl trivial
  | loading old =>
    cases hs
    by_cases hsame : s.value = old
    · rw [if_pos hsame]
      refine h.stays ht (fun _ => rfl) trivial fun old' hold => .inr ?_
      exact (some.inj hold).symm.trans hsame.symm
    · rw [if_neg hsame]
      refine h.stays ht (fun _ => rfl) hsame fun old' hold => ?_
      cases hold
  | parking old =>
    cases hs
    exact h.leaves ht rfl rfl trivial fun _ hold => hold
  | waiting old asleep =>
    cases asleep with
    | true => cases hs
    | false => exact h.locks ht hs rfl trivial
  | leaving old read =>
    cases hs
    refine h.leaves ht rfl rfl hdiffers fun _ hold => ?_
    cases hold
  | notifying all => exact h.locks ht hs rfl trivial
  | signalling all =>
    cases all with
    | true =>
      cases hs
      exact h.broadcast ht rfl
    | false =>
      obtain ⟨-, heq⟩ := ite_none_right_eq_some.1 hs
      cases heq
      have hunlocking : Sound (AtomicWaits.goes i ⟨.signalling false, owing⟩ s .unlocking s.owner) :=
        h.stays ht (fun _ => rfl) trivial fun _ hold => by cases hold
      exact hunlocking.rouse woken
  | unlocking =>
    cases hs
    refine h.leaves ht rfl rfl trivial fun _ hold => ?_
    cases hold

theorem Sound.begins {a : Action α} (h : Sound s) (ht : s.threads[i]? = some t)
    (hs : begins i t s a = some s') : Sound s' := by
  have hrests : ∀ point : Point α, holds point = false → Differs point → expects point = none →
      Sound (AtomicWaits.goes i t s point s.owner) := by
    intro point hpoint hdiffers hexpects
    refine h.stays ht (fun hholds => ?_) hdiffers fun old hold => ?_
    · cases hpoint.symm.trans hholds
    · cases hexpects.symm.trans hold
  unfold AtomicWaits.begins at hs
  cases a with
  | wait j old order =>
    dsimp only at hs
    split_ifs at hs with horder
    · cases hs
      exact hrests _ rfl trivial rfl
    · cases hs
      exact hrests _ rfl trivial rfl
  | store j value order =>
    dsimp only at hs
    split_ifs at hs with horder
    · cases hs
      exact hrests _ rfl trivial rfl
    · cases hs
      exact h.changes ht value
  | modify j f =>
    cases hs
    exact h.changes ht _
  | notify j all =>
    cases hs
    exact hrests _ rfl trivial rfl
  | proceed j woken => cases hs
  | spurious j => cases hs

theorem sound_step {a : Action α} (h : Sound s) (hs : step a s = some s') : Sound s' := by
  obtain ⟨⟨point, owing⟩, ht, hs⟩ := bind_eq_some_iff.1 hs
  cases a with
  | proceed i woken => exact h.proceed ht hs
  | spurious i =>
    cases point with
    | waiting old asleep =>
      cases asleep with
      | true =>
        cases hs
        exact h.stays ht id trivial fun _ hold => by cases hold
      | false => cases hs
    | _ => cases hs
  | _ =>
    cases point with
    | outside result => exact h.begins ht hs
    | _ => cases hs

/-- A wait that returned has read another value, and no waiter sleeps on one when nobody owes a
`notify_all`. -/
theorem wait_misses_nothing (value : α) (threads : Nat) (hs : Reachable step (initial value threads) s) :
    (∀ t ∈ s.threads, ∀ old read, t.point = .outside (some (.waited old read)) → read ≠ old) ∧
      ((∀ t ∈ s.threads, t.owing = false) →
        ∀ t ∈ s.threads, ∀ old, t.point = .waiting old true → old = s.value) := by
  have hsound : Sound s :=
    hs.invariant (sound_initial value threads) fun _ _ _ h _ hstep => sound_step h hstep
  refine ⟨fun t ht old read hpoint => ?_, fun hnone t ht old hpoint => ?_⟩
  · obtain ⟨i, hi⟩ := mem_iff_getElem?.1 ht
    have hdiffers := hsound.differs i t hi
    rw [hpoint] at hdiffers
    exact hdiffers
  · obtain ⟨i, hi⟩ := mem_iff_getElem?.1 ht
    rcases hsound.owed with ⟨j, u, hu, howing⟩ | hall
    · cases (hnone u (mem_of_getElem? hu)).symm.trans howing
    · exact hall i t old hi (congrArg expects hpoint)

def overtakenRun : List (Action UInt32) :=
  [.wait 0 7 .seqCst, .proceed 0 [], .proceed 0 [], .store 1 8 .seqCst, .notify 1 true,
    .proceed 0 [], .proceed 1 [], .proceed 1 [], .proceed 1 [], .wait 2 8 .acquire,
    .proceed 2 [], .proceed 2 [], .proceed 2 []]

/-- The value is stored when the waiter has found the old one and does not sleep yet. -/
theorem wait_misses_nothing_overtaken : ∃ s, run step overtakenRun (initial 7 3) = some s ∧
    s.threads[0]? = some ⟨.waiting 7 false, false⟩ ∧ s.threads[2]? = some ⟨.waiting 8 true, false⟩ ∧
      ∀ t ∈ s.threads, ∀ old, t.point = .waiting old true → old = 8 := by
  have hrun : (run step overtakenRun (initial 7 3)).any fun s => decide (s.value = 8 ∧
      s.threads[0]? = some ⟨.waiting 7 false, false⟩ ∧ s.threads[2]? = some ⟨.waiting 8 true, false⟩ ∧
        ∀ t ∈ s.threads, t.owing = false) := by decide
  obtain ⟨s, hs, hresult⟩ := (any_eq_true _ _).1 hrun
  obtain ⟨hvalue, hwoken, hasleep, hnone⟩ := of_decide_eq_true hresult
  refine ⟨s, hs, hwoken, hasleep, fun t ht old hpoint => ?_⟩
  exact ((wait_misses_nothing 7 3 (reachable_of_run hs)).2 hnone t ht old hpoint).trans hvalue

theorem begins_eq {a : Action α} (hs : begins i t s a = some s') :
    ∃ value t', s' = { s with value := value, threads := s.threads.set i t' } := by
  unfold begins changes goes at hs
  grind

theorem guarded_step {a : Action α} (h : Guarded s) (hs : step a s = some s') : Guarded s' := by
  obtain ⟨⟨point, owing⟩, ht, hs⟩ := bind_eq_some_iff.1 hs
  have hset : ∀ (value : α) (t' : Thread α), (holds point = true → holds t'.point = true) →
      Guarded { s with value := value, threads := s.threads.set a.thread t' } := by
    intro value t' hpoint
    unfold Guarded at h ⊢
    grind
  have hlock : ∀ next, holds next = true → locks a.thread ⟨point, owing⟩ s next = some s' → Guarded s' := by
    unfold Guarded locks goes
    grind
  have hfree : ∀ next, Guarded (goes a.thread ⟨point, owing⟩ s next none) := fun next j hj => nomatch hj
  cases a with
  | proceed i woken =>
    cases point with
    | outside result => cases hs
    | locking old => exact hlock _ rfl hs
    | loading old =>
      cases hs
      exact hset s.value _ fun _ => by dsimp only; split_ifs <;> rfl
    | waiting old asleep =>
      cases asleep with
      | true => cases hs
      | false => exact hlock _ rfl hs
    | notifying all => exact hlock _ rfl hs
    | signalling all =>
      cases all with
      | true =>
        cases hs
        exact guarded_broadcast.2 (hset s.value _ fun _ => rfl)
      | false =>
        obtain ⟨-, heq⟩ := ite_none_right_eq_some.1 hs
        cases heq
        exact guarded_rouse.2 (hset s.value _ fun _ => rfl)
    | _ =>
      cases hs
      exact hfree _
  | spurious i =>
    cases point with
    | waiting old asleep =>
      cases asleep with
      | true =>
        cases hs
        exact hset s.value _ id
      | false => cases hs
    | _ => cases hs
  | _ =>
    cases point with
    | outside result =>
      obtain ⟨value, t', rfl⟩ := begins_eq hs
      exact hset value t' fun hholds => by cases hholds
    | _ => cases hs

omit [DecidableEq α] in
theorem signals_all (threads : List (Thread α)) : signals sleeping (List.range threads.length) threads = true := by
  unfold signals
  cases hany : threads.any sleeping.asleep with
  | false => rfl
  | true =>
    obtain ⟨t, ht, hasleep⟩ := any_eq_true.1 hany
    obtain ⟨i, hi, rfl⟩ := getElem_of_mem ht
    refine any_eq_true.2 ⟨true, mem_mapIdx.2 ⟨i, hi, ?_⟩, rfl⟩
    rw [hasleep, Bool.true_and, contains_eq_mem, decide_eq_true (mem_range.2 hi)]

theorem proceed_some (hfree : s.owner = none ∨ holds t.point = true)
    (hbusy : busy t.point = true) : (proceed i t s (List.range s.threads.length)).isSome = true := by
  have hsignals := signals_all s.threads
  obtain ⟨point, owing⟩ := t
  cases point <;> grind [AtomicWaits.proceed, AtomicWaits.locks, holds, busy]

/-- One thread at most is between a lock and an unlock, and where a call is neither done nor asleep one can go on. -/
theorem wait_goesOn (value : α) (threads : Nat) (hs : Reachable step (initial value threads) s) :
    (∀ (i j : Nat) (t u : Thread α), s.threads[i]? = some t → s.threads[j]? = some u → holds t.point = true →
      holds u.point = true → i = j) ∧
    ((∃ t ∈ s.threads, busy t.point = true) →
      ∃ i woken, (step (.proceed i woken) s).isSome = true) := by
  have hsound : Sound s :=
    hs.invariant (sound_initial value threads) fun _ _ _ h _ hstep => sound_step h hstep
  have hguarded : Guarded s :=
    hs.invariant (P := Guarded) (by rintro i ⟨⟩) fun _ _ _ h _ hstep => guarded_step h hstep
  have hgoes : ∀ (i : Nat) (t : Thread α), s.threads[i]? = some t → s.owner = none ∨ holds t.point = true →
      busy t.point = true → ∃ i woken, (step (.proceed i woken) s).isSome = true := by
    intro i t ht hfree hbusy
    refine ⟨i, List.range s.threads.length, ?_⟩
    show (s.threads[i]?.bind fun t => proceed i t s _).isSome = true
    rw [ht]
    exact proceed_some hfree hbusy
  refine ⟨fun i j t u ht hu hholds hholds' => ?_, fun ⟨t, ht, hbusy⟩ => ?_⟩
  · exact some.inj ((hsound.held i t ht hholds).symm.trans (hsound.held j u hu hholds'))
  · cases howner : s.owner with
    | none =>
      obtain ⟨i, hi⟩ := mem_iff_getElem?.1 ht
      exact hgoes i t hi (.inl howner) hbusy
    | some i =>
      obtain ⟨u, hu, hholds⟩ := hguarded i howner
      exact hgoes i u hu (.inr hholds) (busy_of_holds hholds)

theorem wait_goesOn_overtaken : ∃ s, run step (overtakenRun.take 4) (initial 7 3) = some s ∧
    ∃ i woken, (step (.proceed i woken) s).isSome = true := by
  have hrun : (run step (overtakenRun.take 4) (initial 7 3)).any fun s =>
      decide (s.threads[0]? = some ⟨.parking 7, false⟩) := by decide
  obtain ⟨s, hs, hparking⟩ := (any_eq_true _ _).1 hrun
  have hmem := mem_of_getElem? (of_decide_eq_true hparking)
  exact ⟨s, hs, (wait_goesOn 7 3 (reachable_of_run hs)).2 ⟨_, hmem, rfl⟩⟩

end Mlang.AtomicWaits
