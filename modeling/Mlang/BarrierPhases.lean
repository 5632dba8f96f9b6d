import Mathlib
import Mlang.Transitions
import Mlang.Wakeups

namespace Mlang.Barriers

open Transitions Wakeups

structure Barrier where
  expected : Int
  remaining : Int
  phase : Int
  deriving DecidableEq

def barrierNew (expected : Int) : Option Barrier :=
  if expected ≤ 0 then none else some { expected := expected, remaining := expected, phase := 0 }

def int64Max : Int := 2 ^ 63 - 1

def Barrier.advancePhase (b : Barrier) : Option Barrier :=
  if b.phase = int64Max then none
  else some { b with phase := b.phase + 1, remaining := b.expected }

def Barrier.arrive (b : Barrier) (update : Int) : Option (Barrier × Bool) :=
  if update ≤ 0 then none
  else if update > b.remaining then none
  else if update = b.remaining then b.advancePhase.map fun b => (b, true)
  else some ({ b with remaining := b.remaining - update }, false)

def Barrier.arriveAndDrop (b : Barrier) : Option (Barrier × Bool) :=
  if b.expected ≤ 0 ∨ b.remaining ≤ 0 then none
  else if b.remaining = 1 ∧ b.phase = int64Max then none
  else
    let dropped := { b with expected := b.expected - 1, remaining := b.remaining - 1 }
    if dropped.remaining = 0 then dropped.advancePhase.map fun b => (b, true)
    else some (dropped, false)

inductive Result
  | arrived (rc : Int)
  | waited (phase rc : Int)
  deriving DecidableEq

/-- A thread is outside of a call, about to take the mutex for the first time in `barrier_wait`, asleep
in the wait for the condition, or woken and about to take the mutex again. -/
inductive Point
  | outside (result : Option Result)
  | entering (phase : Int)
  | asleep (phase : Int)
  | woken (phase : Int)
  deriving DecidableEq

def Point.wake : Point → Point
  | .asleep phase => .woken phase
  | point => point

def advanced : Condition Point where
  asleep | .asleep _ => true | _ => false
  awake | .woken _ => true | _ => false
  wake := Point.wake
  wakes := by
    intro t ht
    cases t with
    | outside | entering | woken => cases ht
    | asleep phase => exact ⟨rfl, rfl, rfl⟩

structure Arrival where
  phase : Int
  units : Int
  drops : Bool
  deriving DecidableEq

structure State where
  barrier : Barrier
  threads : List Point
  arrivals : List Arrival := []
  deriving DecidableEq

/-- The critical sections of the calls. Those of `barrier_wait` end with a return or in the wait for
the condition; an arrival has one. -/
inductive Action
  | arrive (thread : Nat) (update : Int)
  | arriveAndDrop (thread : Nat)
  | wait (thread : Nat) (phase : Int)
  | enter (thread : Nat)
  | spurious (thread : Nat)
  deriving DecidableEq

def State.move (s : State) (thread : Nat) (point : Point) : State :=
  { s with threads := s.threads.set thread point }

def finishArrival (thread : Nat) (units : Int) (drops : Bool) (s : State) :
    Option (Barrier × Bool) → State
  | none => s.move thread (.outside (some (.arrived (-1))))
  | some (barrier, advances) =>
    let threads := s.threads.set thread (.outside (some (.arrived s.barrier.phase)))
    { barrier := barrier
      threads := if advances then broadcast advanced threads else threads
      arrivals := s.arrivals ++ [⟨s.barrier.phase, units, drops⟩] }

/-- The test of the loop in `barrier_wait`. -/
def testPhase (thread : Nat) (phase : Int) (s : State) : State :=
  if s.barrier.phase = phase then s.move thread (.asleep phase)
  else s.move thread (.outside (some (.waited phase 0)))

def step : Action → State → Option State
  | .arrive i update, s =>
    match s.threads[i]? with
    | some (.outside _) => some (finishArrival i update false s (s.barrier.arrive update))
    | _ => none
  | .arriveAndDrop i, s =>
    match s.threads[i]? with
    | some (.outside _) => some (finishArrival i 1 true s s.barrier.arriveAndDrop)
    | _ => none
  | .wait i phase, s =>
    match s.threads[i]? with
    | some (.outside _) =>
      some (if phase < 0 then s.move i (.outside (some (.waited phase (-1))))
        else s.move i (.entering phase))
    | _ => none
  | .enter i, s =>
    match s.threads[i]? with
    | some (.entering phase) =>
      some (if phase > s.barrier.phase then s.move i (.outside (some (.waited phase (-1))))
        else testPhase i phase s)
    | some (.woken phase) => some (testPhase i phase s)
    | _ => none
  | .spurious i, s =>
    match s.threads[i]? with
    | some (.asleep phase) => some (s.move i (.woken phase))
    | _ => none

def initial (barrier : Barrier) (threads : Nat) : State where
  barrier := barrier
  threads := List.replicate threads (.outside none)

end Mlang.Barriers

namespace Mlang.BarrierPhases

open Transitions Wakeups Barriers List Option

variable {phase n : Int}

def arrived (arrivals : List Arrival) (phase : Int) : Int :=
  ((arrivals.filter fun a => decide (a.phase = phase)).map Arrival.units).sum

def dropped (arrivals : List Arrival) (phase : Int) : Int :=
  (arrivals.filter fun a => a.drops && decide (a.phase < phase)).length

def expectedAt (n : Int) (arrivals : List Arrival) (phase : Int) : Int := n - dropped arrivals phase

variable {later : Int} {arrivals : List Arrival} {a : Arrival}

theorem arrived_append : arrived (arrivals ++ [a]) phase =
    arrived arrivals phase + if a.phase = phase then a.units else 0 := by
  rw [arrived, filter_append, map_append, sum_append, ← arrived]
  by_cases h : a.phase = phase
  · rw [if_pos h, filter_cons_of_pos (by simpa using h)]
    simp
  · rw [if_neg h, filter_cons_of_neg (by simpa using h)]
    simp

theorem expectedAt_append : expectedAt n (arrivals ++ [a]) phase =
    expectedAt n arrivals phase - if a.drops = true ∧ a.phase < phase then 1 else 0 := by
  rw [expectedAt, dropped, filter_append, length_append, Int.natCast_add, ← dropped, expectedAt]
  by_cases h : a.drops = true ∧ a.phase < phase
  · rw [if_pos h, filter_cons_of_pos (by simpa using h)]
    simp only [filter_nil, length_singleton, Int.natCast_one]
    omega
  · rw [if_neg h, filter_cons_of_neg (by simpa using h)]
    simp

theorem arrived_nonneg (h : ∀ a ∈ arrivals, 0 < a.units) : 0 ≤ arrived arrivals phase := by
  refine sum_nonneg fun units hunits => ?_
  obtain ⟨a, ha, rfl⟩ := mem_map.1 hunits
  exact Int.le_of_lt (h a (mem_of_mem_filter ha))

theorem arrived_later (h : ∀ a ∈ arrivals, a.phase ≤ phase) (hlater : phase < later) :
    arrived arrivals later = 0 := by
  have hnone : (arrivals.filter fun a => decide (a.phase = later)) = [] := by
    refine filter_eq_nil_iff.2 fun a ha heq => ?_
    have hle := h a ha
    rw [of_decide_eq_true heq] at hle
    omega
  rw [arrived, hnone]
  rfl

theorem expectedAt_later (h : ∀ a ∈ arrivals, a.phase ≤ phase) (hlater : phase < later) :
    expectedAt n arrivals later = expectedAt n arrivals (phase + 1) := by
  have hsame : (arrivals.filter fun a => a.drops && decide (a.phase < later)) =
      arrivals.filter fun a => a.drops && decide (a.phase < phase + 1) := by
    refine filter_congr fun a ha => ?_
    have hle := h a ha
    rw [decide_eq_true (by omega : a.phase < later), decide_eq_true (by omega : a.phase < phase + 1)]
  rw [expectedAt, dropped, hsame, expectedAt, dropped]

variable {next b : Barrier} {advances : Bool} {units : Int}

structure Arrives (b : Barrier) (units : Int) (drops : Bool) (next : Barrier) (advances : Bool) : Prop where
  positive : 0 < units
  bounded : units ≤ b.remaining
  single : drops = true → units = 1
  expected : next.expected = b.expected - if drops = true then 1 else 0
  stays : units < b.remaining →
    advances = false ∧ next.phase = b.phase ∧ next.remaining = b.remaining - units
  ends : units = b.remaining →
    advances = true ∧ next.phase = b.phase + 1 ∧ next.remaining = next.expected

theorem advancePhase_eq_some (h : b.advancePhase = some next) :
    next = { b with phase := b.phase + 1, remaining := b.expected } := by
  rw [Barrier.advancePhase] at h
  split_ifs at h
  exact (some.inj h).symm

theorem arrives_arrive (h : b.arrive units = some (next, advances)) :
    Arrives b units false next advances := by
  rw [Barrier.arrive] at h
  split_ifs at h with hpositive hbounded hlast
  · obtain ⟨advanced, hadvance, heq⟩ := map_eq_some_iff.1 h
    cases heq
    rw [advancePhase_eq_some hadvance]
    exact ⟨by omega, by omega, fun h => absurd h Bool.false_ne_true, by simp, by omega, fun _ => ⟨rfl, rfl, rfl⟩⟩
  · cases h
    exact ⟨by omega, by omega, fun h => absurd h Bool.false_ne_true, by simp, fun _ => ⟨rfl, rfl, rfl⟩, by omega⟩

theorem arrives_arriveAndDrop (h : b.arriveAndDrop = some (next, advances)) :
    Arrives b 1 true next advances := by
  rw [Barrier.arriveAndDrop] at h
  by_cases hnone : b.expected ≤ 0 ∨ b.remaining ≤ 0
  · rw [if_pos hnone] at h
    cases h
  rw [if_neg hnone] at h
  by_cases hexhausted : b.remaining = 1 ∧ b.phase = int64Max
  · rw [if_pos hexhausted] at h
    cases h
  rw [if_neg hexhausted] at h
  dsimp only at h
  by_cases hlast : b.remaining - 1 = 0
  · rw [if_pos hlast] at h
    obtain ⟨advanced, hadvance, heq⟩ := map_eq_some_iff.1 h
    cases heq
    rw [advancePhase_eq_some hadvance]
    exact ⟨by omega, by omega, fun _ => rfl, rfl, by omega, fun _ => ⟨rfl, rfl, rfl⟩⟩
  · rw [if_neg hlast] at h
    cases h
    exact ⟨by omega, by omega, fun _ => rfl, rfl, fun _ => ⟨rfl, rfl, rfl⟩, by omega⟩

variable {threads : Nat} {point : Point} {s : State}

def Placed (phase : Int) : Point → Prop
  | .asleep waited => waited = phase
  | .woken waited => waited ≤ phase
  | .outside (some (.waited waited rc)) => rc = 0 → waited < phase
  | .outside _ => True
  | .entering _ => True

/-- The counters of the barrier tell the arrivals of the phase, and the earlier phases are complete. -/
structure Phased (n : Int) (s : State) : Prop where
  bounded : s.barrier.remaining ≤ s.barrier.expected
  nonneg : 0 ≤ s.barrier.remaining
  started : 0 ≤ s.barrier.phase
  recorded : ∀ a ∈ s.arrivals, a.phase ≤ s.barrier.phase
  units : ∀ a ∈ s.arrivals, 0 < a.units
  expected : s.barrier.expected = expectedAt n s.arrivals (s.barrier.phase + 1)
  remaining : s.barrier.remaining =
    expectedAt n s.arrivals s.barrier.phase - arrived s.arrivals s.barrier.phase
  unfinished : s.barrier.remaining = 0 → expectedAt n s.arrivals s.barrier.phase = 0
  past : ∀ phase, 0 ≤ phase → phase < s.barrier.phase →
    0 < expectedAt n s.arrivals phase ∧ arrived s.arrivals phase = expectedAt n s.arrivals phase
  placed : ∀ t ∈ s.threads, Placed s.barrier.phase t

variable {s' : State} {i : Nat}

theorem Phased.move (h : Phased n s) (hpoint : Placed s.barrier.phase point) :
    Phased n (s.move i point) :=
  { h with placed := fun t ht =>
      (mem_or_eq_of_mem_set ht).elim (h.placed t) fun heq => heq ▸ hpoint }

theorem placed_broadcast {threads : List Point} (h : ∀ t ∈ threads, Placed phase t) :
    ∀ t ∈ broadcast advanced threads, Placed (phase + 1) t := by
  intro t ht
  obtain ⟨u, hu, rfl⟩ := mem_map.1 ht
  have hplaced := h u hu
  cases u with
  | asleep waited =>
    have heq : waited = phase := hplaced
    exact Int.le_add_one (Int.le_of_eq heq)
  | woken waited => exact Int.le_add_one hplaced
  | entering waited => trivial
  | outside result =>
    cases result with
    | none => trivial
    | some result =>
      cases result with
      | arrived rc => trivial
      | waited waited rc => exact fun hrc => Int.lt_add_one_of_le (Int.le_of_lt (hplaced hrc))

variable {drops : Bool} {result : Option (Barrier × Bool)}

theorem Phased.finishArrival (h : Phased n s) (harrives : Arrives s.barrier units drops next advances) :
    Phased n (finishArrival i units drops s (some (next, advances))) := by
  obtain ⟨arrivals, harrivals⟩ : ∃ arrivals, arrivals = s.arrivals ++ [⟨s.barrier.phase, units, drops⟩] :=
    ⟨_, rfl⟩
  have hthreads : ∀ t ∈ s.threads.set i (.outside (some (.arrived s.barrier.phase))),
      Placed s.barrier.phase t := fun t ht =>
    (mem_or_eq_of_mem_set ht).elim (h.placed t) fun heq => heq ▸ trivial
  have hrecorded : ∀ a ∈ arrivals, a.phase ≤ s.barrier.phase := by
    intro a ha
    rcases mem_append.1 (harrivals ▸ ha) with ha | ha
    · exact h.recorded a ha
    · rw [mem_singleton.1 ha]
  have hunits : ∀ a ∈ arrivals, 0 < a.units := by
    intro a ha
    rcases mem_append.1 (harrivals ▸ ha) with ha | ha
    · exact h.units a ha
    · rw [mem_singleton.1 ha]
      exact harrives.positive
  have hexpected : next.expected = expectedAt n arrivals (s.barrier.phase + 1) := by
    rw [harrives.expected, h.expected, harrivals, expectedAt_append]
    simp only [Int.lt_succ, and_true]
  have hsame : expectedAt n arrivals s.barrier.phase = expectedAt n s.arrivals s.barrier.phase := by
    rw [harrivals, expectedAt_append, if_neg (fun hlt => Int.lt_irrefl _ hlt.2), Int.sub_zero]
  have harrived : arrived arrivals s.barrier.phase = arrived s.arrivals s.barrier.phase + units := by
    rw [harrivals, arrived_append, if_pos rfl]
  have hpast : ∀ phase, 0 ≤ phase → phase < s.barrier.phase →
      0 < expectedAt n arrivals phase ∧ arrived arrivals phase = expectedAt n arrivals phase := by
    intro phase hstart hlt
    rw [harrivals, expectedAt_append, arrived_append,
      if_neg (fun hearlier => Int.lt_asymm hlt hearlier.2), if_neg (Int.ne_of_gt hlt), Int.sub_zero,
      Int.add_zero]
    exact h.past phase hstart hlt
  have hbounded := h.bounded
  have hpositive := harrives.positive
  have hremaining := h.remaining
  have hleaves := harrives.expected
  have hdrop : (if drops = true then (1 : Int) else 0) ≤ units := by
    split_ifs with hdrops
    · exact Int.le_of_eq (harrives.single hdrops).symm
    · exact Int.le_of_lt hpositive
  show Phased n
    { barrier := next
      threads := if advances = true then broadcast advanced _ else _
      arrivals := s.arrivals ++ [⟨s.barrier.phase, units, drops⟩] }
  rw [← harrivals]
  rcases Int.lt_or_eq_of_le harrives.bounded with hmore | hlast
  · obtain ⟨rfl, hphase, hleft⟩ := harrives.stays hmore
    refine ⟨?_, ?_, ?_, ?_, hunits, ?_, ?_, ?_, ?_, ?_⟩ <;> dsimp only
    · omega
    · omega
    · exact hphase ▸ h.started
    · rwa [hphase]
    · rwa [hphase]
    · rw [hphase, hsame, harrived]
      omega
    · omega
    · rwa [hphase]
    · rwa [hphase]
  · -- the units that arrived fill the phase, and nothing is recorded of the next one
    obtain ⟨rfl, hphase, hleft⟩ := harrives.ends hlast
    refine ⟨?_, ?_, ?_, ?_, hunits, ?_, ?_, ?_, ?_, ?_⟩ <;> dsimp only
    · omega
    · omega
    · exact hphase ▸ Int.le_add_one h.started
    · exact fun a ha => hphase ▸ Int.le_add_one (hrecorded a ha)
    · rw [hphase, expectedAt_later hrecorded (by omega : s.barrier.phase < s.barrier.phase + 1 + 1),
        hexpected]
    · rw [hphase, ← hexpected, arrived_later hrecorded (Int.lt_succ _), hleft, Int.sub_zero]
    · rw [hphase, ← hexpected, hleft]
      exact id
    · intro phase hstart hlt
      rw [hphase] at hlt
      rcases Int.lt_or_eq_of_le (Int.lt_add_one_iff.1 hlt) with hearlier | rfl
      · exact hpast phase hstart hearlier
      · have hsum : 0 ≤ arrived s.arrivals s.barrier.phase := arrived_nonneg h.units
        rw [hsame, harrived]
        exact ⟨by omega, by omega⟩
    · rw [hphase]
      exact placed_broadcast hthreads

theorem Phased.finish (h : Phased n s)
    (harrives : ∀ next advances, result = some (next, advances) → Arrives s.barrier units drops next advances)
    : Phased n (Barriers.finishArrival i units drops s result) := by
  cases result with
  | none => exact h.move trivial
  | some pair => exact h.finishArrival (harrives pair.1 pair.2 rfl)

theorem Phased.testPhase (h : Phased n s) (hle : phase ≤ s.barrier.phase) :
    Phased n (testPhase i phase s) := by
  rw [Barriers.testPhase]
  split_ifs with heq
  · exact h.move heq.symm
  · exact h.move fun _ => Int.lt_iff_le_and_ne.2 ⟨hle, Ne.symm heq⟩

theorem Phased.step {action : Action} (h : Phased n s) (hstep : step action s = some s') :
    Phased n s' := by
  cases action with
  | arrive j update =>
    dsimp only [Barriers.step] at hstep
    split at hstep
    · rw [← some.inj hstep]
      exact h.finish fun _ _ => arrives_arrive
    · cases hstep
  | arriveAndDrop j =>
    dsimp only [Barriers.step] at hstep
    split at hstep
    · rw [← some.inj hstep]
      exact h.finish fun _ _ => arrives_arriveAndDrop
    · cases hstep
  | wait j phase =>
    dsimp only [Barriers.step] at hstep
    split at hstep
    · rw [← some.inj hstep]
      split_ifs with hneg
      · exact h.move fun hrc => absurd hrc (by decide)
      · exact h.move trivial
    · cases hstep
  | enter j =>
    dsimp only [Barriers.step] at hstep
    split at hstep
    · rw [← some.inj hstep]
      split_ifs with hfuture
      · exact h.move fun hrc => absurd hrc (by decide)
      · exact h.testPhase (Int.not_lt.1 hfuture)
    · rename_i phase hwoken
      rw [← some.inj hstep]
      exact h.testPhase (h.placed _ (mem_of_getElem? hwoken))
    · cases hstep
  | spurious j =>
    dsimp only [Barriers.step] at hstep
    split at hstep
    · rename_i phase hasleep
      rw [← some.inj hstep]
      exact h.move (Int.le_of_eq (h.placed _ (mem_of_getElem? hasleep)))
    · cases hstep

theorem phased_initial (hnew : barrierNew n = some b) : Phased n (initial b threads) := by
  rw [barrierNew] at hnew
  split_ifs at hnew with hpositive
  cases hnew
  have hzero : expectedAt n [] 0 = n := Int.sub_zero n
  refine ⟨Int.le_refl n, ?_, Int.le_refl 0, nofun, nofun, hzero.symm, ?_, ?_, ?_, ?_⟩
  · exact Int.le_of_lt (Int.not_le.1 hpositive)
  · exact (Int.sub_zero n).symm.trans (Int.sub_zero _).symm
  · exact fun h => absurd (Int.le_of_eq h) hpositive
  · exact fun phase hstart hlt => absurd hlt (Int.not_lt.2 hstart)
  · intro t ht
    rw [eq_of_mem_replicate ht]
    trivial

theorem Phased.completes_iff (h : Phased n s) (hstart : 0 ≤ phase) : phase < s.barrier.phase ↔
    0 < expectedAt n s.arrivals phase ∧ arrived s.arrivals phase = expectedAt n s.arrivals phase := by
  refine ⟨h.past phase hstart, fun ⟨hsome, hfull⟩ => ?_⟩
  by_contra hopen
  rcases Int.lt_or_eq_of_le (Int.not_lt.1 hopen) with hlater | rfl
  · rw [arrived_later h.recorded hlater] at hfull
    exact Int.ne_of_lt hsome hfull
  · have hremaining := h.remaining
    rw [hfull, Int.sub_self] at hremaining
    exact Int.ne_of_gt hsome (h.unfinished hremaining)

theorem finishArrival_returns
    (h : (Barriers.finishArrival i units drops s (some (next, advances))).threads[i]? = some point) :
    point = .outside (some (.arrived s.barrier.phase)) := by
  dsimp only [Barriers.finishArrival] at h
  cases advances with
  | false =>
    rw [if_neg Bool.false_ne_true, getElem?_set_self'] at h
    obtain ⟨_, _, rfl⟩ := map_eq_some_iff.1 h
    rfl
  | true =>
    rw [if_pos rfl, broadcast, getElem?_map, getElem?_set_self', Option.map_eq_map, Option.map_map] at h
    obtain ⟨_, _, rfl⟩ := map_eq_some_iff.1 h
    rfl

theorem Phased.finishArrival_failed (h : Phased n s)
    (hfails : (Barriers.finishArrival i units drops s result).threads[i]? = some (.outside (some (.arrived
      (-1)))))
    : Barriers.finishArrival i units drops s result = s.move i (.outside (some (.arrived (-1)))) := by
  cases result with
  | none => rfl
  | some pair =>
    -- the number of a phase is not negative
    have hphase : Point.outside (some (.arrived (-1))) = _ := finishArrival_returns hfails
    injection hphase with hphase
    injection hphase with hphase
    injection hphase with hphase
    exact absurd (hphase ▸ h.started) (by decide)

theorem barrier_phases (hnew : barrierNew n = some b) (hs : Reachable step (initial b threads) s) :
    (0 ≤ s.barrier.remaining ∧ s.barrier.remaining ≤ s.barrier.expected) ∧
    (∀ phase, 0 ≤ phase → (phase < s.barrier.phase ↔ 0 < expectedAt n s.arrivals phase ∧
      arrived s.arrivals phase = expectedAt n s.arrivals phase)) ∧
    (∀ phase, .outside (some (.waited phase 0)) ∈ s.threads → phase < s.barrier.phase) ∧
    (∀ phase, .asleep phase ∈ s.threads → ¬phase < s.barrier.phase) ∧
    ∀ action i s', (∃ update, action = .arrive i update) ∨ action = .arriveAndDrop i →
      step action s = some s' → s'.threads[i]? = some (.outside (some (.arrived (-1)))) →
        s' = s.move i (.outside (some (.arrived (-1)))) := by
  have h : Phased n s := hs.invariant (phased_initial hnew) fun _ _ _ h _ hstep => h.step hstep
  refine ⟨⟨h.nonneg, h.bounded⟩, fun phase hstart => h.completes_iff hstart,
    fun phase ht => h.placed _ ht rfl, fun phase ht => ?_, fun action i s' haction hstep hfails => ?_⟩
  · have heq : phase = s.barrier.phase := h.placed _ ht
    exact Int.not_lt.2 (Int.le_of_eq heq.symm)
  · obtain ⟨update, rfl⟩ | rfl := haction <;> dsimp only [step] at hstep <;> split at hstep
    · rw [← some.inj hstep] at hfails ⊢
      exact h.finishArrival_failed hfails
    · cases hstep
    · rw [← some.inj hstep] at hfails ⊢
      exact h.finishArrival_failed hfails
    · cases hstep

/-- A thread waits for the phase, is woken by the last arrival and returns. -/
theorem barrier_phases_woken :
    ∃ s, run step [.wait 0 0, .enter 0, .arrive 1 2, .enter 0] (initial ⟨2, 2, 0⟩ 2) = some s ∧
      s.barrier.phase = 1 ∧ arrived s.arrivals 0 = 2 ∧
      (0 < s.barrier.phase ↔ 0 < expectedAt 2 s.arrivals 0 ∧
        arrived s.arrivals 0 = expectedAt 2 s.arrivals 0) :=
  have hrun : run step [.wait 0 0, .enter 0, .arrive 1 2, .enter 0] (initial ⟨2, 2, 0⟩ 2) = some
      { barrier := ⟨2, 2, 1⟩
        threads := [.outside (some (.waited 0 0)), .outside (some (.arrived 0))]
        arrivals := [⟨0, 2, false⟩] } := by decide
  have hnew : barrierNew 2 = some ⟨2, 2, 0⟩ := by decide
  ⟨_, hrun, rfl, by decide, (barrier_phases hnew (reachable_of_run hrun)).2.1 0 (by decide)⟩

/-- Nobody is left for the second phase: the arrivals that it expects are none, and it stays. -/
theorem everyone_dropped :
    ∃ b s, barrierNew 1 = some b ∧ run step [.arriveAndDrop 0] (initial b 1) = some s ∧
      arrived s.arrivals 1 = expectedAt 1 s.arrivals 1 ∧ ¬1 < s.barrier.phase :=
  ⟨_, _, rfl, rfl, by decide, by decide⟩

end Mlang.BarrierPhases
