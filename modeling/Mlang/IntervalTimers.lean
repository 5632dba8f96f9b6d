import Mlang.CheckedIntegers

namespace Mlang.IntervalTimers

open CheckedIntegers List Option

structure IntervalTimer where
  intervalNs : Int
  nextDeadlineNs : Int
  deriving DecidableEq

def intervalNew (intervalMs now : Int) : Checked IntervalTimer := do
  let intervalMs := if intervalMs ≤ 0 then 1 else intervalMs
  let intervalNs ← mul 64 intervalMs 1000000
  let deadline ← add 64 now intervalNs
  pure ⟨intervalNs, deadline⟩

def intervalReset (t : IntervalTimer) (now : Int) : Checked IntervalTimer := do
  let deadline ← add 64 now t.intervalNs
  pure { t with nextDeadlineNs := deadline }

/-- The loop that moves the deadline on. `none` stands for a loop that takes more rounds. -/
def catchUp : Nat → Int → IntervalTimer → Option (Checked IntervalTimer)
  | 0, _, _ => none
  | rounds + 1, now, t =>
    if now ≥ t.nextDeadlineNs then
      match add 64 t.nextDeadlineNs t.intervalNs with
      | none => some none
      | some deadline => catchUp rounds now { t with nextDeadlineNs := deadline }
    else some (some t)

/-- The clock is read `again` behind the sleep. -/
def intervalWaitNext (rounds : Nat) (t : IntervalTimer) (now again : Int) :
    Option (Checked IntervalTimer) :=
  if now < t.nextDeadlineNs then
    match sub 64 t.nextDeadlineNs now with
    | none => some none
    | some _ => catchUp rounds again t
  else catchUp rounds now t

def intervalPoll (rounds : Nat) (t : IntervalTimer) (now : Int) :
    Option (Checked (IntervalTimer × Int)) :=
  if now < t.nextDeadlineNs then some (some (t, 0))
  else (catchUp rounds now t).map fun caught => caught.map fun t => (t, 1)

inductive Call
  | reset (now : Int)
  | waitNext (now again : Int)
  | poll (now : Int)
  deriving DecidableEq

def Call.readings : Call → List Int
  | .reset now => [now]
  | .waitNext now again => [now, again]
  | .poll now => [now]

def lastReading (deadline now again : Int) : Int := if now < deadline then again else now

def nanoseconds (intervalMs : Int) : Int := (if intervalMs ≤ 0 then 1 else intervalMs) * 1000000

def IsNextTick (first interval now deadline : Int) : Prop :=
  IsLeast {d | (∃ k : Nat, d = first + k * interval) ∧ now < d} deadline

/-- No call overflows and each one ends, a reset with an interval from its reading on and the others
with the next tick. -/
def Advances (interval : Int) : Int → IntervalTimer → List Call → Prop
  | _, _, [] => True
  | _, t, .reset now :: calls => ∃ t', intervalReset t now = some t' ∧
      t'.nextDeadlineNs = now + interval ∧ Advances interval t'.nextDeadlineNs t' calls
  | first, t, .waitNext now again :: calls =>
    ∃ rounds t', intervalWaitNext rounds t now again = some (some t') ∧
      IsNextTick first interval (lastReading t.nextDeadlineNs now again) t'.nextDeadlineNs ∧
      Advances interval first t' calls
  | first, t, .poll now :: calls => ∃ rounds t' rc, intervalPoll rounds t now = some (some (t', rc)) ∧
      IsNextTick first interval now t'.nextDeadlineNs ∧ Advances interval first t' calls

def TimerAdvances (intervalMs now : Int) (calls : List Call) : Prop :=
  ∃ t, intervalNew intervalMs now = some t ∧ t.nextDeadlineNs = now + nanoseconds intervalMs ∧
    Advances (nanoseconds intervalMs) t.nextDeadlineNs t calls

def tickAfter (deadline interval now : Int) : Int :=
  if now < deadline then deadline else deadline + ((now - deadline) / interval + 1) * interval

def TicksFit (interval : Int) : Int → List Call → Prop
  | _, [] => True
  | _, .reset now :: calls => Fits 64 (now + interval) ∧ TicksFit interval (now + interval) calls
  | deadline, .waitNext now again :: calls =>
    let next := tickAfter deadline interval (lastReading deadline now again)
    Fits 64 next ∧ TicksFit interval next calls
  | deadline, .poll now :: calls =>
    let next := tickAfter deadline interval now
    Fits 64 next ∧ TicksFit interval next calls

def TimerFits (intervalMs now : Int) (calls : List Call) : Prop :=
  Fits 64 (nanoseconds intervalMs) ∧ Fits 64 (now + nanoseconds intervalMs) ∧
    TicksFit (nanoseconds intervalMs) (now + nanoseconds intervalMs) calls

variable {first deadline interval now : Int}

variable (hinterval : 0 < interval)
include hinterval

theorem tickAfter_add (h : deadline ≤ now) :
    tickAfter (deadline + interval) interval now = tickAfter deadline interval now := by
  have hquotient : (now - (deadline + interval)) / interval = (now - deadline) / interval - 1 := by
    have hsub : now - (deadline + interval) = now - deadline + -1 * interval := by omega
    rw [hsub, Int.add_mul_ediv_right _ _ hinterval.ne']
    rfl
  rw [tickAfter, tickAfter, if_neg (not_lt.2 h), hquotient]
  split_ifs with hlt
  · have hzero : (now - deadline) / interval = 0 :=
      Int.ediv_eq_zero_of_lt (by omega) (by omega)
    rw [hzero, Int.zero_add, Int.one_mul]
  · rw [Int.sub_add_cancel, Int.add_mul, Int.one_mul]
    omega

theorem tickAfter_bounds (hnear : deadline - interval ≤ now) :
    deadline ≤ tickAfter deadline interval now ∧ now < tickAfter deadline interval now ∧
      tickAfter deadline interval now - interval ≤ now := by
  rw [tickAfter]
  split_ifs with hlt
  · exact ⟨le_rfl, hlt, hnear⟩
  · have hdiv := Int.mul_ediv_add_emod (now - deadline) interval
    have hnonneg := Int.emod_nonneg (now - deadline) hinterval.ne'
    have hbelow := Int.emod_lt_of_pos (now - deadline) hinterval
    have hquotient : 0 ≤ (now - deadline) / interval * interval :=
      Int.mul_nonneg (Int.ediv_nonneg (by omega) hinterval.le) hinterval.le
    rw [Int.mul_comm] at hdiv
    rw [Int.add_mul, Int.one_mul]
    omega

theorem tickAfter_tick (htick : ∃ k : Nat, deadline = first + k * interval) :
    ∃ k : Nat, tickAfter deadline interval now = first + k * interval := by
  obtain ⟨k, rfl⟩ := htick
  rw [tickAfter]
  split_ifs with hlt
  · exact ⟨k, rfl⟩
  · have hquotient : 0 ≤ (now - (first + k * interval)) / interval :=
      Int.ediv_nonneg (by omega) hinterval.le
    obtain ⟨m, hm⟩ := Int.eq_ofNat_of_zero_le hquotient
    refine ⟨k + (m + 1), ?_⟩
    rw [hm, Nat.cast_add, Nat.cast_add, Nat.cast_one, Int.add_mul (k : Int), Int.add_assoc]

theorem isNextTick_of_bounds (htick : ∃ k : Nat, deadline = first + k * interval) (hlt : now < deadline)
    (hnear : deadline - interval ≤ now) : IsNextTick first interval now deadline := by
  refine ⟨⟨htick, hlt⟩, ?_⟩
  rintro d ⟨⟨j, rfl⟩, hd⟩
  obtain ⟨k, rfl⟩ := htick
  by_contra hless
  have hjk : (j : Int) < k := by
    by_contra hle
    have := Int.mul_le_mul_of_nonneg_right (not_lt.1 hle) hinterval.le
    omega
  have hstep : ((j : Int) + 1) * interval ≤ k * interval :=
    Int.mul_le_mul_of_nonneg_right hjk hinterval.le
  rw [Int.add_mul, Int.one_mul] at hstep
  omega

omit hinterval

variable {t t' : IntervalTimer} {rounds : Nat}

def IntervalTimer.caughtUp (t : IntervalTimer) (now : Int) : IntervalTimer :=
  { t with nextDeadlineNs := tickAfter t.nextDeadlineNs t.intervalNs now }

theorem caughtUp_of_lt (h : now < t.nextDeadlineNs) : t.caughtUp now = t := by
  rw [IntervalTimer.caughtUp, tickAfter, if_pos h]

theorem caughtUp_moved (hinterval : 0 < t.intervalNs) (h : t.nextDeadlineNs ≤ now) :
    ({ t with nextDeadlineNs := t.nextDeadlineNs + t.intervalNs } : IntervalTimer).caughtUp now =
      t.caughtUp now := by
  rw [IntervalTimer.caughtUp, IntervalTimer.caughtUp, tickAfter_add hinterval h]

theorem caughtUp_of_catchUp (hinterval : 0 < t.intervalNs) (hfits : Fits 64 t.nextDeadlineNs)
    (h : catchUp rounds now t = some (some t')) :
    t' = t.caughtUp now ∧ Fits 64 (t.caughtUp now).nextDeadlineNs := by
  induction rounds generalizing t with
  | zero => cases h
  | succ rounds ih =>
    rw [catchUp] at h
    by_cases hlate : now ≥ t.nextDeadlineNs
    · rw [if_pos hlate, add, checked] at h
      by_cases hnext : Fits 64 (t.nextDeadlineNs + t.intervalNs)
      · rw [if_pos hnext] at h
        have hmoved := caughtUp_moved hinterval hlate
        rw [← hmoved]
        exact ih hinterval hnext h
      · rw [if_neg hnext] at h
        cases h
    · rw [if_neg hlate] at h
      rw [caughtUp_of_lt (not_le.1 hlate)]
      exact ⟨(some.inj (some.inj h)).symm, hfits⟩

/-- The loop ends if the next tick fits. -/
theorem exists_catchUp (hinterval : 0 < t.intervalNs) (hfits : Fits 64 t.nextDeadlineNs)
    (hnext : Fits 64 (t.caughtUp now).nextDeadlineNs) :
    ∃ rounds, catchUp rounds now t = some (some (t.caughtUp now)) := by
  induction hleft : (now + 1 - t.nextDeadlineNs).toNat using Nat.strong_induction_on generalizing t with
  | _ left ih =>
  by_cases hlate : now ≥ t.nextDeadlineNs
  · have hmoved := caughtUp_moved hinterval hlate
    have hle : t.nextDeadlineNs + t.intervalNs ≤ (t.caughtUp now).nextDeadlineNs := by
      rw [← hmoved]
      exact (tickAfter_bounds hinterval (by omega)).1
    have hsum : Fits 64 (t.nextDeadlineNs + t.intervalNs) :=
      ⟨le_trans hfits.1 (by omega), lt_of_le_of_lt hle hnext.2⟩
    have hfewer : (now + 1 - (t.nextDeadlineNs + t.intervalNs)).toNat < left := by omega
    obtain ⟨rounds, hrounds⟩ := ih _ hfewer (t := { t with
      nextDeadlineNs := t.nextDeadlineNs + t.intervalNs }) hinterval hsum (hmoved ▸ hnext) rfl
    refine ⟨rounds + 1, ?_⟩
    rw [catchUp, if_pos hlate, add_eq hsum, ← hmoved]
    exact hrounds
  · refine ⟨1, ?_⟩
    rw [catchUp, if_neg hlate, caughtUp_of_lt (not_le.1 hlate)]

variable {again previous intervalMs : Int} {calls : List Call}

structure Stands (first interval previous : Int) (t : IntervalTimer) : Prop where
  interval_eq : t.intervalNs = interval
  tick : ∃ k : Nat, t.nextDeadlineNs = first + k * interval
  near : t.nextDeadlineNs - interval ≤ previous
  fits : Fits 64 t.nextDeadlineNs

variable (h : Stands first interval previous t)
include h

theorem Stands.caughtUp (hinterval : 0 < interval)
    (hprevious : previous ≤ now) (hnext : Fits 64 (t.caughtUp now).nextDeadlineNs) :
    Stands first interval now (t.caughtUp now) ∧
      IsNextTick first interval now (t.caughtUp now).nextDeadlineNs := by
  obtain ⟨rfl, htick, hnear, -⟩ := h
  obtain ⟨-, hlt, hback⟩ := tickAfter_bounds hinterval (hnear.trans hprevious)
  have htick' : ∃ k : Nat, (t.caughtUp now).nextDeadlineNs = first + k * t.intervalNs :=
    tickAfter_tick hinterval htick
  exact ⟨⟨rfl, htick', hback, hnext⟩, isNextTick_of_bounds hinterval htick' hlt hback⟩

theorem intervalWaitNext_eq (hinterval : Fits 64 interval)
    (hprevious : previous ≤ now) (rounds : Nat) : intervalWaitNext rounds t now again =
      catchUp rounds (lastReading t.nextDeadlineNs now again) t := by
  rw [intervalWaitNext, lastReading]
  split_ifs with hlt
  · have hrest : Fits 64 (t.nextDeadlineNs - now) := by
      obtain ⟨hlow, hhigh⟩ := hinterval
      have hnear := h.near
      exact ⟨by omega, by omega⟩
    rw [sub_eq hrest]
  · rfl

theorem exists_catchUp_iff (hinterval : 0 < interval)
    (hprevious : previous ≤ now) (P : IntervalTimer → Prop) :
    (∃ rounds t', catchUp rounds now t = some (some t') ∧
        IsNextTick first interval now t'.nextDeadlineNs ∧ P t') ↔
      Fits 64 (t.caughtUp now).nextDeadlineNs ∧ P (t.caughtUp now) := by
  have hpositive : 0 < t.intervalNs := h.interval_eq ▸ hinterval
  constructor
  · rintro ⟨rounds, t', hcatch, -, hP⟩
    obtain ⟨rfl, hfits⟩ := caughtUp_of_catchUp hpositive h.fits hcatch
    exact ⟨hfits, hP⟩
  · rintro ⟨hfits, hP⟩
    obtain ⟨rounds, hcatch⟩ := exists_catchUp hpositive h.fits hfits
    exact ⟨rounds, _, hcatch, (h.caughtUp hinterval hprevious hfits).2, hP⟩

omit h

theorem exists_poll_iff (P : IntervalTimer → Prop) :
    (∃ rounds t' rc, intervalPoll rounds t now = some (some (t', rc)) ∧ P t') ↔
      ∃ rounds t', catchUp rounds now t = some (some t') ∧ P t' := by
  by_cases hlt : now < t.nextDeadlineNs
  · have hcatch : ∀ rounds, catchUp (rounds + 1) now t = some (some t) := fun rounds => by
      rw [catchUp, if_neg (not_le.2 hlt)]
    constructor
    · rintro ⟨rounds, t', rc, hpoll, hP⟩
      rw [intervalPoll, if_pos hlt] at hpoll
      obtain ⟨rfl, -⟩ := Prod.mk.inj (some.inj (some.inj hpoll))
      exact ⟨1, t, hcatch 0, hP⟩
    · rintro ⟨rounds, t', hcaught, hP⟩
      cases rounds with
      | zero => cases hcaught
      | succ rounds =>
        obtain rfl := some.inj (some.inj ((hcatch rounds).symm.trans hcaught))
        exact ⟨0, t, 0, by rw [intervalPoll, if_pos hlt], hP⟩
  · have hpoll : ∀ rounds, intervalPoll rounds t now =
        (catchUp rounds now t).map fun caught => caught.map fun t => (t, 1) := fun rounds => by
      rw [intervalPoll, if_neg hlt]
    constructor
    · rintro ⟨rounds, t', rc, heq, hP⟩
      rw [hpoll, map_eq_some_iff] at heq
      obtain ⟨caught, hcaught, heq⟩ := heq
      obtain ⟨t'', rfl, hpair⟩ := map_eq_some_iff.1 heq
      obtain ⟨rfl, -⟩ := Prod.mk.inj hpair
      exact ⟨rounds, _, hcaught, hP⟩
    · rintro ⟨rounds, t', hcaught, hP⟩
      exact ⟨rounds, t', 1, by rw [hpoll, hcaught]; rfl, hP⟩

/-- By induction on the calls: the deadline is the tick behind the last reading, call after call. -/
theorem advances_iff (hpositive : 0 < interval) (hinterval : Fits 64 interval)
    (h : Stands first interval previous t)
    (hreadings : (previous :: calls.flatMap Call.readings).Pairwise (· ≤ ·)) :
    Advances interval first t calls ↔ TicksFit interval t.nextDeadlineNs calls := by
  induction calls generalizing first previous t with
  | nil => exact Iff.rfl
  | cons call calls ih =>
    have hstep : ∀ reading, previous ≤ reading →
        (reading :: calls.flatMap Call.readings).Pairwise (· ≤ ·) →
        ((∃ rounds t', catchUp rounds reading t = some (some t') ∧
          IsNextTick first interval reading t'.nextDeadlineNs ∧ Advances interval first t' calls) ↔
        Fits 64 (tickAfter t.nextDeadlineNs interval reading) ∧
          TicksFit interval (tickAfter t.nextDeadlineNs interval reading) calls) := by
      intro reading hle hrest
      have hnext : (t.caughtUp reading).nextDeadlineNs =
          tickAfter t.nextDeadlineNs interval reading := by
        rw [← h.interval_eq]
        rfl
      rw [exists_catchUp_iff h hpositive hle, ← hnext]
      exact and_congr_right fun hfits => ih (h.caughtUp hpositive hle hfits).1 hrest
    cases call with
    | reset now =>
      obtain ⟨hprevious, hrest⟩ := pairwise_cons.1 hreadings
      have hle : previous ≤ now := hprevious now mem_cons_self
      obtain rfl := h.interval_eq
      rw [Advances, TicksFit, intervalReset]
      by_cases hfits : Fits 64 (now + t.intervalNs)
      · rw [add_eq hfits]
        have hstands : Stands (now + t.intervalNs) t.intervalNs now
            { t with nextDeadlineNs := now + t.intervalNs } :=
          ⟨rfl, ⟨0, by simp⟩, by dsimp only; omega, hfits⟩
        have hrec := ih hstands hrest
        constructor
        · rintro ⟨t', ht', -, hadvances⟩
          cases ht'
          exact ⟨hfits, hrec.1 hadvances⟩
        · rintro ⟨-, hticks⟩
          exact ⟨_, rfl, rfl, hrec.2 hticks⟩
      · rw [add, checked, if_neg hfits]
        refine iff_of_false ?_ fun h => hfits h.1
        rintro ⟨t', ht', -⟩
        cases ht'
    | waitNext now again =>
      obtain ⟨hprevious, hrest⟩ := pairwise_cons.1 hreadings
      obtain ⟨hnow, hagain⟩ := pairwise_cons.1 hrest
      have hle : previous ≤ now := hprevious now mem_cons_self
      have hreading : previous ≤ lastReading t.nextDeadlineNs now again ∧
          (lastReading t.nextDeadlineNs now again :: calls.flatMap Call.readings).Pairwise
            (· ≤ ·) := by
        rw [lastReading]
        split_ifs
        · exact ⟨hle.trans (hnow again mem_cons_self), hagain⟩
        · exact ⟨hle, hrest.sublist (.cons_cons _ (sublist_cons_self _ _))⟩
      rw [Advances, TicksFit, ← hstep _ hreading.1 hreading.2]
      simp only [intervalWaitNext_eq h hinterval hle]
    | poll now =>
      obtain ⟨hprevious, hrest⟩ := pairwise_cons.1 hreadings
      rw [Advances, TicksFit, ← hstep now (hprevious now mem_cons_self) hrest]
      exact exists_poll_iff fun t' => IsNextTick first interval now t'.nextDeadlineNs ∧
        Advances interval first t' calls

theorem nanoseconds_pos (intervalMs : Int) : 0 < nanoseconds intervalMs := by
  rw [nanoseconds]
  split_ifs <;> omega

/-- A timer comes to the next tick at every call exactly if its ticks are integers of 64 bits. -/
theorem timerAdvances_iff (hreadings : (now :: calls.flatMap Call.readings).Pairwise (· ≤ ·)) :
    TimerAdvances intervalMs now calls ↔ TimerFits intervalMs now calls := by
  have hpositive := nanoseconds_pos intervalMs
  rw [TimerAdvances, TimerFits, intervalNew]
  by_cases hfits : Fits 64 (nanoseconds intervalMs)
  · rw [nanoseconds] at hfits
    rw [mul_eq hfits, ← nanoseconds]
    by_cases hsum : Fits 64 (now + nanoseconds intervalMs)
    · rw [some_bind, add_eq hsum]
      have hstands : Stands (now + nanoseconds intervalMs) (nanoseconds intervalMs) now
          ⟨nanoseconds intervalMs, now + nanoseconds intervalMs⟩ :=
        ⟨rfl, ⟨0, by simp⟩, by dsimp only; omega, hsum⟩
      have hiff := advances_iff hpositive hfits hstands hreadings
      constructor
      · rintro ⟨t, ht, -, hadvances⟩
        cases ht
        exact ⟨hfits, hsum, hiff.1 hadvances⟩
      · rintro ⟨-, -, hticks⟩
        exact ⟨_, rfl, rfl, hiff.2 hticks⟩
    · rw [some_bind, add, checked, if_neg hsum]
      refine iff_of_false ?_ fun h => hsum h.2.1
      rintro ⟨t, ht, -⟩
      cases ht
  · rw [mul, checked, ← nanoseconds, if_neg hfits]
    refine iff_of_false ?_ fun h => hfits h.1
    rintro ⟨t, ht, -⟩
    cases ht

/-- A timer of five milliseconds that is polled late. -/
theorem fiveMilliseconds_advance : TimerAdvances 5 0 [.waitNext 1000000 5000100, .poll 23000000] :=
  (timerAdvances_iff (by decide)).2 ⟨by decide, by decide, by decide, by decide, trivial⟩

/-- The nanoseconds of the interval are more than there are integers. -/
theorem not_timerAdvances :
    ¬ ∀ (intervalMs now : Int) (calls : List Call), Fits 64 intervalMs → Fits 64 now →
      (now :: calls.flatMap Call.readings).Pairwise (· ≤ ·) → TimerAdvances intervalMs now calls := by
  intro hall
  obtain ⟨t, ht, -⟩ := hall (2 ^ 58) 0 [.poll 0] (by decide) (by decide) (by decide)
  cases ht

end Mlang.IntervalTimers
