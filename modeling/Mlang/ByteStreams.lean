import Mathlib.Data.List.Basic

namespace Mlang.ByteStreams

open List

/-! Streams of items that come in pieces, with silence between them, and reading a number of items. -/

variable {α : Type}

/-- A piece of the stream ends at a gap. -/
inductive Event (α : Type)
  | item (a : α)
  | gap
  | pause
  deriving DecidableEq

def contents : List (Event α) → List α
  | [] => []
  | .item a :: s => a :: contents s
  | .gap :: s => contents s
  | .pause :: s => contents s

def poll : List (Event α) → Bool × List (Event α)
  | .gap :: s => poll s
  | .pause :: s => (false, s)
  | s => (true, s)

/-- At most `n` items of the piece that has come. -/
def available : Nat → List (Event α) → List α × List (Event α)
  | n + 1, .item a :: s => (a :: (available n s).1, (available n s).2)
  | _, s => ([], s)

/-- A call that waits for the next piece and takes at most `n` items of it. -/
def receive (n : Nat) : List (Event α) → List α × List (Event α)
  | .gap :: s => receive n s
  | .pause :: s => receive n s
  | s => available n s

inductive Outcome
  | complete
  | ended
  | timedOut
  deriving DecidableEq

structure Reading (α : Type) where
  outcome : Outcome
  got : List α
  rest : List (Event α)
  deriving DecidableEq

/-- The loop of calls that reads `n` items. -/
def receiveAll (timed : Bool) : Nat → Nat → List (Event α) → Reading α
  | _, 0, s => ⟨.complete, [], s⟩
  | 0, _ + 1, s => ⟨.ended, [], s⟩
  | fuel + 1, n + 1, s =>
    let (ready, s) := if timed then poll s else (true, s)
    if !ready then ⟨.timedOut, [], s⟩
    else
      let (got, s) := receive (n + 1) s
      if got.isEmpty then ⟨.ended, [], s⟩
      else
        let r := receiveAll timed fuel (n + 1 - got.length) s
        { r with got := got ++ r.got }

variable {timed : Bool} {s : List (Event α)} {fuel n : Nat}

def taken (timed : Bool) : Nat → List (Event α) → Reading α
  | 0, s => ⟨.complete, [], s⟩
  | _ + 1, [] => ⟨.ended, [], []⟩
  | n + 1, .item a :: s => { taken timed n s with got := a :: (taken timed n s).got }
  | n + 1, .gap :: s => taken timed (n + 1) s
  | n + 1, .pause :: s => if timed then ⟨.timedOut, [], s⟩ else taken timed (n + 1) s

theorem taken_zero : taken timed 0 s = ⟨.complete, [], s⟩ := by
  cases s <;> rfl

theorem taken_available (timed : Bool) (n k : Nat) (s : List (Event α)) :
    taken timed (n + k) s =
      { taken timed (n + k - (available k s).1.length) (available k s).2 with
        got := (available k s).1 ++
          (taken timed (n + k - (available k s).1.length) (available k s).2).got } := by
  induction k generalizing s with
  | zero => cases s <;> rfl
  | succ k ih =>
    cases s with
    | nil => rfl
    | cons event s =>
      cases event with
      | gap => rfl
      | pause => rfl
      | item a =>
        have hlength : n + (k + 1) - ((available k s).1.length + 1) =
            n + k - (available k s).1.length := by omega
        show ({ taken timed (n + k) s with got := a :: (taken timed (n + k) s).got } : Reading α) = _
        rw [ih s, available, length_cons, hlength]
        rfl

theorem receive_untimed (n : Nat) (s : List (Event α)) :
    ∃ s', receive (n + 1) s = available (n + 1) s' ∧ taken false (n + 1) s = taken false (n + 1) s' ∧
      ((available (n + 1) s').1 = [] → s' = []) := by
  induction s with
  | nil => exact ⟨[], rfl, rfl, fun _ => rfl⟩
  | cons event s ih =>
    cases event with
    | item a => exact ⟨_, rfl, rfl, nofun⟩
    | gap => exact ih
    | pause => exact ih

theorem receive_timed (n : Nat) (s : List (Event α)) :
    ((poll s).1 = false ∧ taken true (n + 1) s = ⟨.timedOut, [], (poll s).2⟩) ∨
    ((poll s).1 = true ∧ receive (n + 1) (poll s).2 = available (n + 1) (poll s).2 ∧
      taken true (n + 1) s = taken true (n + 1) (poll s).2 ∧
      ((available (n + 1) (poll s).2).1 = [] → (poll s).2 = [])) := by
  induction s with
  | nil => exact .inr ⟨rfl, rfl, rfl, fun _ => rfl⟩
  | cons event s ih =>
    cases event with
    | item a => exact .inr ⟨rfl, rfl, rfl, nofun⟩
    | gap => exact ih
    | pause => exact .inl ⟨rfl, rfl⟩

theorem taken_of_available
    (ih : ∀ m, m ≤ fuel → ∀ s : List (Event α), receiveAll timed fuel m s = taken timed m s)
    (hfuel : n ≤ fuel) (hend : (available (n + 1) s).1 = [] → s = []) :
    (if (available (n + 1) s).1.isEmpty then ⟨.ended, [], (available (n + 1) s).2⟩ else { receiveAll timed
      fuel (n + 1 - (available (n + 1) s).1.length) (available (n + 1) s).2 with got := (available (n + 1)
      s).1 ++
            (receiveAll timed fuel (n + 1 - (available (n + 1) s).1.length)
              (available (n + 1) s).2).got }) = taken timed (n + 1) s := by
  split_ifs with hempty
  · rw [hend (isEmpty_iff.1 hempty)]
    rfl
  · have hpositive : 0 < (available (n + 1) s).1.length :=
      length_pos_iff.2 fun h => hempty (isEmpty_iff.2 h)
    rw [ih _ (by omega)]
    have hexact := taken_available timed 0 (n + 1) s
    rw [Nat.zero_add] at hexact
    exact hexact.symm

theorem receiveAll_eq (h : n ≤ fuel) : receiveAll timed fuel n s = taken timed n s := by
  induction fuel generalizing n s with
  | zero =>
    rw [Nat.le_zero.1 h, taken_zero]
    rfl
  | succ fuel ih =>
    cases n with
    | zero =>
      rw [taken_zero]
      rfl
    | succ n =>
      have hnext := fun s => taken_of_available (s := s) (fun m hm s => ih hm)
        (Nat.le_of_succ_le_succ h)
      cases timed with
      | false =>
        obtain ⟨s', hreceive, hexact, hend⟩ := receive_untimed n s
        rw [hexact, ← hnext s' hend, receiveAll]
        simp only [Bool.false_eq_true, if_false, Bool.not_true, hreceive]
      | true =>
        rw [receiveAll]
        rcases receive_timed n s with ⟨hpoll, hexact⟩ | ⟨hpoll, hreceive, hexact, hend⟩
        · simp only [if_true, hpoll, Bool.not_false, hexact]
        · rw [hexact, ← hnext _ hend]
          simp only [if_true, hpoll, Bool.not_true, Bool.false_eq_true, if_false, hreceive]

variable {a : α}

theorem contents_taken (timed : Bool) (n : Nat) (s : List (Event α)) :
    contents s = (taken timed n s).got ++ contents (taken timed n s).rest := by
  induction n, s using taken.induct timed with
  | case1 s => rw [taken_zero]; rfl
  | case2 n => rfl
  | case3 n a s ih => exact congrArg (a :: ·) ih
  | case4 n s ih => exact ih
  | case5 n s htimed => simp only [taken, htimed, if_true, contents, nil_append]
  | case6 n s htimed ih => simp only [taken, htimed, if_false, contents, ih, Bool.false_eq_true]

def Reading.Fits (timed : Bool) (n : Nat) (r : Reading α) : Prop :=
  match r.outcome with
  | .complete => r.got.length = n
  | .ended => r.got.length < n ∧ r.rest = []
  | .timedOut => r.got.length < n ∧ timed = true

theorem Reading.Fits.cons {r : Reading α} (h : r.Fits timed n) :
    Reading.Fits timed (n + 1) { r with got := a :: r.got } := by
  obtain ⟨outcome, got, rest⟩ := r
  cases outcome with
  | complete => exact congrArg Nat.succ h
  | ended => exact ⟨Nat.succ_lt_succ h.1, h.2⟩
  | timedOut => exact ⟨Nat.succ_lt_succ h.1, h.2⟩

theorem taken_fits (timed : Bool) (n : Nat) (s : List (Event α)) : (taken timed n s).Fits timed n := by
  induction n, s using taken.induct timed with
  | case1 s => rw [taken_zero]; rfl
  | case2 n => exact ⟨Nat.succ_pos n, rfl⟩
  | case3 n a s ih => exact ih.cons
  | case4 n s ih => exact ih
  | case5 n s htimed =>
    rw [taken, if_pos htimed]
    exact ⟨Nat.succ_pos n, htimed⟩
  | case6 n s htimed ih =>
    rw [taken, if_neg htimed]
    exact ih

theorem length_taken_le (timed : Bool) (n : Nat) (s : List (Event α)) :
    (taken timed n s).got.length ≤ n := by
  have hfits := taken_fits timed n s
  rw [Reading.Fits] at hfits
  split at hfits
  · exact Nat.le_of_eq hfits
  · exact Nat.le_of_lt hfits.1
  · exact Nat.le_of_lt hfits.1

theorem taken_in_time (h : (taken timed n s).outcome ≠ .timedOut) :
    (taken timed n s).got = (contents s).take n ∧
      contents (taken timed n s).rest = (contents s).drop n := by
  have hcontents := contents_taken timed n s
  have hfits := taken_fits timed n s
  rw [Reading.Fits] at hfits
  split at hfits
  · rw [hcontents, take_left' hfits, drop_left' hfits]
    exact ⟨rfl, rfl⟩
  · rw [hcontents, hfits.2, contents, append_nil, take_of_length_le (Nat.le_of_lt hfits.1),
      drop_eq_nil_of_le (Nat.le_of_lt hfits.1)]
    exact ⟨rfl, rfl⟩
  · rename_i houtcome
    exact absurd houtcome h

theorem taken_complete (h : (taken timed n s).outcome = .complete) :
    n ≤ (contents s).length ∧ (taken timed n s).got = (contents s).take n ∧
      contents (taken timed n s).rest = (contents s).drop n := by
  have hcontents := contents_taken timed n s
  have hfits := taken_fits timed n s
  rw [Reading.Fits, h] at hfits
  refine ⟨?_, taken_in_time (h ▸ nofun)⟩
  rw [hcontents, length_append, hfits]
  exact Nat.le_add_right _ _

theorem taken_untimed : taken false n s =
    ⟨if n ≤ (contents s).length then .complete else .ended, (contents s).take n, (taken false n s).rest⟩ ∧
    contents (taken false n s).rest = (contents s).drop n := by
  have hfits := taken_fits false n s
  have hcontents := contents_taken false n s
  have hpatient : (taken false n s).outcome ≠ .timedOut := by
    intro h
    rw [Reading.Fits, h] at hfits
    exact nomatch hfits.2
  obtain ⟨hgot, hrest⟩ := taken_in_time hpatient
  refine ⟨?_, hrest⟩
  have houtcome : (taken false n s).outcome = if n ≤ (contents s).length then .complete else .ended := by
    rw [Reading.Fits] at hfits
    split at hfits
    · rename_i h
      rw [h, if_pos (taken_complete h).1]
    · rename_i h
      rw [h, if_neg]
      rw [hcontents, hfits.2, contents, append_nil]
      exact Nat.not_le.2 hfits.1
    · exact nomatch hfits.2
  rw [← houtcome, ← hgot]

theorem contents_append (s s' : List (Event α)) : contents (s ++ s') = contents s ++ contents s' := by
  induction s with
  | nil => rfl
  | cons event s ih =>
    cases event with
    | item a => exact congrArg (a :: ·) ih
    | gap => exact ih
    | pause => exact ih

/-- There is a pause among the next `n` items, and items behind it. -/
def Interrupted (n : Nat) (s : List (Event α)) : Prop :=
  ∃ earlier later, s = earlier ++ .pause :: later ∧ (contents earlier).length < n ∧ contents later ≠ []

theorem interrupted_gap : Interrupted n (.gap :: s) ↔ Interrupted n s := by
  constructor
  · rintro ⟨_ | ⟨event, earlier⟩, later, heq, h⟩
    · exact nomatch heq
    · obtain ⟨rfl, rfl⟩ := List.cons.inj heq
      exact ⟨earlier, later, rfl, h⟩
  · rintro ⟨earlier, later, rfl, h⟩
    exact ⟨.gap :: earlier, later, rfl, h⟩

theorem interrupted_item : Interrupted (n + 1) (.item a :: s) ↔ Interrupted n s := by
  constructor
  · rintro ⟨_ | ⟨event, earlier⟩, later, heq, h, hlater⟩
    · exact nomatch heq
    · obtain ⟨rfl, rfl⟩ := List.cons.inj heq
      exact ⟨earlier, later, rfl, Nat.lt_of_succ_lt_succ h, hlater⟩
  · rintro ⟨earlier, later, rfl, h, hlater⟩
    exact ⟨.item a :: earlier, later, rfl, Nat.succ_lt_succ h, hlater⟩

theorem interrupted_pause : Interrupted (n + 1) (.pause :: s) ↔ contents s ≠ [] := by
  constructor
  · rintro ⟨_ | ⟨event, earlier⟩, later, heq, h, hlater⟩
    · obtain ⟨-, rfl⟩ := List.cons.inj heq
      exact hlater
    · obtain ⟨rfl, rfl⟩ := List.cons.inj heq
      show contents (earlier ++ .pause :: later) ≠ []
      rw [contents_append]
      exact fun hnil => hlater (append_eq_nil_iff.1 hnil).2
  · exact fun h => ⟨[], s, rfl, Nat.succ_pos n, h⟩

theorem interrupted_iff : Interrupted n s ↔
    (taken true n s).outcome = .timedOut ∧ contents (taken true n s).rest ≠ [] := by
  induction n, s using taken.induct true with
  | case1 s =>
    rw [taken_zero]
    exact ⟨fun ⟨_, _, _, h, _⟩ => absurd h (Nat.not_lt_zero _), fun h => nomatch h.1⟩
  | case2 n =>
    exact ⟨fun ⟨_, _, h, _⟩ => (nomatch append_eq_nil_iff.1 h.symm), fun h => nomatch h.1⟩
  | case3 n a s ih => exact interrupted_item.trans ih
  | case4 n s ih => exact interrupted_gap.trans ih
  | case5 n s => exact interrupted_pause.trans ⟨fun h => ⟨rfl, h⟩, And.right⟩
  | case6 n s h => exact absurd rfl h

theorem contents_rest_iff : contents (taken timed n s).rest = (contents s).drop n ↔
    ¬(timed = true ∧ Interrupted n s) := by
  have hcontents := contents_taken timed n s
  have hfits := taken_fits timed n s
  constructor
  · rintro hrest ⟨rfl, hinterrupted⟩
    obtain ⟨houtcome, hsome⟩ := interrupted_iff.1 hinterrupted
    rw [Reading.Fits, houtcome] at hfits
    have hlength := congrArg List.length hrest
    rw [length_drop, hcontents, length_append] at hlength
    have hpositive := length_pos_iff.2 hsome
    have hfew := hfits.1
    omega
  · intro hpatient
    by_cases houtcome : (taken timed n s).outcome = .timedOut
    · rw [Reading.Fits, houtcome] at hfits
      obtain ⟨hfew, rfl⟩ := hfits
      have hnone : contents (taken true n s).rest = [] :=
        by_contra fun hsome => hpatient ⟨rfl, interrupted_iff.2 ⟨houtcome, hsome⟩⟩
      rw [hcontents, hnone, append_nil, drop_eq_nil_of_le (Nat.le_of_lt hfew)]
    · exact (taken_in_time houtcome).2

theorem taken_add (timed : Bool) (n m : Nat) (s : List (Event α)) : taken timed (m + n) s =
    if (taken timed m s).outcome = .complete then
      { taken timed n (taken timed m s).rest with
        got := (taken timed m s).got ++ (taken timed n (taken timed m s).rest).got }
    else taken timed m s := by
  induction m, s using taken.induct timed with
  | case1 s =>
    rw [taken_zero, Nat.zero_add]
    rfl
  | case2 m =>
    rw [Nat.succ_add]
    rfl
  | case3 m a s ih =>
    rw [Nat.succ_add, taken, ih, taken]
    split_ifs <;> rfl
  | case4 m s ih =>
    rw [Nat.succ_add] at ih ⊢
    exact ih
  | case5 m s htimed =>
    rw [Nat.succ_add, taken, if_pos htimed, taken, if_pos htimed]
    rfl
  | case6 m s htimed ih =>
    rw [Nat.succ_add] at ih ⊢
    rw [taken, if_neg htimed, ih, taken, if_neg htimed]

end Mlang.ByteStreams
