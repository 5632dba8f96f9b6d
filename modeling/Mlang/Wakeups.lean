import Mathlib.Data.List.Basic

namespace Mlang.Wakeups

open List

/-! Threads that sleep until they are woken, and what a signal changes of their numbers. -/

variable {α : Type}

/-- A condition that threads wait for. -/
structure Condition (α : Type) where
  asleep : α → Bool
  awake : α → Bool
  wake : α → α
  wakes : ∀ t, asleep t = true → awake t = false ∧ asleep (wake t) = false ∧ awake (wake t) = true

variable (c : Condition α)

def rouse (woken : List Nat) (threads : List α) : List α :=
  threads.mapIdx fun i t => if c.asleep t && woken.contains i then c.wake t else t

def signals (woken : List Nat) (threads : List α) : Bool :=
  !threads.any c.asleep || (threads.mapIdx fun i t => c.asleep t && woken.contains i).any id

def broadcast (threads : List α) : List α :=
  threads.map fun t => if c.asleep t then c.wake t else t

/-- There are threads awake for all of `n`, unless none sleeps. -/
def Served (n : Nat) (threads : List α) : Prop :=
  threads.countP c.asleep = 0 ∨ n ≤ threads.countP c.awake

variable {woken : List Nat} {threads : List α} {p : α → Bool}

section Counting

variable {c}

theorem countP_mapIdx_wake (f : Nat → Bool) (threads : List α) :
    ∃ k, (threads.mapIdx fun i t => if c.asleep t && f i then c.wake t else t).countP c.asleep + k =
        threads.countP c.asleep ∧
      (threads.mapIdx fun i t => if c.asleep t && f i then c.wake t else t).countP c.awake =
        threads.countP c.awake + k ∧
      ((threads.mapIdx fun i t => c.asleep t && f i).any id = true → 0 < k) := by
  induction threads generalizing f with
  | nil => exact ⟨0, rfl, rfl, fun h => nomatch h⟩
  | cons t threads ih =>
    obtain ⟨k, hasleep, hawake, hsome⟩ := ih fun i => f (i + 1)
    rw [mapIdx_cons, mapIdx_cons]
    simp only [countP_cons, any_cons]
    cases hwoken : c.asleep t && f 0 with
    | true =>
      obtain ⟨ht, -⟩ := (Bool.and_eq_true _ _).mp hwoken
      obtain ⟨hnot, hrested, hup⟩ := c.wakes t ht
      refine ⟨k + 1, ?_, ?_, fun _ => Nat.succ_pos k⟩
      · rw [if_pos rfl, hrested, ht, if_neg Bool.false_ne_true, if_pos rfl]
        omega
      · rw [if_pos rfl, hup, hnot, if_neg Bool.false_ne_true, if_pos rfl]
        omega
    | false =>
      rw [if_neg Bool.false_ne_true]
      exact ⟨k, by omega, by omega, fun h => hsome (by simpa using h)⟩

theorem countP_rouse (woken : List Nat) (threads : List α) :
    ∃ k, (rouse c woken threads).countP c.asleep + k = threads.countP c.asleep ∧
      (rouse c woken threads).countP c.awake = threads.countP c.awake + k ∧
      (signals c woken threads = true → 0 < threads.countP c.asleep → 0 < k) := by
  obtain ⟨k, hasleep, hawake, hsome⟩ := countP_mapIdx_wake (c := c) woken.contains threads
  refine ⟨k, hasleep, hawake, fun hsignals hpositive => hsome ?_⟩
  have hany : threads.any c.asleep = true := any_eq_true.2 (countP_pos_iff.1 hpositive)
  rw [signals, hany] at hsignals
  exact hsignals

theorem countP_rouse_asleep (h : threads.countP c.asleep = 0) :
    (rouse c woken threads).countP c.asleep = 0 := by
  obtain ⟨k, hasleep, -, -⟩ := countP_rouse (c := c) woken threads
  omega

theorem countP_rouse_of (hp : ∀ t, c.asleep t = true → p (c.wake t) = p t) (woken : List Nat)
    (threads : List α) : (rouse c woken threads).countP p = threads.countP p := by
  have hgeneral : ∀ f : Nat → Bool,
      (threads.mapIdx fun i t => if c.asleep t && f i then c.wake t else t).countP p =
        threads.countP p := by
    induction threads with
    | nil => exact fun _ => rfl
    | cons t threads ih =>
      intro f
      rw [mapIdx_cons, countP_cons, countP_cons, ih fun i => f (i + 1)]
      cases hwoken : c.asleep t && f 0 with
      | true => rw [if_pos rfl, hp t ((Bool.and_eq_true _ _).mp hwoken).1]
      | false => rw [if_neg Bool.false_ne_true]
  exact hgeneral _

theorem countP_broadcast (threads : List α) : (broadcast c threads).countP c.asleep = 0 := by
  rw [broadcast, countP_map, countP_eq_zero]
  intro t _ h
  dsimp only [Function.comp] at h
  split_ifs at h with ht
  · rw [(c.wakes t ht).2.1] at h
    cases h
  · exact ht h

theorem countP_broadcast_of (hp : ∀ t, c.asleep t = true → p (c.wake t) = p t) (threads : List α) :
    (broadcast c threads).countP p = threads.countP p := by
  rw [broadcast, countP_map]
  refine countP_congr fun t _ => ?_
  dsimp only [Function.comp]
  split_ifs with ht
  · rw [hp t ht]
  · exact Iff.rfl

end Counting

variable {m i : Nat} {c} {n : Nat}

theorem Served.signal (h : Served c n threads) (hsignals : signals c woken threads = true) :
    Served c (n + 1) (rouse c woken threads) := by
  obtain ⟨k, hasleep, hawake, hpositive⟩ := countP_rouse (c := c) woken threads
  rcases h with hnone | hserved
  · exact .inl (by omega)
  · rcases Nat.eq_zero_or_pos (threads.countP c.asleep) with hnone | hsome
    · exact .inl (by omega)
    · have hk := hpositive hsignals hsome
      exact .inr (by omega)

theorem Served.mono (h : Served c n threads) (hle : m ≤ n) : Served c m threads :=
  h.imp_right fun hserved => Nat.le_trans hle hserved

theorem Served.rouse_of {d : Condition α} (h : Served c n threads)
    (hkeeps : ∀ t, d.asleep t = true → c.asleep (d.wake t) = c.asleep t ∧ c.awake (d.wake t) = c.awake t) :
    Served c n (rouse d woken threads) := by
  rw [Served, countP_rouse_of (fun t ht => (hkeeps t ht).1),
    countP_rouse_of (fun t ht => (hkeeps t ht).2)]
  exact h

theorem countP_set_asleep {t t' : α} (h : threads.countP c.asleep = 0) (ht : threads[i]? = some t)
    (hasleep : c.asleep t' = true → c.asleep t = true) : (threads.set i t').countP c.asleep = 0 := by
  obtain ⟨hi, rfl⟩ := List.getElem?_eq_some_iff.1 ht
  have hrested : c.asleep threads[i] = false :=
    Bool.eq_false_iff.2 (countP_eq_zero.1 h _ (getElem_mem hi))
  have hrested' : c.asleep t' = false := Bool.eq_false_iff.2 fun h => by
    rw [hasleep h] at hrested
    cases hrested
  rw [countP_set hi, h, hrested', hrested]
  rfl

theorem Served.set {t t' : α} (h : Served c n threads) (ht : threads[i]? = some t)
    (hasleep : c.asleep t' = true → c.asleep t = true)
    (hleaves : m + (if c.awake t && !c.awake t' then 1 else 0) ≤ n) : Served c m (threads.set i t') := by
  obtain ⟨hi, rfl⟩ := List.getElem?_eq_some_iff.1 ht
  have hmem : threads[i] ∈ threads := getElem_mem hi
  rcases h with hnone | hserved
  · exact .inl (countP_set_asleep hnone ht hasleep)
  · refine .inr ?_
    rw [countP_set hi]
    cases hup : c.awake threads[i] with
    | false =>
      rw [hup] at hleaves
      simp only [Bool.false_and, Bool.false_eq_true, if_false] at hleaves ⊢
      omega
    | true =>
      have hpositive : 0 < threads.countP c.awake := countP_pos_iff.2 ⟨_, hmem, hup⟩
      rw [hup] at hleaves
      cases hup' : c.awake t' with
      | false =>
        rw [hup'] at hleaves
        simp only [Bool.not_false, Bool.and_self, if_true, Bool.false_eq_true, if_false] at *
        omega
      | true =>
        rw [hup'] at hleaves
        simp only [Bool.not_true, Bool.and_false, Bool.false_eq_true, if_false, if_true] at *
        omega

end Mlang.Wakeups
