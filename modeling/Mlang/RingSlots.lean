import Mathlib.Data.List.Basic
import Mathlib.Data.Nat.ModEq

namespace Mlang.RingSlots

/-! Items that are kept in the slots of a ring until they are taken, each in the slot of its
number. -/

variable {k n size : Nat}

theorem mod_ne_mod (hlt : k < n) (hnear : n < k + size) : k % size ≠ n % size := by
  intro heq
  have hdvd : size ∣ n - k := (Nat.modEq_iff_dvd' hlt.le).1 heq
  have hle := Nat.le_of_dvd (Nat.sub_pos_of_lt hlt) hdvd
  omega

theorem mod_eq_mod_iff (hle : k ≤ n) (hnear : n ≤ k + size) :
    n % size = k % size ↔ n = k ∨ n = k + size := by
  constructor
  · intro heq
    by_contra hne
    obtain ⟨hne, hne'⟩ := not_or.1 hne
    exact mod_ne_mod (lt_of_le_of_ne hle (Ne.symm hne)) (lt_of_le_of_ne hnear hne') heq.symm
  · rintro (rfl | rfl)
    · rfl
    · exact Nat.add_mod_right k size

theorem succ_mod (n : Nat) (hsize : 0 < size) :
    (if n % size + 1 = size then 0 else n % size + 1) = (n + 1) % size := by
  have hlt := Nat.mod_lt n hsize
  have hsucc : (n + 1) % size = (n % size + 1) % size := (Nat.mod_add_mod n size 1).symm
  rw [hsucc]
  split_ifs with hwraps
  · rw [hwraps, Nat.mod_self]
  · have hbelow : n % size + 1 < size := by omega
    exact (Nat.mod_eq_of_lt hbelow).symm

variable {β : Type} {get get' : Nat → β} {slot : Nat → Nat} {taken : Nat} {sent : List β} {m : β}

def Stored (get : Nat → β) (slot : Nat → Nat) (taken : Nat) (sent : List β) : Prop :=
  ∀ k m, taken ≤ k → sent[k]? = some m → get (slot k) = m

variable (h : Stored get slot taken sent)
include h

theorem Stored.mono {taken' : Nat} (hle : taken ≤ taken') :
    Stored get slot taken' sent := fun k m hk => h k m (hle.trans hk)

theorem Stored.congr (hsame : ∀ k, taken ≤ k → k < sent.length → get' (slot k) = get (slot k)) :
    Stored get' slot taken sent := by
  intro k m hk hm
  rw [hsame k hk (List.getElem?_eq_some_iff.1 hm).1]
  exact h k m hk hm

theorem Stored.put (hput : get (slot sent.length) = m) :
    Stored get slot taken (sent ++ [m]) := by
  intro k m' hk hm'
  rcases Nat.lt_or_ge k sent.length with hlt | hge
  · rw [List.getElem?_append_left hlt] at hm'
    exact h k m' hk hm'
  · have hlt := (List.getElem?_eq_some_iff.1 hm').1
    rw [List.length_append, List.length_singleton] at hlt
    obtain rfl : k = sent.length := by omega
    rw [List.getElem?_concat_length] at hm'
    exact hput.trans (Option.some.inj hm')

omit h

theorem join_set {slots : List (Option β)} {i j : Nat} {x : Option β} (hj : j < slots.length) :
    ((slots.set j x)[i]?).join = if i = j then x else (slots[i]?).join := by
  rw [List.getElem?_set]
  by_cases hij : i = j
  · rw [if_pos hij, if_pos hij.symm, if_pos hj]
    rfl
  · rw [if_neg hij, if_neg (Ne.symm hij)]

theorem take_succ_of_get {sent : List β} {n : Nat} (h : sent[n]? = some m) :
    sent.take (n + 1) = sent.take n ++ [m] := by
  rw [List.take_add_one, h]
  rfl

end Mlang.RingSlots
