import Mathlib

namespace Mlang.Tallies

open List

/-! What the members of a list hold together. -/

variable {α : Type} {f : α → Nat} {ts : List α} {t t' : α} {i : Nat}

def tally (f : α → Nat) (ts : List α) : Nat := (ts.map f).sum

theorem tally_cons : tally f (t :: ts) = f t + tally f ts := by
  rw [tally, map_cons, sum_cons, tally]

theorem tally_set (f : α → Nat) (t' : α) (h : ts[i]? = some t) :
    tally f (ts.set i t') + f t = tally f ts + f t' := by
  induction ts generalizing i with
  | nil => cases h
  | cons u ts ih =>
    cases i with
    | zero =>
      obtain rfl := Option.some.inj h
      rw [set_cons_zero, tally_cons, tally_cons]
      omega
    | succ i =>
      have hrest := ih (i := i) h
      rw [set_cons_succ, tally_cons, tally_cons]
      omega

theorem le_tally (h : t ∈ ts) : f t ≤ tally f ts :=
  single_le_sum (fun _ _ => Nat.zero_le _) _ (mem_map_of_mem h)

theorem tally_mono (h : ∀ t ∈ ts, f t ≤ g t) : tally f ts ≤ tally g ts :=
  sum_le_sum h

theorem tally_eq_zero : tally f ts = 0 ↔ ∀ t ∈ ts, f t = 0 := by
  constructor
  · exact fun h t ht => Nat.le_zero.1 (h ▸ le_tally ht)
  · intro h
    rw [tally, sum_eq_zero]
    intro n hn
    obtain ⟨t, ht, rfl⟩ := List.mem_map.1 hn
    exact h t ht

end Mlang.Tallies
