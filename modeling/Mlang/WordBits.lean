import Mathlib

namespace Mlang.WordBits

open List

/-! Bits that are kept in words of 64, the first one lowest, and loops that write the words in place. -/

abbrev Word := BitVec 64

variable {words words' : List Word} {w : Word} {i j n : Nat}

def bit (words : List Word) (j : Nat) : Bool := (words.getD (j / 64) 0).getLsbD (j % 64)

def firstBits (words : List Word) (n : Nat) : List Bool := (List.range n).map (bit words)

theorem getD_set (hi : i < words.length) :
    (words.set i w).getD j 0 = if j = i then w else words.getD j 0 := by
  rw [getD_eq_getElem?_getD, getElem?_set]
  by_cases hij : i = j
  · rw [if_pos hij, if_pos hi, if_pos hij.symm, Option.getD_some]
  · rw [if_neg hij, if_neg (Ne.symm hij), getD_eq_getElem?_getD]

theorem bit_set (hi : i < words.length) :
    bit (words.set i w) j = if j / 64 = i then w.getLsbD (j % 64) else bit words j := by
  rw [bit, getD_set hi]
  by_cases hij : j / 64 = i
  · rw [if_pos hij, if_pos hij]
  · rw [if_neg hij, if_neg hij, bit]

theorem bit_eq_false_of_le (h : 64 * words.length ≤ j) : bit words j = false := by
  have hlen : words.length ≤ j / 64 := by omega
  rw [bit, getD_eq_default _ _ hlen]
  exact BitVec.getLsbD_zero

theorem bit_append_replicate (words : List Word) (n j : Nat) :
    bit (words ++ List.replicate n 0) j = bit words j := by
  rcases Nat.lt_or_ge (j / 64) words.length with hlt | hge
  · rw [bit, getD_append _ _ _ _ hlt, bit]
  · have hold : bit words j = false := bit_eq_false_of_le (by omega)
    rw [hold, bit, getD_append_right _ _ _ _ hge, getD_eq_getElem?_getD,
      getElem?_getD_replicate_default_eq]
    exact BitVec.getLsbD_zero

theorem length_firstBits (words : List Word) (n : Nat) : (firstBits words n).length = n := by
  rw [firstBits, length_map, length_range]

theorem getElem?_firstBits (words : List Word) (n j : Nat) :
    (firstBits words n)[j]? = if j < n then some (bit words j) else none := by
  rw [firstBits, getElem?_map]
  by_cases hj : j < n
  · rw [if_pos hj, getElem?_range hj, Option.map_some]
  · rw [if_neg hj, getElem?_eq_none (by rwa [length_range, ← Nat.not_lt]), Option.map_none]

theorem eq_firstBits {l : List Bool} (hlen : l.length = n) (hbits : ∀ j < n, l[j]? = some (bit words j)) :
    l = firstBits words n := by
  refine ext_getElem? fun j => ?_
  rw [getElem?_firstBits]
  by_cases hj : j < n
  · rw [if_pos hj, hbits j hj]
  · rw [if_neg hj]
    exact getElem?_eq_none (by omega)

variable {m : Nat}

def popcount (w : Word) : Nat := (List.range 64).countP w.getLsbD

def countWords (words : List Word) (n : Nat) : Nat :=
  ((List.range n).map fun i => popcount (words.getD i 0)).sum

theorem countWords_eq (words : List Word) (n : Nat) :
    countWords words n = (List.range (64 * n)).countP (bit words) := by
  induction n with
  | zero => rfl
  | succ n ih =>
    have hsplit : List.range (64 * (n + 1)) =
        List.range (64 * n) ++ (List.range 64).map (64 * n + ·) := range_add
    rw [countWords, range_succ, map_append, sum_append, map_singleton,
      sum_singleton, hsplit, countP_append, countP_map]
    refine congrArg₂ (· + ·) ih (countP_congr fun j hj => ?_)
    have hlt := mem_range.1 hj
    have hdiv : (64 * n + j) / 64 = n := by omega
    have hmod : (64 * n + j) % 64 = j := by omega
    rw [Function.comp_apply, bit, hdiv, hmod]

theorem countP_bit_add (words : List Word) (n m : Nat) :
    (List.range (n + m)).countP (bit words) =
      (firstBits words n).count true + (List.range m).countP (fun j => bit words (n + j)) := by
  rw [range_add, countP_append, countP_map, firstBits, List.count, countP_map]
  refine congrArg₂ (· + ·) (countP_congr fun j _ => ?_) (countP_congr fun j _ => Iff.rfl)
  rw [Function.comp_apply, beq_true]

variable {f : List Word → Nat → Word} {v : List Word} {l : List Nat} {r : Nat → Nat → Prop}

/-- A loop that writes one word after the other, each computed from what the words are by then. -/
def sweep (f : List Word → Nat → Word) (l : List Nat) (words : List Word) : List Word :=
  l.foldl (fun v i => v.set i (f v i)) words

theorem length_sweep (f : List Word → Nat → Word) (l : List Nat) (words : List Word) :
    (sweep f l words).length = words.length := by
  induction l generalizing words with
  | nil => rfl
  | cons i l ih => exact (ih (words.set i (f words i))).trans length_set

theorem getD_sweep (hlen : v.length = words.length) (hbelow : ∀ i ∈ l, i < words.length)
    (hlocal : ∀ i ∈ l, ∀ v, v.length = words.length →
      (∀ j, r i j → v.getD j 0 = words.getD j 0) → f v i = f words i)
    (hsame : ∀ i ∈ l, ∀ j, r i j → v.getD j 0 = words.getD j 0)
    (horder : l.Pairwise fun i i' => i' ≠ i ∧ ¬ r i' i) :
    (sweep f l v).getD j 0 = if j ∈ l then f words j else v.getD j 0 := by
  induction l generalizing v with
  | nil => rw [if_neg not_mem_nil]; rfl
  | cons i l ih =>
    obtain ⟨hfirst, horder⟩ := pairwise_cons.1 horder
    have hi : i < v.length := hlen ▸ hbelow i mem_cons_self
    have hvalue := hlocal i mem_cons_self v hlen (hsame i mem_cons_self)
    have hrest := ih (v := v.set i (f v i)) (length_set.trans hlen)
      (fun i' hi' => hbelow i' (mem_cons_of_mem _ hi'))
      (fun i' hi' => hlocal i' (mem_cons_of_mem _ hi'))
      (fun i' hi' j hj => by
        have hne : j ≠ i := fun heq => (hfirst i' hi').2 (heq ▸ hj)
        rw [getD_set hi, if_neg hne]
        exact hsame i' (mem_cons_of_mem _ hi') j hj) horder
    refine hrest.trans ?_
    by_cases hji : j = i
    · have hnot : j ∉ l := fun hmem => (hfirst j hmem).1 hji
      rw [if_neg hnot, getD_set hi, if_pos hji, hji, if_pos mem_cons_self, hvalue]
    · rw [getD_set hi, if_neg hji]
      simp only [mem_cons, hji, false_or]

theorem getD_sweep_range (hn : n ≤ words.length)
    (hlocal : ∀ i < n, ∀ v, (∀ j, i ≤ j → v.getD j 0 = words.getD j 0) → f v i = f words i) :
    (sweep f (List.range n) words).getD j 0 = if j < n then f words j else words.getD j 0 := by
  have hsweep := getD_sweep (f := f) (v := words) (l := List.range n) (j := j)
    (r := fun i j => i ≤ j) rfl (fun i hi => Nat.lt_of_lt_of_le (mem_range.1 hi) hn)
    (fun i hi v _ => hlocal i (mem_range.1 hi) v) (fun _ _ _ _ => rfl)
    (List.pairwise_lt_range.imp fun hlt => ⟨Nat.ne_of_gt hlt, Nat.not_le.2 hlt⟩)
  simpa only [mem_range] using hsweep

theorem getD_sweep_reverse (hn : n ≤ words.length)
    (hlocal : ∀ i < n, ∀ v, (∀ j, j ≤ i → v.getD j 0 = words.getD j 0) → f v i = f words i) :
    (sweep f (List.range n).reverse words).getD j 0 = if j < n then f words j else words.getD j 0 := by
  have hsweep := getD_sweep (f := f) (v := words) (l := (List.range n).reverse) (j := j)
    (r := fun i j => j ≤ i) rfl
    (fun i hi => Nat.lt_of_lt_of_le (mem_range.1 (mem_reverse.1 hi)) hn)
    (fun i hi v _ => hlocal i (mem_range.1 (mem_reverse.1 hi)) v) (fun _ _ _ _ => rfl)
    (pairwise_reverse.2 (List.pairwise_lt_range.imp fun hlt => ⟨Nat.ne_of_lt hlt, Nat.not_le.2 hlt⟩))
  simpa only [mem_reverse, mem_range] using hsweep

end Mlang.WordBits
