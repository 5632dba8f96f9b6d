import Mlang.Bitsets

namespace Mlang.BitsetBits

open WordBits Bitsets

variable {w : Word} {i k n r : Nat}

theorem getLsbD_maskOf (idx k : Nat) : (maskOf idx).getLsbD k = decide (idx % 64 = k) := by
  have hlt : idx % 64 < 64 := Nat.mod_lt idx (by decide)
  rw [maskOf, ← BitVec.twoPow_eq, BitVec.getLsbD_twoPow, decide_eq_true hlt, Bool.true_and]

theorem and_maskOf_ne (w : Word) (idx : Nat) : w &&& maskOf idx ≠ 0 ↔ w.getLsbD (idx % 64) = true := by
  have hlt : idx % 64 < 64 := Nat.mod_lt idx (by decide)
  rw [maskOf, ← BitVec.twoPow_eq, BitVec.and_twoPow]
  by_cases hbit : w.getLsbD (idx % 64) = true
  · rw [if_pos hbit]
    refine ⟨fun _ => hbit, fun _ hzero => ?_⟩
    have hset := congrArg (BitVec.getLsbD · (idx % 64)) hzero
    rw [BitVec.getLsbD_twoPow, decide_eq_true hlt, decide_eq_true rfl] at hset
    exact absurd (hset.trans BitVec.getLsbD_zero) (by decide)
  · rw [if_neg hbit]
    exact ⟨fun h => absurd rfl h, fun h => absurd h hbit⟩

theorem getLsbD_tailMask (hr : r < 64) (k : Nat) : (1#64 <<< r - 1#64).getLsbD k = decide (k < r) := by
  have hpow : 2 ^ r < 2 ^ 64 := Nat.pow_lt_pow_right (by decide) hr
  have hpos : 0 < 2 ^ r := Nat.two_pow_pos r
  have hvalue : (1#64 <<< r - 1#64).toNat = 2 ^ r - 1 := by
    rw [← BitVec.twoPow_eq, BitVec.toNat_sub, BitVec.toNat_twoPow_of_lt hr, BitVec.toNat_ofNat]
    omega
  rw [BitVec.getLsbD, hvalue, Nat.testBit_two_pow_sub_one]

theorem word_eq_zero_iff (w : Word) : w = 0 ↔ ∀ k < 64, w.getLsbD k = false := by
  constructor
  · rintro rfl k _
    exact BitVec.getLsbD_zero
  · intro h
    refine BitVec.eq_of_getLsbD_eq fun k hk => ?_
    rw [h k hk]
    exact BitVec.getLsbD_zero.symm

variable {target next fuel m : Nat}

theorem le_wordsForBits (n : Nat) : n ≤ 64 * wordsForBits n := by
  unfold wordsForBits
  split <;> omega

theorem wordsForBits_lt (n : Nat) : 64 * wordsForBits n < n + 64 := by
  unfold wordsForBits
  split <;> omega

theorem wordsForBits_mono (h : m ≤ n) : wordsForBits m ≤ wordsForBits n := by
  have hm := wordsForBits_lt m
  have hn := le_wordsForBits n
  omega

theorem div_lt_wordsForBits (h : m < n) : m / 64 < wordsForBits n := by
  have hn := le_wordsForBits n
  omega

theorem le_doubledBits (htarget : target ≤ next * 2 ^ fuel) :
    target ≤ doubledBits target fuel next ∧ next ≤ doubledBits target fuel next := by
  induction fuel generalizing next with
  | zero =>
    rw [Nat.pow_zero, Nat.mul_one] at htarget
    exact ⟨htarget, Nat.le_refl next⟩
  | succ fuel ih =>
    rw [doubledBits]
    by_cases hsmall : next < target
    · rw [if_pos hsmall]
      by_cases hhalf : next > (2 ^ 64 - 1) / 2
      · rw [if_pos hhalf]
        exact ⟨Nat.le_refl target, Nat.le_of_lt hsmall⟩
      · rw [if_neg hhalf]
        have hdoubled : target ≤ next * 2 * 2 ^ fuel := by
          rwa [Nat.pow_succ, Nat.mul_comm (2 ^ fuel), ← Nat.mul_assoc] at htarget
        have hrest := ih hdoubled
        exact ⟨hrest.1, by omega⟩
    · rw [if_neg hsmall]
      exact ⟨Nat.not_lt.1 hsmall, Nat.le_refl next⟩

structure Sized (b : Bitset) : Prop where
  slots : b.words.length = wordsForBits b.capBits
  fits : b.lenBits ≤ b.capBits

def Clean (b : Bitset) : Prop :=
  ∀ j, b.lenBits ≤ j → j < 64 * wordsForBits b.lenBits → bit b.words j = false

def contents (b : Bitset) : List Bool := firstBits b.words b.lenBits

variable {b : Bitset} {idx : Nat} {value : Int}

theorem Sized.div_lt (h : Sized b) (hidx : idx < b.lenBits) : idx / 64 < b.words.length := by
  rw [h.slots]
  exact div_lt_wordsForBits (Nat.lt_of_lt_of_le hidx h.fits)

theorem Sized.words_le (h : Sized b) : wordsForBits b.lenBits ≤ b.words.length := by
  rw [h.slots]
  exact wordsForBits_mono h.fits

theorem length_contents (b : Bitset) : (contents b).length = b.lenBits := length_firstBits _ _

theorem getElem?_contents (b : Bitset) (j : Nat) :
    (contents b)[j]? = if j < b.lenBits then some (bit b.words j) else none :=
  getElem?_firstBits _ _ _

structure Extends (b : Bitset) (target : Nat) (b' : Bitset) : Prop where
  slots : b'.words.length = wordsForBits b'.capBits
  len : b'.lenBits = b.lenBits
  room : target ≤ b'.capBits
  keeps : b.capBits ≤ b'.capBits
  bits : ∀ j, bit b'.words j = bit b.words j

theorem ensureCapacity_extends (hslots : b.words.length = wordsForBits b.capBits)
    (htarget : target < 2 ^ 64) : Extends b target (ensureCapacity b target) := by
  rw [ensureCapacity]
  by_cases hroom : target ≤ b.capBits
  · rw [if_pos hroom]
    exact ⟨hslots, rfl, hroom, Nat.le_refl _, fun _ => rfl⟩
  · rw [if_neg hroom]
    have hpos : 0 < if b.capBits > 0 then b.capBits else 64 := by split <;> omega
    have hlarge : target ≤ (if b.capBits > 0 then b.capBits else 64) * 2 ^ 64 :=
      Nat.le_trans (Nat.le_of_lt htarget) (Nat.le_mul_of_pos_left _ hpos)
    have hdoubled := le_doubledBits hlarge
    have hkeeps : b.capBits ≤ doubledBits target 64 (if b.capBits > 0 then b.capBits else 64) := by
      omega
    refine ⟨?_, rfl, hdoubled.1, hkeeps, fun j => bit_append_replicate _ _ j⟩
    have hwords := wordsForBits_mono hkeeps
    rw [List.length_append, List.length_replicate, hslots]
    exact Nat.add_sub_cancel' hwords

structure Rewrites (b : Bitset) (f : Nat → Bool) (b' : Bitset) : Prop where
  slots : b'.words.length = b.words.length
  len : b'.lenBits = b.lenBits
  cap : b'.capBits = b.capBits
  bits : ∀ j, bit b'.words j = f j

theorem Rewrites.sized {f : Nat → Bool} {b' : Bitset} (h : Rewrites b f b') (hb : Sized b) : Sized b' where
  slots := by rw [h.slots, h.cap, hb.slots]
  fits := by rw [h.len, h.cap]; exact hb.fits

theorem setBit_rewrites (h : Sized b) (hidx : idx < b.lenBits) (value : Int) :
    Rewrites b (fun j => if j = idx then decide (value ≠ 0) else bit b.words j) (setBit b idx value).1 ∧
      (setBit b idx value).2 = 0 := by
  have hdiv := h.div_lt hidx
  have hmod : idx % 64 < 64 := Nat.mod_lt idx (by decide)
  rw [setBit, if_neg (Nat.not_le.2 hidx)]
  refine ⟨⟨List.length_set, rfl, rfl, fun j => ?_⟩, rfl⟩
  dsimp only
  rw [bit_set hdiv]
  by_cases hword : j / 64 = idx / 64
  · rw [if_pos hword]
    by_cases hvalue : value ≠ 0
    · rw [if_pos hvalue, BitVec.getLsbD_or, getLsbD_maskOf, decide_eq_true hvalue, bit, hword]
      by_cases hj : j = idx
      · rw [if_pos hj, hj, decide_eq_true rfl, Bool.or_true]
      · rw [if_neg hj, decide_eq_false (by omega), Bool.or_false]
    · rw [if_neg hvalue, BitVec.getLsbD_and, BitVec.getLsbD_not, getLsbD_maskOf,
        decide_eq_true (Nat.mod_lt j (by decide) : j % 64 < 64), decide_eq_false hvalue, bit, hword]
      by_cases hj : j = idx
      · rw [if_pos hj, hj, decide_eq_true rfl, Bool.true_and, Bool.not_true, Bool.and_false]
      · rw [if_neg hj, decide_eq_false (by omega), Bool.true_and, Bool.not_false, Bool.and_true]
  · have hj : j ≠ idx := fun heq => hword (heq ▸ rfl)
    rw [if_neg hword, if_neg hj]

theorem setBit_refused (hidx : b.lenBits ≤ idx) (value : Int) : setBit b idx value = (b, -1) :=
  if_pos hidx

theorem getBit_eq (hidx : idx < b.lenBits) : getBit b idx = if bit b.words idx then 1 else 0 := by
  rw [getBit, if_neg (Nat.not_le.2 hidx)]
  by_cases hbit : bit b.words idx = true
  · rw [if_pos ((and_maskOf_ne _ idx).2 hbit), if_pos hbit]
  · rw [if_neg fun hne => hbit ((and_maskOf_ne _ idx).1 hne), if_neg hbit]

theorem getBit_refused (hidx : b.lenBits ≤ idx) : getBit b idx = -1 := if_pos hidx

theorem maskTail_rewrites (h : Sized b) :
    Rewrites b (fun j => bit b.words j && decide (j < b.lenBits ∨ 64 * wordsForBits b.lenBits ≤ j))
      (maskTail b) := by
  have hlast := le_wordsForBits b.lenBits
  have hlast' := wordsForBits_lt b.lenBits
  have hwords := h.words_le
  rw [maskTail]
  by_cases hwhole : b.lenBits = 0 ∨ b.lenBits % 64 = 0
  · rw [if_pos hwhole]
    refine ⟨rfl, rfl, rfl, fun j => ?_⟩
    rw [decide_eq_true (by omega), Bool.and_true]
  · rw [if_neg hwhole]
    have hslot : wordsForBits b.lenBits - 1 < b.words.length := by omega
    refine ⟨List.length_set, rfl, rfl, fun j => ?_⟩
    dsimp only
    rw [bit_set hslot]
    by_cases hj : j / 64 = wordsForBits b.lenBits - 1
    · rw [if_pos hj, BitVec.getLsbD_and, getLsbD_tailMask (Nat.mod_lt _ (by decide)), bit, hj]
      exact congrArg _ (decide_eq_decide.2 (by omega))
    · rw [if_neg hj, decide_eq_true (by omega), Bool.and_true]

theorem maskTail_clean (h : Sized b) : Clean (maskTail b) := by
  have hmask := maskTail_rewrites h
  intro j hle hlt
  rw [hmask.len] at hle hlt
  rw [hmask.bits, decide_eq_false (by omega), Bool.and_false]

theorem maskTail_bit (h : Sized b) {j : Nat} (hj : j < b.lenBits) :
    bit (maskTail b).words j = bit b.words j := by
  rw [(maskTail_rewrites h).bits, decide_eq_true (Or.inl hj), Bool.and_true]

variable {f : List Word → Nat → Word}

theorem sweep_rewrites {order : List Nat} (hread : ∀ i, (sweep f order b.words).getD i 0 =
      if i < wordsForBits b.lenBits then f b.words i else b.words.getD i 0) :
    Rewrites b (fun j => if j < 64 * wordsForBits b.lenBits then (f b.words (j / 64)).getLsbD (j % 64)
      else bit b.words j) { b with words := sweep f order b.words } where
  slots := length_sweep _ _ _
  len := rfl
  cap := rfl
  bits j := by
    change ((sweep f order b.words).getD (j / 64) 0).getLsbD (j % 64) = _
    rw [hread]
    by_cases hj : j < 64 * wordsForBits b.lenBits
    · rw [if_pos (by omega), if_pos hj]
    · rw [if_neg (by omega), if_neg hj, bit]

theorem sweepWords_rewrites (h : Sized b)
    (hlocal : ∀ i < wordsForBits b.lenBits, ∀ ws : List Word,
      (∀ j, i ≤ j → ws.getD j 0 = b.words.getD j 0) → f ws i = f b.words i) :
    Rewrites b (fun j => if j < 64 * wordsForBits b.lenBits then (f b.words (j / 64)).getLsbD (j % 64)
      else bit b.words j) (sweepWords f b) :=
  sweep_rewrites fun _ => getD_sweep_range h.words_le hlocal

theorem sweepReverse_rewrites (h : Sized b)
    (hlocal : ∀ i < wordsForBits b.lenBits, ∀ ws : List Word,
      (∀ j, j ≤ i → ws.getD j 0 = b.words.getD j 0) → f ws i = f b.words i) :
    Rewrites b (fun j => if j < 64 * wordsForBits b.lenBits then (f b.words (j / 64)).getLsbD (j % 64)
      else bit b.words j)
      { b with words := sweep f (List.range (wordsForBits b.lenBits)).reverse b.words } :=
  sweep_rewrites fun _ => getD_sweep_reverse h.words_le hlocal

end Mlang.BitsetBits
