import Mathlib.Data.Nat.Bitwise
import Mathlib.Data.Nat.Size
import Mathlib.Tactic.Ring

namespace Mlang.BitCounts

open Option (bind_eq_bind bind_some map_some)
open List Bool

def shl (value amount : Nat) : Option Nat := if amount < 64 then some ((value <<< amount) % 2 ^ 64) else none

def shr (value amount : Nat) : Option Nat := if amount < 64 then some (value >>> amount) else none

def popcountFrom (value count : Nat) : Nat :=
  if value = 0 then count else popcountFrom (value &&& (value - 1)) (count + 1)
termination_by value
decreasing_by exact lt_of_le_of_lt Nat.and_le_right (by omega)

def popcount (value : Nat) : Nat := popcountFrom value 0

def hasSingleBit (value : Nat) : Bool := value ≠ 0 && value &&& (value - 1) = 0

def bitWidthFrom (value width : Nat) : Nat :=
  if value = 0 then width else bitWidthFrom (value >>> 1) (width + 1)
termination_by value
decreasing_by rw [Nat.shiftRight_one]; omega

def bitWidth (value : Nat) : Nat := bitWidthFrom value 0

def countlZeroFrom (value mask count : Nat) : Nat :=
  if mask ≠ 0 ∧ value &&& mask = 0 then countlZeroFrom value (mask >>> 1) (count + 1) else count
termination_by mask
decreasing_by rw [Nat.shiftRight_one]; omega

def countlZero (width value : Nat) : Option Nat := do
  let mask ← shl 1 (width - 1)
  pure (countlZeroFrom value mask 0)

def countrZeroFrom (value count : Nat) : Option Nat :=
  if value = 0 then none
  else if value &&& 1 = 0 then countrZeroFrom (value >>> 1) (count + 1)
  else some count
termination_by value
decreasing_by rw [Nat.shiftRight_one]; omega

def countrZero (width value : Nat) : Option Nat :=
  if value = 0 then some width else countrZeroFrom value 0

def widthMask (width : Nat) : Option Nat := do
  let bit ← shl 1 width
  pure (bit - 1)

/-- The complement is by `~` for 64 bits, and by the mask for less. -/
def complement (width value : Nat) : Option Nat :=
  if width = 64 then some (value ^^^ (2 ^ 64 - 1)) else (widthMask width).map (value ^^^ ·)

def countlOne (width value : Nat) : Option Nat := do
  let flipped ← complement width value
  countlZero width flipped

def countrOne (width value : Nat) : Option Nat := do
  let flipped ← complement width value
  countrZero width flipped

def bitFloorFrom (value floor : Nat) : Nat :=
  if value >>> 1 = 0 then floor else bitFloorFrom (value >>> 1) ((floor <<< 1) % 2 ^ 64)
termination_by value
decreasing_by rw [Nat.shiftRight_one] at *; omega

def bitFloor (value : Nat) : Nat := if value = 0 then 0 else bitFloorFrom value 1

def smear (value amount : Nat) : Nat := value ||| value >>> amount

def bitCeil64 (value : Nat) : Nat :=
  if value ≤ 1 then 1
  else (smear (smear (smear (smear (smear (smear (value - 1) 1) 2) 4) 8) 16) 32 + 1) % 2 ^ 64

def bitCeilFrom (mask value ceil : Nat) : Option Nat :=
  if ceil < value ∧ ceil ≤ mask >>> 1 then
    if ceil = 0 then none else bitCeilFrom mask value (ceil <<< 1)
  else some ceil
termination_by value - ceil
decreasing_by rw [Nat.shiftLeft_eq]; omega

def bitCeilWidth (width value : Nat) : Option Nat := do
  let mask ← widthMask width
  if value ≤ 1 then pure 1
  else
    let ceil ← bitCeilFrom mask value 1
    pure (if ceil < value then 0 else ceil)

def bitCeil (width value : Nat) : Option Nat :=
  if width = 64 then some (bitCeil64 value) else bitCeilWidth width value

def normalizeRotation (width : Nat) (shift : Int) : Nat :=
  let amount := shift.tmod width
  (if amount < 0 then amount + width else amount).toNat

def rotated (value left right : Nat) : Option Nat := do
  let high ← shl value left
  let low ← shr value right
  pure (high ||| low)

def rotl64 (value : Nat) (shift : Int) : Option Nat :=
  let amount := normalizeRotation 64 shift
  if amount = 0 then some value else rotated value amount (64 - amount)

def rotr64 (value : Nat) (shift : Int) : Option Nat :=
  let amount := normalizeRotation 64 shift
  if amount = 0 then some value else rotated value (64 - amount) amount

def rotlWidth (width value : Nat) (shift : Int) : Option Nat := do
  let amount := normalizeRotation width shift
  let mask ← widthMask width
  if amount = 0 then pure (value &&& mask)
  else
    let bits ← rotated value amount (width - amount)
    pure (bits &&& mask)

def rotrWidth (width value : Nat) (shift : Int) : Option Nat := do
  let amount := normalizeRotation width shift
  let mask ← widthMask width
  if amount = 0 then pure (value &&& mask)
  else
    let bits ← rotated value (width - amount) amount
    pure (bits &&& mask)

def rotl (width value : Nat) (shift : Int) : Option Nat :=
  if width = 64 then rotl64 value shift else rotlWidth width value shift

def rotr (width value : Nat) (shift : Int) : Option Nat :=
  if width = 64 then rotr64 value shift else rotrWidth width value shift

variable {v u w k c : Nat}

def string (w v : Nat) : List Bool := (List.range w).map v.testBit

theorem string_cons (w v : Nat) : string (w + 1) v = v.testBit 0 :: string w (v / 2) := by
  rw [string, range_succ_eq_map, map_cons, map_map]
  exact congrArg _ (map_congr_left fun i _ => Nat.testBit_succ v i)

theorem string_snoc (w v : Nat) : string (w + 1) v = string w v ++ [v.testBit w] := by
  rw [string, range_succ, map_append]
  rfl

theorem string_double (w u : Nat) (b : Bool) : string (w + 1) (Nat.bit b u) = b :: string w u := by
  rw [string_cons, Nat.testBit_bit_zero, Nat.bit_div_two]

theorem bit_lt {b : Bool} (h : Nat.bit b u < 2 ^ (w + 1)) : u < 2 ^ w := by
  rw [Nat.bit_val, Nat.pow_succ] at h
  omega

/-- The lowest bit that is set is cleared. -/
theorem clear_lowest (h : v ≠ 0) (hv : v < 2 ^ w) :
    (string w v).count true = (string w (v &&& (v - 1))).count true + 1 := by
  induction w generalizing v with
  | zero => omega
  | succ w ih =>
    obtain ⟨b, u, rfl⟩ : ∃ b u, v = Nat.bit b u := ⟨v.testBit 0, v / 2, (Nat.bit_testBit_zero_shiftRight_one v).symm⟩
    cases b with
    | true =>
      have hpred : Nat.bit true u - 1 = Nat.bit false u := by simp only [Nat.bit_val]; rfl
      rw [hpred, Nat.land_bit, Nat.and_self, string_double, string_double, count_cons_self, Bool.and_false,
        count_cons_of_ne (by decide)]
    | false =>
      have hu : u ≠ 0 := fun hu => h (by rw [hu]; rfl)
      have hpred : Nat.bit false u - 1 = Nat.bit true (u - 1) := by
        simp only [Nat.bit_val, toNat_false, toNat_true]
        omega
      rw [hpred, Nat.land_bit, string_double, string_double]
      exact ih hu (bit_lt hv)

theorem popcountFrom_eq (hv : v < 2 ^ w) : popcountFrom v c = c + (string w v).count true := by
  fun_induction popcountFrom v c with
  | case1 c =>
    have hzero : (string w 0).count true = 0 := by
      refine List.count_eq_zero.2 fun h => ?_
      obtain ⟨i, -, hi⟩ := List.mem_map.1 h
      rw [Nat.zero_testBit] at hi
      cases hi
    rw [hzero, Nat.add_zero]
  | case2 v c hne ih =>
    rw [ih (lt_of_le_of_lt Nat.and_le_left hv), clear_lowest hne hv]
    omega

theorem count_eq_zero (hv : v < 2 ^ w) : (string w v).count true = 0 ↔ v = 0 := by
  constructor
  · intro h
    by_contra hne
    rw [clear_lowest hne hv] at h
    omega
  · rintro rfl
    have hzero := popcountFrom_eq (c := 0) (Nat.two_pow_pos w)
    rw [popcountFrom, if_pos rfl] at hzero
    omega

theorem hasSingleBit_iff (hv : v < 2 ^ w) : hasSingleBit v = true ↔ (string w v).count true = 1 := by
  rw [hasSingleBit, and_eq_true, decide_eq_true_iff, decide_eq_true_iff]
  by_cases hne : v = 0
  · rw [(count_eq_zero hv).2 hne]
    exact iff_of_false (fun h => h.1 hne) (by decide)
  · rw [clear_lowest hne hv, and_iff_right hne, ← count_eq_zero (lt_of_le_of_lt Nat.and_le_left hv)]
    omega

theorem size_half (h : v ≠ 0) : v.size = (v / 2).size + 1 := by
  have hlt := Nat.lt_size_self (v / 2)
  refine le_antisymm (Nat.size_le.2 (by rw [Nat.pow_succ]; omega)) (Nat.lt_size.2 ?_)
  cases hs : (v / 2).size with
  | zero => rw [Nat.pow_zero]; omega
  | succ k =>
    have hle : 2 ^ k ≤ v / 2 := Nat.lt_size.1 (by omega)
    rw [Nat.pow_succ]
    omega

theorem bitWidthFrom_eq : bitWidthFrom v c = c + v.size := by
  fun_induction bitWidthFrom v c with
  | case1 c => rw [Nat.size_zero, Nat.add_zero]
  | case2 v c h ih => rw [ih, size_half h, Nat.shiftRight_one]; omega

theorem bitFloorFrom_eq (h : v ≠ 0) (hfit : c * 2 ^ (v.size - 1) < 2 ^ 64) :
    bitFloorFrom v c = c * 2 ^ (v.size - 1) := by
  fun_induction bitFloorFrom v c with
  | case1 v c hhalf =>
    rw [Nat.shiftRight_one] at hhalf
    rw [size_half h, hhalf, Nat.size_zero, Nat.pow_zero, Nat.mul_one]
  | case2 v c hhalf ih =>
    rw [Nat.shiftRight_one] at hhalf ih
    have hpos : 0 < (v / 2).size := Nat.size_pos.2 (by omega)
    have hsize : v.size - 1 = (v / 2).size - 1 + 1 := by rw [size_half h]; omega
    have hpow : 2 ^ (v.size - 1) = 2 ^ ((v / 2).size - 1) * 2 := by rw [hsize, Nat.pow_succ]
    have hone : 1 ≤ 2 ^ ((v / 2).size - 1) := Nat.one_le_two_pow
    rw [hpow] at hfit ⊢
    generalize 2 ^ ((v / 2).size - 1) = p at *
    have hle : c * 2 ≤ c * (p * 2) := Nat.mul_le_mul_left c (by omega)
    have hdouble : (c <<< 1) % 2 ^ 64 = c * 2 := by
      rw [Nat.shiftLeft_eq, Nat.pow_one, Nat.mod_eq_of_lt (by omega)]
    have hassoc : c * 2 * p = c * (p * 2) := by ring
    rw [hdouble, hassoc] at ih
    rw [Nat.shiftRight_one, hdouble, ih hhalf hfit]

theorem bitFloor_eq (hv : v < 2 ^ 64) : bitFloor v = if v = 0 then 0 else 2 ^ (v.size - 1) := by
  unfold bitFloor
  split_ifs with h
  · rfl
  · have hle : 2 ^ (v.size - 1) ≤ v := Nat.lt_size.1 (by have := Nat.size_pos.2 (Nat.pos_of_ne_zero h); omega)
    rw [bitFloorFrom_eq h (by omega), Nat.one_mul]

def leading (w v : Nat) : Nat := ((string w v).reverse.takeWhile (!·)).length

def trailing (w v : Nat) : Nat := ((string w v).takeWhile (!·)).length

theorem leading_succ (w v : Nat) : leading (w + 1) v = if v.testBit w then 0 else leading w v + 1 := by
  rw [leading, string_snoc, reverse_append, reverse_singleton, singleton_append, takeWhile_cons]
  cases v.testBit w <;> rfl

theorem trailing_succ (w v : Nat) : trailing (w + 1) v = if v.testBit 0 then 0 else trailing w (v / 2) + 1 := by
  rw [trailing, string_cons, takeWhile_cons]
  cases v.testBit 0 <;> rfl

theorem countlZeroFrom_eq : countlZeroFrom v (2 ^ k) c = c + leading (k + 1) v := by
  induction k generalizing c with
  | zero =>
    rw [countlZeroFrom, leading_succ, Nat.and_two_pow]
    cases v.testBit 0 with
    | true => rfl
    | false =>
      rw [countlZeroFrom]
      rfl
  | succ k ih =>
    have hpos := Nat.two_pow_pos (k + 1)
    rw [countlZeroFrom, leading_succ, Nat.and_two_pow]
    cases v.testBit (k + 1) with
    | true => rw [if_neg (by rw [toNat_true]; omega)]; rfl
    | false =>
      rw [if_pos ⟨by omega, Nat.zero_mul _⟩, Nat.shiftRight_one, Nat.pow_succ, Nat.mul_div_cancel _ (by decide), ih]
      exact Nat.add_right_comm c 1 _

theorem countrZeroFrom_eq (h : v ≠ 0) (hv : v < 2 ^ w) : countrZeroFrom v c = some (c + trailing w v) := by
  induction w generalizing v c with
  | zero => omega
  | succ w ih =>
    rw [countrZeroFrom, if_neg h, trailing_succ, Nat.and_one_is_mod, Nat.testBit_zero]
    rw [Nat.pow_succ] at hv
    by_cases hodd : v % 2 = 1
    · rw [if_neg (by omega), if_pos (decide_eq_true hodd), Nat.add_zero]
    · rw [if_pos (by omega), if_neg (by rw [decide_eq_true_iff]; exact hodd), Nat.shiftRight_one,
        ih (by omega) (by omega)]
      exact congrArg some (by omega)

theorem size_add_leading (hv : v < 2 ^ w) : v.size + leading w v = w := by
  induction w with
  | zero =>
    obtain rfl : v = 0 := by rw [Nat.pow_zero] at hv; omega
    rfl
  | succ w ih =>
    rw [leading_succ]
    split_ifs with hbit
    · have hge := Nat.lt_size.2 (Nat.ge_two_pow_of_testBit hbit)
      have hle := Nat.size_le.2 hv
      omega
    · have hlt : v < 2 ^ w := by
        by_contra hge
        exact hbit (Nat.testBit_of_two_pow_le_and_two_pow_add_one_gt (not_lt.1 hge) hv)
      have hsum := ih hlt
      omega

variable {x y n d : Nat}

theorem testBit_smear (h : ∀ i, y.testBit i = true ↔ ∃ j < n, x.testBit (i + j) = true) (i : Nat) :
    (smear y n).testBit i = true ↔ ∃ j < n + n, x.testBit (i + j) = true := by
  rw [smear, Nat.testBit_or, Nat.testBit_shiftRight, or_eq_true, h, h]
  constructor
  · rintro (⟨j, hj, hbit⟩ | ⟨j, hj, hbit⟩)
    · exact ⟨j, by omega, hbit⟩
    · exact ⟨n + j, by omega, by rwa [show i + (n + j) = n + i + j by omega]⟩
  · rintro ⟨j, hj, hbit⟩
    rcases lt_or_ge j n with hlt | hge
    · exact .inl ⟨j, hlt, hbit⟩
    · exact .inr ⟨j - n, by omega, by rwa [show n + i + (j - n) = i + j by omega]⟩

/-- All bits below the highest one are set. -/
theorem smeared (hx : x < 2 ^ 64) :
    smear (smear (smear (smear (smear (smear x 1) 2) 4) 8) 16) 32 = 2 ^ x.size - 1 := by
  have hone : ∀ i, x.testBit i = true ↔ ∃ j < 1, x.testBit (i + j) = true := fun i =>
    ⟨fun h => ⟨0, by omega, h⟩, fun ⟨j, hj, h⟩ => by obtain rfl : j = 0 := by omega
                                                     exact h⟩
  have hall := testBit_smear (testBit_smear (testBit_smear (testBit_smear (testBit_smear (testBit_smear hone)))))
  refine Nat.eq_of_testBit_eq fun i => Bool.eq_iff_iff.2 ((hall i).trans ?_)
  rw [Nat.testBit_two_pow_sub_one, decide_eq_true_iff]
  constructor
  · rintro ⟨j, -, hbit⟩
    have hsize := Nat.lt_size.2 (Nat.ge_two_pow_of_testBit hbit)
    omega
  · intro hi
    have hsize := Nat.size_le.2 hx
    refine ⟨x.size - 1 - i, by omega, ?_⟩
    rw [show i + (x.size - 1 - i) = x.size - 1 by omega]
    refine Nat.testBit_of_two_pow_le_and_two_pow_add_one_gt (Nat.lt_size.1 (by omega)) ?_
    rw [show x.size - 1 + 1 = x.size by omega]
    exact Nat.lt_size_self x

def ceiling (w v : Nat) : Nat := if (v - 1).size < w then 2 ^ (v - 1).size else 0

theorem bitCeil64_eq (hv : v < 2 ^ 64) : bitCeil64 v = ceiling 64 v := by
  unfold bitCeil64 ceiling
  have hle := Nat.size_le.2 (by omega : v - 1 < 2 ^ 64)
  split_ifs with hsmall hfit hfit
  · rw [show v - 1 = 0 by omega]
    rfl
  · rw [show v - 1 = 0 by omega] at hfit
    exact absurd (by decide) hfit
  · have hpow := Nat.pow_lt_pow_right (by decide : 1 < 2) hfit
    rw [smeared (by omega), Nat.sub_add_cancel Nat.one_le_two_pow, Nat.mod_eq_of_lt hpow]
  · rw [smeared (by omega), show (v - 1).size = 64 by omega]
    exact Nat.mod_self _

theorem bitCeilFrom_eq (hv : 1 < v) (hk : k + d = min (v - 1).size (w - 1)) :
    bitCeilFrom (2 ^ w - 1) v (2 ^ k) = some (2 ^ min (v - 1).size (w - 1)) := by
  have hpos := Nat.two_pow_pos k
  have hhalf : w ≠ 0 → (2 ^ w - 1) >>> 1 = 2 ^ (w - 1) - 1 := fun hw => by
    obtain ⟨w, rfl⟩ := Nat.exists_eq_succ_of_ne_zero hw
    rw [Nat.shiftRight_one, Nat.succ_eq_add_one, Nat.pow_succ, Nat.add_sub_cancel]
    omega
  have hbelow : 2 ^ k < v ↔ k < (v - 1).size := by
    rw [Nat.lt_size]
    omega
  induction d generalizing k with
  | zero =>
    rw [bitCeilFrom, if_neg, ← hk, Nat.add_zero]
    rintro ⟨hlt, hle⟩
    have hk' := hbelow.1 hlt
    by_cases hw : w = 0
    · subst hw
      rw [Nat.pow_zero] at hle
      omega
    · rw [hhalf hw, show k = w - 1 by omega] at hle
      have := Nat.two_pow_pos (w - 1)
      omega
  | succ d ih =>
    have hpow : 2 ^ k < 2 ^ (w - 1) := Nat.pow_lt_pow_right (by decide) (by omega)
    have hlt : 2 ^ k < v := hbelow.2 (by omega)
    have hpos' := Nat.two_pow_pos (k + 1)
    rw [bitCeilFrom, if_pos ⟨hlt, by rw [hhalf (by omega)]; omega⟩, if_neg (by omega), Nat.shiftLeft_eq, Nat.pow_one,
      ← Nat.pow_succ]
    exact ih (by omega) hpos' (by rw [Nat.lt_size]; omega)

theorem shl_one (h : k < 64) : shl 1 k = some (2 ^ k) := by
  rw [shl, if_pos h, Nat.shiftLeft_eq, Nat.one_mul, Nat.mod_eq_of_lt (Nat.pow_lt_pow_right (by decide) h)]

theorem widthMask_eq (h : w < 64) : widthMask w = some (2 ^ w - 1) := by
  rw [widthMask, shl_one h]
  rfl

theorem bitCeil_eq (hw : 0 < w) (hw' : w ≤ 64) (hv : v < 2 ^ w) : bitCeil w v = some (ceiling w v) := by
  unfold bitCeil
  split_ifs with h64
  · subst h64
    rw [bitCeil64_eq hv]
  · have hle := Nat.size_le.2 (by omega : v - 1 < 2 ^ w)
    rw [bitCeilWidth, widthMask_eq (by omega), bind_eq_bind, bind_some, ceiling]
    by_cases hsmall : v ≤ 1
    · rw [if_pos hsmall, show v - 1 = 0 by omega, Nat.size_zero, if_pos hw]
      rfl
    · have hone : 1 < v := by omega
      have hfrom := bitCeilFrom_eq (w := w) hone (Nat.zero_add (min (v - 1).size (w - 1)))
      have hbelow : 2 ^ min (v - 1).size (w - 1) < v ↔ min (v - 1).size (w - 1) < (v - 1).size := by
        rw [Nat.lt_size]
        omega
      rw [Nat.pow_zero] at hfrom
      rw [if_neg hsmall, hfrom, bind_some]
      split_ifs with hlt hfit hfit
      · have := hbelow.1 hlt
        omega
      · rfl
      · rw [min_eq_left (by omega)]
        rfl
      · have := mt hbelow.2 hlt
        omega

theorem complement_eq (hw : w ≤ 64) : complement w v = some (v ^^^ (2 ^ w - 1)) := by
  unfold complement
  split_ifs with h64
  · rw [h64]
  · rw [widthMask_eq (by omega), map_some]

theorem string_complement : string w (v ^^^ (2 ^ w - 1)) = (string w v).map (!·) := by
  rw [string, string, map_map]
  refine map_congr_left fun i hi => ?_
  rw [Nat.testBit_xor, Nat.testBit_two_pow_sub_one, decide_eq_true (List.mem_range.1 hi), Function.comp_apply,
    Bool.xor_true]

theorem countlZero_eq (hw : 0 < w) (hw' : w ≤ 64) : countlZero w v = some (leading w v) := by
  obtain ⟨w, rfl⟩ := Nat.exists_eq_succ_of_ne_zero hw.ne'
  rw [countlZero, Nat.succ_eq_add_one, Nat.add_sub_cancel, shl_one (by omega), bind_eq_bind, bind_some,
    countlZeroFrom_eq, Nat.zero_add]
  rfl

theorem countrZero_eq (hv : v < 2 ^ w) : countrZero w v = some (trailing w v) := by
  unfold countrZero
  split_ifs with h
  · subst h
    refine congrArg some ?_
    clear hv
    induction w with
    | zero => rfl
    | succ w ih =>
      rw [trailing_succ, Nat.zero_testBit, Nat.zero_div, ← ih]
      rfl
  · rw [countrZeroFrom_eq h hv, Nat.zero_add]

section Rotations

variable {v w n m x y : Nat} {s : Int}

/-- The bit string turned by `n` places. -/
structure Turned (w v n x : Nat) : Prop where
  lt : x < 2 ^ w
  bits : ∀ i < w, x.testBit i = v.testBit ((i + n) % w)

theorem Turned.back (hv : v < 2 ^ w) (h : Turned w v n x) (h' : Turned w x m y) (hnm : n + m = w) : y = v := by
  refine Nat.eq_of_testBit_eq fun i => ?_
  rcases lt_or_ge i w with hi | hi
  · rw [h'.bits i hi, h.bits _ (Nat.mod_lt _ (by omega)), Nat.mod_add_mod, show i + m + n = i + w by omega,
      Nat.add_mod_right, Nat.mod_eq_of_lt hi]
  · have hpow := Nat.pow_le_pow_right (by decide : 0 < 2) hi
    rw [Nat.testBit_lt_two_pow (h'.lt.trans_le hpow), Nat.testBit_lt_two_pow (hv.trans_le hpow)]

theorem turned_self (hv : v < 2 ^ w) (h : n = 0 ∨ n = w) : Turned w v n v where
  lt := hv
  bits i hi := by
    rcases h with rfl | rfl
    · rw [Nat.add_zero, Nat.mod_eq_of_lt hi]
    · rw [Nat.add_mod_right, Nat.mod_eq_of_lt hi]

/-- The two shifts, or-ed and cut to the width. -/
theorem exists_rotated (hw : w ≤ 64) (hv : v < 2 ^ w) (hn : 0 < n) (hnw : n < w) :
    ∃ x, rotated v (w - n) n = some x ∧ x < 2 ^ 64 ∧ Turned w v n (x % 2 ^ w) := by
  have hv' : v < 2 ^ 64 := hv.trans_le (Nat.pow_le_pow_right (by decide) hw)
  refine ⟨(v <<< (w - n)) % 2 ^ 64 ||| v >>> n, ?_, ?_, Nat.mod_lt _ (Nat.two_pow_pos w), fun i hi => ?_⟩
  · rw [rotated, shl, if_pos (by omega), shr, if_pos (by omega)]
    rfl
  · refine Nat.or_lt_two_pow (Nat.mod_lt _ (Nat.two_pow_pos 64)) (lt_of_le_of_lt ?_ hv')
    rw [Nat.shiftRight_eq_div_pow]
    exact Nat.div_le_self _ _
  · rw [Nat.testBit_mod_two_pow, decide_eq_true hi, Bool.true_and, Nat.testBit_or, Nat.testBit_mod_two_pow,
      decide_eq_true (by omega : i < 64), Bool.true_and, Nat.testBit_shiftLeft, Nat.testBit_shiftRight]
    rcases lt_or_ge i (w - n) with hlow | hhigh
    · rw [decide_eq_false (by omega), Bool.false_and, Bool.false_or, Nat.add_comm, Nat.mod_eq_of_lt (by omega)]
    · have hover : v.testBit (n + i) = false :=
        Nat.testBit_lt_two_pow (hv.trans_le (Nat.pow_le_pow_right (by decide) (by omega)))
      rw [decide_eq_true hhigh, Bool.true_and, hover, Bool.or_false, show i + n = i - (w - n) + w by omega,
        Nat.add_mod_right, Nat.mod_eq_of_lt (by omega)]

theorem normalizeRotation_eq (hw : 0 < w) : (normalizeRotation w s : Int) = s % w := by
  have hpos := Int.emod_nonneg s (by omega : (w : Int) ≠ 0)
  have hlt := Int.emod_lt_of_pos s (by omega : (0 : Int) < w)
  have htmod := Int.tmod_eq_emod (a := s) (b := w)
  unfold normalizeRotation
  simp only [htmod]
  split_ifs <;> omega

theorem normalizeRotation_lt (hw : 0 < w) : normalizeRotation w s < w := by
  have heq := normalizeRotation_eq (s := s) hw
  have hlt := Int.emod_lt_of_pos s (by omega : (0 : Int) < w)
  omega

variable {l : Nat} (hv : v < 2 ^ w) (hsum : l + m = w) (hzero : n = 0 → m = 0 ∨ m = w) (hpos : n ≠ 0 → 0 < m ∧ m < w)
include hv hsum hzero hpos

theorem exists_wide (hw : w = 64) :
    ∃ x, (if n = 0 then some v else rotated v l m) = some x ∧ Turned w v m x := by
  obtain rfl : l = w - m := by omega
  split_ifs with h
  · exact ⟨v, rfl, turned_self hv (hzero h)⟩
  · obtain ⟨x, hx, hlt, hturned⟩ := exists_rotated (by omega) hv (hpos h).1 (hpos h).2
    exact ⟨x, hx, by rwa [hw, Nat.mod_eq_of_lt hlt, ← hw] at hturned⟩

theorem exists_narrow (hw : w < 64) :
    ∃ x, (do
      let mask ← widthMask w
      if n = 0 then pure (v &&& mask)
      else
        let bits ← rotated v l m
        pure (bits &&& mask)) = some x ∧ Turned w v m x := by
  obtain rfl : l = w - m := by omega
  rw [widthMask_eq hw, bind_eq_bind, bind_some]
  split_ifs with h
  · refine ⟨v, ?_, turned_self hv (hzero h)⟩
    rw [Nat.and_two_pow_sub_one_eq_mod, Nat.mod_eq_of_lt hv]
    rfl
  · obtain ⟨x, hx, -, hturned⟩ := exists_rotated (by omega) hv (hpos h).1 (hpos h).2
    refine ⟨_, ?_, hturned⟩
    rw [hx, bind_some, Nat.and_two_pow_sub_one_eq_mod]
    rfl

omit hsum hzero hpos

theorem exists_rotl (hw : 0 < w) (hw' : w ≤ 64) :
    ∃ x, rotl w v s = some x ∧ Turned w v (w - normalizeRotation w s) x := by
  have hlt := normalizeRotation_lt (s := s) hw
  unfold rotl
  split_ifs with h
  · subst h
    exact exists_wide hv (Nat.add_sub_cancel' hlt.le) (fun _ => by omega) (fun _ => by omega) rfl
  · exact exists_narrow hv (Nat.add_sub_cancel' hlt.le) (fun _ => by omega) (fun _ => by omega) (by omega)

theorem exists_rotr (hw : 0 < w) (hw' : w ≤ 64) :
    ∃ x, rotr w v s = some x ∧ Turned w v (normalizeRotation w s) x := by
  have hlt := normalizeRotation_lt (s := s) hw
  unfold rotr
  split_ifs with h
  · subst h
    exact exists_wide hv (Nat.sub_add_cancel hlt.le) (fun _ => by omega) (fun _ => by omega) rfl
  · exact exists_narrow hv (Nat.sub_add_cancel hlt.le) (fun _ => by omega) (fun _ => by omega) (by omega)

end Rotations

variable {s : Int}

structure Agrees (w v : Nat) (s : Int) : Prop where
  popcount_eq : popcount v = (string w v).count true
  countlZero_eq : countlZero w v = some ((string w v).reverse.takeWhile (!·)).length
  countrZero_eq : countrZero w v = some ((string w v).takeWhile (!·)).length
  countlOne_eq : countlOne w v = some ((string w v).reverse.takeWhile id).length
  countrOne_eq : countrOne w v = some ((string w v).takeWhile id).length
  bitWidth_least : v < 2 ^ bitWidth v ∧ ∀ n, v < 2 ^ n → bitWidth v ≤ n
  hasSingleBit_iff : hasSingleBit v = true ↔ (string w v).count true = 1
  bitFloor_greatest : if v = 0 then bitFloor v = 0
    else ∃ k, bitFloor v = 2 ^ k ∧ 2 ^ k ≤ v ∧ ∀ n, 2 ^ n ≤ v → n ≤ k
  bitCeil_least : ∃ k, v ≤ 2 ^ k ∧ (∀ n, v ≤ 2 ^ n → k ≤ n) ∧ bitCeil w v = some (if 2 ^ k < 2 ^ w then 2 ^ k else 0)
  width_sum : (countlZero w v).map (bitWidth v + ·) = some w
  rotl_rotr : ∃ n : Nat, (n : Int) = s % w ∧ ∃ x, rotl w v s = some x ∧ Turned w v (w - n) x ∧ rotr w x s = some v

theorem length_takeWhile_not (l : List Bool) : ((l.map (!·)).takeWhile (!·)).length = (l.takeWhile id).length := by
  rw [takeWhile_map, length_map]
  exact congrArg (fun p => (l.takeWhile p).length) (funext not_not)

/-- Every operation agrees with its definition, at each of the widths and for every amount. -/
theorem bits_agree (w v : Nat) (s : Int) (hw : w = 8 ∨ w = 16 ∨ w = 32 ∨ w = 64) (hv : v < 2 ^ w) :
    Agrees w v s := by
  have hw' : 0 < w ∧ w ≤ 64 := by omega
  have hv' : v < 2 ^ 64 := hv.trans_le (Nat.pow_le_pow_right (by decide) hw'.2)
  have hwidth : bitWidth v = v.size := by rw [bitWidth, bitWidthFrom_eq, Nat.zero_add]
  have hflip : v ^^^ (2 ^ w - 1) < 2 ^ w := Nat.xor_lt_two_pow hv (Nat.sub_lt (Nat.two_pow_pos w) (by decide))
  refine ⟨?_, countlZero_eq hw'.1 hw'.2, countrZero_eq hv, ?_, ?_, ?_, hasSingleBit_iff hv, ?_, ?_, ?_, ?_⟩
  · rw [popcount, popcountFrom_eq hv, Nat.zero_add]
  · rw [countlOne, complement_eq hw'.2, bind_eq_bind, bind_some, countlZero_eq hw'.1 hw'.2, leading,
      string_complement, ← map_reverse, length_takeWhile_not]
  · rw [countrOne, complement_eq hw'.2, bind_eq_bind, bind_some, countrZero_eq hflip, trailing,
      string_complement, length_takeWhile_not]
  · rw [hwidth]
    exact ⟨Nat.lt_size_self v, fun n hn => Nat.size_le.2 hn⟩
  · rw [bitFloor_eq hv']
    split_ifs with h
    · rfl
    · have hpos := Nat.size_pos.2 (Nat.pos_of_ne_zero h)
      refine ⟨v.size - 1, rfl, Nat.lt_size.1 (by omega), fun n hn => ?_⟩
      have := Nat.lt_size.2 hn
      omega
  · have hlt := Nat.lt_size_self (v - 1)
    refine ⟨(v - 1).size, by omega, fun n hn => Nat.size_le.2 ?_, ?_⟩
    · have := Nat.two_pow_pos n
      omega
    · rw [bitCeil_eq hw'.1 hw'.2 hv, ceiling]
      exact congrArg some (if_congr (Nat.pow_lt_pow_iff_right (by decide)).symm rfl rfl)
  · rw [hwidth, countlZero_eq hw'.1 hw'.2, map_some, size_add_leading hv]
  · obtain ⟨x, hx, hturned⟩ := exists_rotl (s := s) hv hw'.1 hw'.2
    obtain ⟨y, hy, hback⟩ := exists_rotr (s := s) hturned.lt hw'.1 hw'.2
    have hlt := normalizeRotation_lt (s := s) hw'.1
    refine ⟨_, normalizeRotation_eq hw'.1, x, hx, hturned, ?_⟩
    rw [hy, hturned.back hv hback (by omega)]

theorem bits_agree_byte : Agrees 8 0xA5 (-2 ^ 63) := bits_agree 8 0xA5 (-2 ^ 63) (by decide) (by decide)

end Mlang.BitCounts
