import Mlang.SerdeRoundTrip

namespace Mlang.RepeatedTexts

open SerdeBuffers SerdeRoundTrip List

/-- A write of some bytes at an offset. -/
def store (block : List UInt8) (offset : Nat) (src : List UInt8) : Option (List UInt8) :=
  if offset + src.length ≤ block.length then some (memcpy block offset src) else none

variable {block x y out : List UInt8} {offset : Nat}

theorem store_eq (h : offset + x.length ≤ block.length) : store block offset x = some (memcpy block offset x) :=
  if_pos h

theorem memcpy_nil : memcpy block offset [] = block := by
  rw [memcpy, append_nil, length_nil, Nat.add_zero, take_append_drop]

theorem memcpy_memcpy (h : offset + x.length ≤ block.length) :
    memcpy (memcpy block offset x) (offset + x.length) y = memcpy block offset (x ++ y) := by
  have hstart : offset ≤ block.length := Nat.le_of_add_right_le h
  have hlength : (block.take offset ++ x).length = offset + x.length := by
    rw [length_append, length_take, Nat.min_eq_left hstart]
  have hdrop : (memcpy block offset x).drop (offset + x.length + y.length) =
      block.drop (offset + (x ++ y).length) := by
    rw [memcpy, ← drop_drop, ← hlength, drop_left, drop_drop, hlength, length_append, Nat.add_assoc]
  rw [memcpy, take_memcpy hstart, hdrop, memcpy]
  simp only [append_assoc]

theorem memcpy_whole (h : x.length = block.length) : memcpy block 0 x = x := by
  rw [memcpy, take_zero, nil_append, Nat.zero_add, h, drop_length, append_nil]

/-- The copy loop, with the place `w` that it writes to next. -/
def copies (s : List UInt8) : Nat → List UInt8 → Nat → Option (List UInt8)
  | 0, out, _ => some out
  | times + 1, out, w => (store out w s).bind fun out => copies s times out (w + s.length)

/-- A null pointer, a block with the size that was asked for and what it holds, or a write outside of it. -/
inductive Outcome
  | null
  | block (requested : Nat) (memory : List UInt8)
  | undefined
  deriving DecidableEq

def filled (libc : Libc) (size : Nat) (write : List UInt8 → Option (List UInt8)) : Outcome :=
  match malloc libc size with
  | none => .null
  | some out =>
    match write out with
    | none => .undefined
    | some memory => .block size memory

def strbufRepeat (libc : Libc) (s : Option (List UInt8)) (count : Int64) : Outcome :=
  if count ≤ 0 then filled libc 1 fun empty => store empty 0 [0]
  else
    match s with
    | none => .null
    | some s =>
      let n := strlen s
      let times := count.toUInt64.toNat
      let total := n * times % 2 ^ 64
      filled libc ((total + 1) % 2 ^ 64) fun out =>
        (copies (s.take n) times out 0).bind fun out => store out total [0]

def textOf (s : Option (List UInt8)) : List UInt8 :=
  match s with
  | none => []
  | some s => s.take (strlen s)

def Outcome.Repeats (text : List UInt8) (count : Nat) : Outcome → Prop
  | .null => True
  | .block requested memory =>
    requested = text.length * count + 1 ∧ memory = (List.replicate count text).flatten ++ [0]
  | .undefined => False

variable {libc : Libc} {s text : List UInt8} {size : Nat}
variable {times : Nat} {write : List UInt8 → Option (List UInt8)}

theorem copies_eq {w : Nat} {out : List UInt8} (h : w + s.length * times ≤ out.length) :
    copies s times out w = some (memcpy out w (List.replicate times s).flatten) := by
  induction times generalizing out w with
  | zero => rw [copies, replicate_zero, flatten_nil, memcpy_nil]
  | succ times ih =>
    rw [Nat.mul_succ] at h
    have hone : w + s.length ≤ out.length := by omega
    have hrest : w + s.length + s.length * times ≤ (memcpy out w s).length := by
      rw [length_memcpy hone]
      omega
    rw [copies, store_eq hone, Option.bind_some, ih hrest, memcpy_memcpy hone, replicate_succ,
      flatten_cons]

theorem filled_null (h : malloc libc size = none) : filled libc size write = .null := by
  rw [filled, h]

theorem filled_block {write : List UInt8 → Option (List UInt8)} (h : malloc libc size = some block) :
    filled libc size write = match write block with
      | none => .undefined
      | some memory => .block size memory := by
  rw [filled, h]

theorem requested_of_repeats (h : (filled libc size write).Repeats text times)
    (hblock : malloc libc size = some block) : size = text.length * times + 1 := by
  rw [filled_block hblock] at h
  cases hwrite : write block with
  | none =>
    rw [hwrite] at h
    exact h.elim
  | some memory =>
    rw [hwrite] at h
    exact h.1

theorem length_repeated (text : List UInt8) (times : Nat) :
    (List.replicate times text).flatten.length = text.length * times := by
  rw [length_flatten, map_replicate, sum_replicate, smul_eq_mul, Nat.mul_comm]

theorem copies_terminated (h : block.length = text.length * times + 1) :
    ((copies text times block 0).bind fun out => store out (text.length * times) [0]) =
    some ((List.replicate times text).flatten ++ [0]) := by
  have hlength := length_repeated text times
  have hcopies : 0 + text.length * times ≤ block.length := by omega
  have hplace : 0 + (List.replicate times text).flatten.length ≤ block.length := by omega
  have hlast : text.length * times + [(0 : UInt8)].length ≤
      (memcpy block 0 (List.replicate times text).flatten).length := by
    rw [length_memcpy hplace, h]
    rfl
  have hwhole : ((List.replicate times text).flatten ++ [(0 : UInt8)]).length = block.length := by
    rw [length_append, hlength, h]
    rfl
  rw [copies_eq hcopies, Option.bind_some, store_eq hlast]
  have hjoin := memcpy_memcpy (y := [0]) hplace
  rw [hlength, Nat.zero_add] at hjoin
  rw [hjoin, memcpy_whole hwhole]

theorem take_strlen (s : List UInt8) : s.take (strlen s) = textOf (some s) := rfl

theorem strlen_eq (s : List UInt8) : strlen s = (textOf (some s)).length := by
  rw [textOf, length_take]
  exact (Nat.min_eq_left (List.takeWhile_prefix _).length_le).symm

variable {count : Int64}

theorem repeats_empty (h : count ≤ 0) (s : Option (List UInt8)) :
    (strbufRepeat libc s count).Repeats (textOf s) count.toNatClampNeg := by
  have hcount : count.toNatClampNeg = 0 :=
    Int.toNat_of_nonpos (Int64.le_iff_toInt_le.1 h)
  unfold strbufRepeat
  rw [if_pos h, hcount]
  cases hblock : malloc libc 1 with
  | none =>
    rw [filled_null hblock]
    trivial
  | some empty =>
    have hlength := (malloc_eq hblock).2
    have hwhole : [(0 : UInt8)].length = empty.length := hlength.symm
    have hplace : 0 + [(0 : UInt8)].length ≤ empty.length := Nat.le_of_eq hwhole
    rw [filled_block hblock, store_eq hplace, memcpy_whole hwhole]
    exact ⟨rfl, rfl⟩

theorem repeats_fitting (h : ¬ count ≤ 0) (s : List UInt8)
    (hfits : (textOf (some s)).length * count.toNatClampNeg + 1 < 2 ^ 64) :
    (strbufRepeat libc (some s) count).Repeats (textOf (some s)) count.toNatClampNeg := by
  have hcount := Int64.toNat_toUInt64_of_le (Int64.le_of_lt (Int64.not_le.1 h))
  rw [strbufRepeat, if_neg h]
  dsimp only
  rw [take_strlen, strlen_eq, hcount, Nat.mod_eq_of_lt (Nat.lt_of_succ_lt hfits), Nat.mod_eq_of_lt hfits]
  cases hblock : malloc libc ((textOf (some s)).length * count.toNatClampNeg + 1) with
  | none =>
    rw [filled_null hblock]
    trivial
  | some out =>
    rw [filled_block hblock, copies_terminated (malloc_eq hblock).2]
    exact ⟨rfl, rfl⟩

theorem not_repeats_wrapped (h : ¬ count ≤ 0) (s : List UInt8)
    (hwraps : 2 ^ 64 ≤ (textOf (some s)).length * count.toNatClampNeg + 1)
    (hgrants : ∀ size, libc.grants size = true) :
    ¬ (strbufRepeat libc (some s) count).Repeats (textOf (some s)) count.toNatClampNeg := by
  have hcount := Int64.toNat_toUInt64_of_le (Int64.le_of_lt (Int64.not_le.1 h))
  rw [strbufRepeat, if_neg h]
  dsimp only
  rw [take_strlen, strlen_eq, hcount]
  intro hrepeats
  obtain ⟨out, hblock⟩ := exists_malloc (hgrants
    (((textOf (some s)).length * count.toNatClampNeg % 2 ^ 64 + 1) % 2 ^ 64))
  have hrequested := requested_of_repeats hrepeats hblock
  have hsmall := Nat.mod_lt ((textOf (some s)).length * count.toNatClampNeg % 2 ^ 64 + 1)
    (by decide : 0 < 2 ^ 64)
  omega

def generous : Libc := { grants := fun _ => true, fresh := fun _ => 0 }

/-- `repeat` allocates what it writes exactly where the size of its result fits a `size_t`. -/
theorem repeats_iff (s : Option (List UInt8)) (count : Int64) :
    (∀ libc, (strbufRepeat libc s count).Repeats (textOf s) count.toNatClampNeg) ↔
      (textOf s).length * count.toNatClampNeg + 1 < 2 ^ 64 := by
  by_cases h : count ≤ 0
  · have hcount : count.toNatClampNeg = 0 := Int.toNat_of_nonpos (Int64.le_iff_toInt_le.1 h)
    refine iff_of_true (fun libc => repeats_empty h s) ?_
    rw [hcount, Nat.mul_zero]
    decide
  cases s with
  | none =>
    refine iff_of_true (fun libc => ?_) ?_
    · unfold strbufRepeat
      rw [if_neg h]
      trivial
    · rw [textOf, length_nil, Nat.zero_mul]
      decide
  | some s =>
    constructor
    · intro hrepeats
      by_contra hwraps
      exact not_repeats_wrapped h s (Nat.le_of_not_lt hwraps) (fun _ => rfl) (hrepeats generous)
    · exact fun hfits libc => repeats_fitting h s hfits

/-- Four bytes repeated `2 ^ 62` times. -/
theorem not_repeats :
    ¬ ∀ (libc : Libc) (s : Option (List UInt8)) (count : Int64),
      (strbufRepeat libc s count).Repeats (textOf s) count.toNatClampNeg := by
  intro h
  have hrepeats := h generous (some [0x61, 0x62, 0x63, 0x64, 0]) 4611686018427387904
  exact not_repeats_wrapped (by decide) [0x61, 0x62, 0x63, 0x64, 0] (by decide) (fun _ => rfl) hrepeats

end Mlang.RepeatedTexts
