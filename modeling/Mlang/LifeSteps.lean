import Mlang.BitsetEffects

namespace Mlang.LifeSteps

open WordBits Bitsets BitsetBits BitsetLists List

def sizeT (x : Int) : Nat := (x % 2 ^ 64).toNat

def wrapped (extent : Nat) (n : Int) : Int :=
  if n < 0 then n + extent else if extent ≤ sizeT n then n - extent else n

def getBitWrapped (b : Bitset) (width height : Nat) (x y : Int) : Int :=
  if width = 0 ∨ height = 0 then 0
  else getBit b ((sizeT (wrapped height y) * width + sizeT (wrapped width x)) % 2 ^ 64)

def neighbors (current : Bitset) (w h x y : Nat) : Int :=
  getBitWrapped current w h (x - 1) (y - 1) + getBitWrapped current w h (x + 0) (y - 1) +
    getBitWrapped current w h (x + 1) (y - 1) + getBitWrapped current w h (x - 1) (y + 0) +
    getBitWrapped current w h (x + 1) (y + 0) + getBitWrapped current w h (x - 1) (y + 1) +
    getBitWrapped current w h (x + 0) (y + 1) + getBitWrapped current w h (x + 1) (y + 1)

def nextAlive (current : Bitset) (w h x y : Nat) : Bool :=
  if getBit current (y * w + x) = 1 then
    decide (neighbors current w h x y = 2 ∨ neighbors current w h x y = 3)
  else decide (neighbors current w h x y = 3)

def visit (current next w h : Nat) (state : List Bitset × Int) (x y : Nat) : List Bitset × Int :=
  match state.1[current]? with
  | none => state
  | some cells =>
    if nextAlive cells w h x y then
      (state.1.modify next fun b => (setBit b (y * w + x) 1).1, state.2 + 1)
    else state

/-- The bitsets of all handles after a step from the bitset of one handle to that of another. -/
def lifeStepToroidal (heap : List Bitset) (current next : Nat) (width height : Int) :
    List Bitset × Int :=
  match heap[current]?, heap[next]? with
  | some before, some after =>
    let w := width.toNat
    let h := height.toNat
    if width ≤ 0 ∨ height ≤ 0 then (heap, -1)
    else if w * h % 2 ^ 64 ≠ before.lenBits ∨ w * h % 2 ^ 64 ≠ after.lenBits then (heap, -1)
    else
      (List.range h).foldl (fun state y =>
        (List.range w).foldl (fun state x => visit current next w h state x y) state)
        (heap.modify next clearWords, 0)
  | _, _ => (heap, -1)

def offsets : List (Int × Int) :=
  [(-1, -1), (0, -1), (1, -1), (-1, 0), (1, 0), (-1, 1), (0, 1), (1, 1)]

def cell (b : Bitset) (w x y : Nat) : Bool := getBit b (y * w + x) = 1

def liveNeighbors (b : Bitset) (w h x y : Nat) : Nat :=
  offsets.countP fun d =>
    cell b w (((x : Int) + d.1) % w).toNat (((y : Int) + d.2) % h).toNat

def lifeRule (alive : Bool) (around : Nat) : Bool :=
  if alive then around = 2 || around = 3 else around = 3

variable {b : Bitset} {w h x y : Nat}

theorem wrapped_eq {extent : Nat} {n : Int} (hsmall : extent < 2 ^ 63)
    (hlow : -1 ≤ n) (hhigh : n ≤ extent) (hpos : 0 < extent) : wrapped extent n = n % extent := by
  unfold wrapped sizeT
  by_cases hneg : n < 0
  · obtain rfl : n = -1 := by omega
    rw [if_pos hneg, ← Int.add_emod_right]
    exact (Int.emod_eq_of_lt (by omega) (by omega)).symm
  · rw [if_neg hneg]
    by_cases hwrap : extent ≤ (n % 2 ^ 64).toNat
    · obtain rfl : n = extent := by omega
      rw [if_pos hwrap, Int.sub_self, Int.emod_self]
    · rw [if_neg hwrap]
      exact (Int.emod_eq_of_lt (by omega) (by omega)).symm

theorem index_lt {x y w h : Nat} (hx : x < w) (hy : y < h) : y * w + x < w * h :=
  calc
    y * w + x < y * w + w := by omega
    _ = (y + 1) * w := (Nat.succ_mul y w).symm
    _ ≤ h * w := Nat.mul_le_mul_right w hy
    _ = w * h := Nat.mul_comm h w

variable (hlen : b.lenBits = w * h)
include hlen

theorem getBit_cell (hx : x < w) (hy : y < h) :
    getBit b (y * w + x) = ofBit (cell b w x y) := by
  have hindex := index_lt hx hy
  rw [cell, getBit_eq (by omega)]
  by_cases hbit : bit b.words (y * w + x) = true
  · rw [if_pos hbit]
    rfl
  · rw [if_neg hbit]
    rfl

theorem getBitWrapped_eq (hsmall : w * h < 2 ^ 63) (hw : 0 < w)
    (hh : 0 < h) {i j : Int} (hi : -1 ≤ i ∧ i ≤ w) (hj : -1 ≤ j ∧ j ≤ h) :
    getBitWrapped b w h i j = ofBit (cell b w (i % w).toNat (j % h).toNat) := by
  have hwSmall : w < 2 ^ 63 := Nat.lt_of_le_of_lt (Nat.le_mul_of_pos_right w hh) hsmall
  have hhSmall : h < 2 ^ 63 := Nat.lt_of_le_of_lt (Nat.le_mul_of_pos_left h hw) hsmall
  have hx := Int.emod_nonneg i (by omega : (w : Int) ≠ 0)
  have hx' := Int.emod_lt_of_pos i (by omega : (0 : Int) < w)
  have hy := Int.emod_nonneg j (by omega : (h : Int) ≠ 0)
  have hy' := Int.emod_lt_of_pos j (by omega : (0 : Int) < h)
  have hsize : ∀ {n : Int}, 0 ≤ n → n < 2 ^ 63 → sizeT n = n.toNat := by
    intro n hlow hhigh
    rw [sizeT, Int.emod_eq_of_lt hlow (by omega)]
  have hindex := @index_lt (i % w).toNat (j % h).toNat w h (by omega) (by omega)
  rw [getBitWrapped, if_neg (by omega), wrapped_eq hwSmall hi.1 hi.2 hw,
    wrapped_eq hhSmall hj.1 hj.2 hh, hsize hx (by omega), hsize hy (by omega),
    Nat.mod_eq_of_lt (by omega), getBit_cell hlen (by omega) (by omega)]

theorem neighbors_eq (hsmall : w * h < 2 ^ 63) (hx : x < w) (hy : y < h) :
    neighbors b w h x y = liveNeighbors b w h x y := by
  have hbit : ∀ dx dy : Int, -1 ≤ dx ∧ dx ≤ 1 → -1 ≤ dy ∧ dy ≤ 1 →
      getBitWrapped b w h (x + dx) (y + dy) =
        ofBit (cell b w ((x + dx) % w).toNat ((y + dy) % h).toNat) := fun dx dy hdx hdy =>
    getBitWrapped_eq hlen hsmall (by omega) (by omega) (by omega) (by omega)
  have hcount : ∀ (p : Int × Int → Bool) (l : List (Int × Int)),
      (l.countP p : Int) = (l.map fun d => ofBit (p d)).sum := by
    intro p l
    induction l with
    | nil => rfl
    | cons d l ih =>
      rw [countP_cons, map_cons, sum_cons, ← ih, ofBit]
      split_ifs <;> omega
  rw [neighbors, liveNeighbors, hcount]
  simp only [offsets, map_cons, map_nil, sum_cons, sum_nil, Int.sub_eq_add_neg]
  rw [hbit (-1) (-1) (by decide) (by decide), hbit 0 (-1) (by decide) (by decide),
    hbit 1 (-1) (by decide) (by decide), hbit (-1) 0 (by decide) (by decide),
    hbit 1 0 (by decide) (by decide), hbit (-1) 1 (by decide) (by decide),
    hbit 0 1 (by decide) (by decide), hbit 1 1 (by decide) (by decide)]
  omega

theorem nextAlive_eq (hsmall : w * h < 2 ^ 63) (hx : x < w) (hy : y < h) :
    nextAlive b w h x y = lifeRule (cell b w x y) (liveNeighbors b w h x y) := by
  have hnow : getBit b (y * w + x) = 1 ↔ cell b w x y = true := decide_eq_true_iff.symm
  rw [nextAlive, neighbors_eq hlen hsmall hx hy, lifeRule]
  by_cases halive : cell b w x y = true
  · rw [if_pos (hnow.2 halive), if_pos halive, Bool.decide_or]
    norm_cast
  · rw [if_neg fun h => halive (hnow.1 h), if_neg halive]
    norm_cast

omit hlen

variable {σ : Type}

theorem foldl_rows (f : σ → Nat → Nat → σ) (w h : Nat) (state : σ) :
    (List.range h).foldl (fun state y => (List.range w).foldl (fun state x => f state x y) state) state =
      (List.range (h * w)).foldl (fun state i => f state (i % w) (i / w)) state := by
  induction h with
  | zero => rw [Nat.zero_mul]; rfl
  | succ h ih =>
    have hrow : ∀ state : σ, (List.range w).foldl (fun state x => f state x h) state =
        (List.range w).foldl (fun state x => f state ((h * w + x) % w) ((h * w + x) / w)) state := by
      intro state
      refine foldl_ext _ _ _ fun state x hx => ?_
      have hlt := List.mem_range.1 hx
      rw [Nat.mul_add_mod', Nat.mod_eq_of_lt hlt, Nat.mul_comm h w,
        Nat.mul_add_div (by omega), Nat.div_eq_of_lt hlt, Nat.add_zero]
    rw [range_succ, foldl_append, ih, foldl_cons, foldl_nil, Nat.succ_mul,
      range_add, foldl_append, foldl_map, hrow]

variable {heap : List Bitset} {before after : Bitset} {current next n : Nat}

/-- What holds when the first cells are done. -/
structure Stepped (heap : List Bitset) (before after : Bitset) (current next w h n : Nat)
    (state : List Bitset × Int) : Prop where
  others : ∀ k, k ≠ next → state.1[k]? = heap[k]?
  cells : ∃ b, state.1[next]? = some b ∧ Rewrites after (fun j =>
    if j < 64 * wordsForBits after.lenBits then
      decide (j < n) && nextAlive before w h (j % w) (j / w)
    else bit after.words j) b
  count : state.2 = (List.range n).countP fun i => nextAlive before w h (i % w) (i / w)

theorem stepped_zero (hafter : Sized after) (hnext : heap[next]? = some after) :
    Stepped heap before after current next w h 0 (heap.modify next clearWords, 0) := by
  have hsweep := sweepWords_rewrites (f := fun _ _ => 0) hafter fun _ _ _ _ => rfl
  refine ⟨fun k hk => ?_, ⟨clearWords after, ?_, hsweep.slots, hsweep.len, hsweep.cap, fun j => ?_⟩, rfl⟩
  · exact getElem?_modify_ne _ _ (Ne.symm hk)
  · dsimp only
    rw [getElem?_modify_eq, hnext]
    rfl
  · have hzero : BitVec.getLsbD (0 : Word) (j % 64) = false := BitVec.getLsbD_zero
    refine (hsweep.bits j).trans ?_
    rw [decide_eq_false (Nat.not_lt_zero j), Bool.false_and, hzero]

theorem Stepped.visit (hafter : Sized after) (hlen : after.lenBits = w * h) (hdistinct : current ≠ next)
    (hcurrent : heap[current]? = some before) (hn : n < w * h) {state : List Bitset × Int}
    (h' : Stepped heap before after current next w h n state) :
    Stepped heap before after current next w h (n + 1)
      (visit current next w h state (n % w) (n / w)) := by
  obtain ⟨b, hb, hrewrites⟩ := h'.cells
  have hread : state.1[current]? = some before := (h'.others current hdistinct).trans hcurrent
  have hindex : n / w * w + n % w = n := Nat.div_add_mod' n w
  have hwords := le_wordsForBits after.lenBits
  have hcount : (List.range (n + 1)).countP (fun i => nextAlive before w h (i % w) (i / w)) =
      (List.range n).countP (fun i => nextAlive before w h (i % w) (i / w)) +
        if nextAlive before w h (n % w) (n / w) then 1 else 0 := by
    rw [range_succ, countP_append, countP_singleton]
  rw [LifeSteps.visit, hread]
  dsimp only
  by_cases halive : nextAlive before w h (n % w) (n / w) = true
  · rw [if_pos halive, hindex]
    have hset := (setBit_rewrites (hrewrites.sized hafter) (by rw [hrewrites.len]; omega : n < b.lenBits)
      1).1
    refine ⟨fun k hk => ?_, ⟨(setBit b n 1).1, ?_, ?_, ?_, ?_, fun j => ?_⟩, ?_⟩
    · exact (getElem?_modify_ne _ _ (Ne.symm hk)).trans (h'.others k hk)
    · dsimp only
      rw [getElem?_modify_eq, hb]
      rfl
    · rw [hset.slots, hrewrites.slots]
    · rw [hset.len, hrewrites.len]
    · rw [hset.cap, hrewrites.cap]
    · rw [hset.bits, hrewrites.bits]
      by_cases hj : j = n
      · rw [if_pos hj, hj, if_pos (by omega), halive, decide_eq_true (Nat.lt_succ_self n)]
        rfl
      · rw [if_neg hj]
        refine if_congr Iff.rfl ?_ rfl
        exact congrArg (· && _) (decide_eq_decide.2 (by omega))
    · rw [hcount, if_pos halive, h'.count]
      norm_cast
  · rw [if_neg halive]
    refine ⟨h'.others, ⟨b, hb, hrewrites.slots, hrewrites.len, hrewrites.cap, fun j => ?_⟩, ?_⟩
    · rw [hrewrites.bits]
      refine if_congr Iff.rfl ?_ rfl
      by_cases hj : j = n
      · rw [hj, Bool.eq_false_iff.2 halive, Bool.and_false, Bool.and_false]
      · exact congrArg (· && _) (decide_eq_decide.2 (by omega))
    · rw [hcount, if_neg halive, h'.count, Nat.add_zero]

theorem stepped_foldl (hafter : Sized after) (hlen : after.lenBits = w * h) (hdistinct : current ≠ next)
    (hcurrent : heap[current]? = some before) (hnext : heap[next]? = some after) (hn : n ≤ w * h) :
    Stepped heap before after current next w h n ((List.range n).foldl
      (fun state i => visit current next w h state (i % w) (i / w)) (heap.modify next clearWords, 0)) := by
  induction n with
  | zero => exact stepped_zero hafter hnext
  | succ n ih =>
    rw [range_succ, foldl_append]
    exact (ih (Nat.le_of_succ_le hn)).visit hafter hlen hdistinct hcurrent hn

variable {width height : Int}

/-- A step leaves all bitsets but one alone, and that one has the next generation of the torus. -/
theorem lifeStepToroidal_torus (hcurrent : heap[current]? = some before)
    (hnext : heap[next]? = some after) (hdistinct : current ≠ next) (hafter : Sized after)
    (hwidth : 1 ≤ width) (hheight : 1 ≤ height) (hsmall : width * height < 2 ^ 63)
    (hbeforeLen : before.lenBits = width.toNat * height.toNat)
    (hafterLen : after.lenBits = width.toNat * height.toNat) :
    (lifeStepToroidal heap current next width height).1[current]? = some before ∧
      (∀ k, k ≠ next → (lifeStepToroidal heap current next width height).1[k]? = heap[k]?) ∧
      ∃ b, (lifeStepToroidal heap current next width height).1[next]? = some b ∧
        b.lenBits = width.toNat * height.toNat ∧
        (∀ x < width.toNat, ∀ y < height.toNat, getBit b (y * width.toNat + x) =
          ofBit (lifeRule (cell before width.toNat x y)
            (liveNeighbors before width.toNat height.toNat x y))) ∧
        (lifeStepToroidal heap current next width height).2 = (contents b).count true ∧
        (lifeStepToroidal heap current next width height).2 = countOnes b := by
  obtain ⟨w, rfl⟩ := Int.eq_ofNat_of_zero_le (by omega : 0 ≤ width)
  obtain ⟨h, rfl⟩ := Int.eq_ofNat_of_zero_le (by omega : 0 ≤ height)
  rw [Int.toNat_natCast, Int.toNat_natCast] at hbeforeLen hafterLen ⊢
  have hsize : w * h < 2 ^ 63 := by exact_mod_cast hsmall
  have hstep : lifeStepToroidal heap current next w h = (List.range (w * h)).foldl
      (fun state i => visit current next w h state (i % w) (i / w)) (heap.modify next clearWords, 0) := by
    rw [lifeStepToroidal, hcurrent, hnext]
    dsimp only
    rw [Int.toNat_natCast, Int.toNat_natCast, Nat.mod_eq_of_lt (by omega), if_neg (by omega),
      if_neg (by omega), foldl_rows, Nat.mul_comm h w]
  have hdone := stepped_foldl hafter hafterLen hdistinct hcurrent hnext (Nat.le_refl (w * h))
  rw [← hstep] at hdone
  obtain ⟨b, hb, hrewrites⟩ := hdone.cells
  have hlen : b.lenBits = w * h := hrewrites.len.trans hafterLen
  have hwords := le_wordsForBits after.lenBits
  have hbits : ∀ j < w * h, bit b.words j = nextAlive before w h (j % w) (j / w) := by
    intro j hj
    rw [hrewrites.bits, if_pos (by omega), decide_eq_true hj, Bool.true_and]
  have hclean : Clean b := by
    intro j hle hlt
    rw [hrewrites.len] at hle hlt
    rw [hrewrites.bits, if_pos hlt, decide_eq_false (by omega), Bool.false_and]
  have hcontents : (contents b).count true =
      (List.range (w * h)).countP fun i => nextAlive before w h (i % w) (i / w) := by
    rw [contents, firstBits, hlen, List.count, countP_map]
    refine countP_congr fun j hj => ?_
    rw [Function.comp_apply, hbits j (List.mem_range.1 hj), beq_iff_eq]
  have hrefines : Refines b (contents b) := ⟨hrewrites.sized hafter, by omega, hclean, rfl⟩
  refine ⟨(hdone.others current hdistinct).trans hcurrent, hdone.others, b, hb, hlen, ?_, ?_, ?_⟩
  · intro x hx y hy
    have hindex := index_lt hx hy
    have hx' : (y * w + x) % w = x := by rw [Nat.mul_add_mod', Nat.mod_eq_of_lt hx]
    have hy' : (y * w + x) / w = y := by
      rw [Nat.mul_comm y w, Nat.mul_add_div (by omega), Nat.div_eq_of_lt hx, Nat.add_zero]
    rw [getBit_eq (by omega), hbits _ hindex, hx', hy', nextAlive_eq hbeforeLen hsize hx hy]
    rfl
  · rw [hdone.count, hcontents]
  · rw [hdone.count, hrefines.countOnes_eq, hcontents]

def blinker : Bitset := { words := [0x3800#64], lenBits := 25, capBits := 64 }

def stale : Bitset := { words := [BitVec.allOnes 64], lenBits := 25, capBits := 64 }

theorem blinker_turns : (lifeStepToroidal [blinker, stale] 0 1 5 5).1[0]? = some blinker ∧
    ∃ b, (lifeStepToroidal [blinker, stale] 0 1 5 5).1[1]? = some b ∧ countOnes b = 3 := by
  have hthree : (lifeStepToroidal [blinker, stale] 0 1 5 5).2 = 3 := by decide +kernel
  obtain ⟨hkept, -, b, hb, -, -, -, hcount⟩ := @lifeStepToroidal_torus [blinker, stale] blinker stale
    0 1 5 5 rfl rfl (by decide) ⟨by decide, by decide⟩ (by decide) (by decide) (by decide) (by decide)
    (by decide)
  exact ⟨hkept, b, hb, hcount.symm.trans hthree⟩

end Mlang.LifeSteps
