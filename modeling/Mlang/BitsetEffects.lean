import Mlang.BitsetBits

namespace Mlang.BitsetLists

open WordBits Bitsets BitsetBits List

def IsBit (value : Int) : Prop := value = 0 ∨ value = 1

instance (value : Int) : Decidable (IsBit value) := inferInstanceAs (Decidable (_ ∨ _))

def ofBit (v : Bool) : Int := if v then 1 else 0

def atIndex (l : List Bool) (index : Int) : Option Bool := if index < 0 then none else l[index.toNat]?

def getList (l : List Bool) (index : Int) : Int :=
  match atIndex l index with
  | some v => ofBit v
  | none => -1

def resizeList (l : List Bool) (n : Nat) (fill : Bool) : List Bool :=
  l.take n ++ List.replicate (n - l.length) fill

def shiftLeftList (l : List Bool) (n : Nat) : List Bool :=
  (List.replicate (min n l.length) false ++ l).take l.length

def shiftRightList (l : List Bool) (n : Nat) : List Bool :=
  l.drop n ++ List.replicate (min n l.length) false

def valueOf (l : List Bool) : Nat := l.foldr (fun v n => 2 * n + v.toNat) 0

def fitsList (l : List Bool) : Int := if true ∈ l.drop 64 then 0 else 1

def toU64List (l : List Bool) : Word := if true ∈ l.drop 64 then 0 else BitVec.ofNat 64 (valueOf l)

structure Observes (b : Bitset) (l : List Bool) : Prop where
  len : len b = l.length
  get : ∀ index : I64, Bitsets.get b index.toInt = getList l index.toInt
  ones : countOnes b = l.count true
  fits : fitsU64 b = fitsList l
  value : toU64 b = toU64List l

structure Refines (b : Bitset) (l : List Bool) : Prop extends Sized b where
  small : b.lenBits < 2 ^ 63
  clean : Clean b
  contents : contents b = l

variable {b : Bitset} {l : List Bool} {n : Nat}

theorem int64T_of_lt (h : n < 2 ^ 63) : int64T n = n := by
  have hvalue : (BitVec.ofNat 64 n).toNat = n := by
    rw [BitVec.toNat_ofNat]
    exact Nat.mod_eq_of_lt (by omega)
  rw [int64T, BitVec.toInt_eq_toNat_of_lt (by rw [hvalue]; omega), hvalue]

theorem Refines.length (h : Refines b l) : l.length = b.lenBits := by
  rw [← h.contents, length_contents]

theorem Refines.getElem? (h : Refines b l) (j : Nat) :
    l[j]? = if j < b.lenBits then some (bit b.words j) else none := by
  rw [← h.contents, getElem?_contents]

theorem Refines.get_eq (h : Refines b l) (index : Int) : Bitsets.get b index = getList l index := by
  rw [Bitsets.get, getList, atIndex]
  by_cases hneg : index < 0
  · rw [if_pos hneg, if_pos hneg]
  · rw [if_neg hneg, if_neg hneg, h.getElem?]
    by_cases hlt : index.toNat < b.lenBits
    · rw [if_pos hlt, getBit_eq hlt]
      rfl
    · rw [if_neg hlt, getBit_refused (Nat.not_lt.1 hlt)]

/-- How many bits are set in the words. -/
theorem countWords_contents (b : Bitset) :
    countWords b.words (wordsForBits b.lenBits) = (contents b).count true +
      (List.range (64 * wordsForBits b.lenBits - b.lenBits)).countP
        fun j => bit b.words (b.lenBits + j) := by
  have hsum : b.lenBits + (64 * wordsForBits b.lenBits - b.lenBits) = 64 * wordsForBits b.lenBits :=
    Nat.add_sub_cancel' (le_wordsForBits b.lenBits)
  rw [countWords_eq, ← hsum, countP_bit_add, hsum]
  rfl

theorem Refines.countOnes_eq (h : Refines b l) : countOnes b = l.count true := by
  have hrest : (List.range (64 * wordsForBits b.lenBits - b.lenBits)).countP
      (fun j => bit b.words (b.lenBits + j)) = 0 := by
    refine countP_eq_zero.2 fun j hj => ?_
    have hlt := mem_range.1 hj
    rw [h.clean (b.lenBits + j) (by omega) (by omega)]
    exact Bool.false_ne_true
  have hle : l.count true ≤ l.length := count_le_length
  have hlength := h.length
  have hsmall := h.small
  rw [countOnes, countWords_contents, hrest, h.contents, Nat.add_zero, Nat.mod_eq_of_lt (by omega),
    int64T_of_lt (by omega)]

theorem Refines.exists_word_iff (h : Refines b l) :
    (∃ i, 1 ≤ i ∧ i < wordsForBits b.lenBits ∧ b.words.getD i 0 ≠ 0) ↔ true ∈ l.drop 64 := by
  constructor
  · rintro ⟨i, hi, hlt, hword⟩
    obtain ⟨k, hk, hbit⟩ : ∃ k < 64, (b.words.getD i 0).getLsbD k = true := by
      by_contra hnone
      push Not at hnone
      exact hword ((word_eq_zero_iff _).2 fun k hk => Bool.eq_false_iff.2 (hnone k hk))
    have hat : bit b.words (64 * i + k) = true := by
      have hdiv : (64 * i + k) / 64 = i := by omega
      have hmod : (64 * i + k) % 64 = k := by omega
      rwa [bit, hdiv, hmod]
    have hinside : 64 * i + k < b.lenBits := by
      by_contra hbehind
      rw [h.clean _ (Nat.not_lt.1 hbehind) (by omega)] at hat
      cases hat
    refine mem_of_getElem? (i := 64 * i + k - 64) ?_
    have hindex : 64 + (64 * i + k - 64) = 64 * i + k := by omega
    rw [getElem?_drop, hindex, h.getElem?, if_pos hinside, hat]
  · intro hmem
    obtain ⟨j, hj⟩ := getElem?_of_mem hmem
    rw [getElem?_drop, h.getElem?] at hj
    by_cases hinside : 64 + j < b.lenBits
    · rw [if_pos hinside, Option.some.injEq] at hj
      refine ⟨(64 + j) / 64, by omega, div_lt_wordsForBits hinside, fun hzero => ?_⟩
      rw [bit, hzero] at hj
      exact Bool.false_ne_true (BitVec.getLsbD_zero.symm.trans hj)
    · rw [if_neg hinside] at hj
      cases hj

theorem Refines.fits_eq (h : Refines b l) : fitsU64 b = fitsList l := by
  rw [fitsU64, fitsList]
  refine if_congr ?_ rfl rfl
  rw [any_eq_true, ← h.exists_word_iff]
  constructor
  · rintro ⟨i, hi, hword⟩
    obtain ⟨hle, hlt⟩ := mem_range'_1.1 hi
    exact ⟨i, hle, by omega, of_decide_eq_true hword⟩
  · rintro ⟨i, hle, hlt, hword⟩
    exact ⟨i, mem_range'_1.2 ⟨hle, by omega⟩, decide_eq_true hword⟩

theorem testBit_valueOf (l : List Bool) (k : Nat) : (valueOf l).testBit k = (l[k]?).getD false := by
  induction l generalizing k with
  | nil => exact Nat.zero_testBit k
  | cons v l ih =>
    cases k with
    | zero =>
      rw [getElem?_cons_zero, Option.getD_some, Nat.testBit_zero]
      cases v <;> simp [valueOf]
    | succ k =>
      have hdiv : valueOf (v :: l) / 2 = valueOf l := by
        change (2 * valueOf l + v.toNat) / 2 = _
        have hlt := Bool.toNat_lt v
        omega
      rw [getElem?_cons_succ, Nat.testBit_succ, hdiv, ih]

theorem Refines.toU64_eq (h : Refines b l) : toU64 b = toU64List l := by
  rw [toU64, h.fits_eq, fitsList, toU64List]
  by_cases hmem : true ∈ l.drop 64
  · rw [if_pos hmem, if_pos rfl, if_pos hmem]
  · rw [if_neg hmem, if_neg (by decide), if_neg hmem]
    have hwords := le_wordsForBits b.lenBits
    by_cases hnone : wordsForBits b.lenBits = 0
    · have hnil : l = [] := eq_nil_of_length_eq_zero (by rw [h.length]; omega)
      rw [if_pos hnone, hnil]
      rfl
    · rw [if_neg hnone]
      refine BitVec.eq_of_getLsbD_eq fun k hk => ?_
      rw [BitVec.getLsbD_ofNat, decide_eq_true hk, Bool.true_and, testBit_valueOf, h.getElem?]
      have hword : (b.words.getD 0 0).getLsbD k = bit b.words k := by
        rw [bit, Nat.div_eq_of_lt hk, Nat.mod_eq_of_lt hk]
      rw [hword]
      by_cases hinside : k < b.lenBits
      · rw [if_pos hinside, Option.getD_some]
      · rw [if_neg hinside, Option.getD_none]
        exact h.clean k (Nat.not_lt.1 hinside) (by omega)

theorem Refines.observes (h : Refines b l) : Observes b l where
  len := by rw [len, int64T_of_lt h.small, h.length]
  get index := h.get_eq index.toInt
  ones := h.countOnes_eq
  fits := h.fits_eq
  value := h.toU64_eq

end Mlang.BitsetLists

namespace Mlang.BitsetEffects

open WordBits Bitsets BitsetBits BitsetLists List
open BitVec (getLsbD_of_ge getLsbD_or getLsbD_shiftLeft getLsbD_ushiftRight getLsbD_zero)

inductive Op
  | clear
  | resize (newLen : I64) (fillBit : I32)
  | set (index : I64) (value : I32)
  | get (index : I64)
  | toggle (index : I64)
  | push (value : I32)
  | pop
  | setAll
  | reset
  | notEq
  | shiftLeft (amount : I64)
  | shiftRight (amount : I64)
  deriving DecidableEq

def onBitset (b : Bitset) : Op → Bitset × Int
  | .clear => clear b
  | .resize newLen fillBit => resize b newLen.toInt fillBit.toInt
  | .set index value => set b index.toInt value.toInt
  | .get index => (b, Bitsets.get b index.toInt)
  | .toggle index => toggle b index.toInt
  | .push value => push b value.toInt
  | .pop => pop b
  | .setAll => setAll b
  | .reset => reset b
  | .notEq => notEq b
  | .shiftLeft amount => shiftLeft b amount.toInt
  | .shiftRight amount => shiftRight b amount.toInt

def onList (l : List Bool) : Op → List Bool × Int
  | .clear => ([], 0)
  | .resize newLen fillBit =>
    if newLen.toInt < 0 ∨ ¬ IsBit fillBit.toInt then (l, -1)
    else (resizeList l newLen.toInt.toNat (fillBit.toInt = 1), 0)
  | .set index value =>
    if ¬ IsBit value.toInt then (l, -1)
    else
      match atIndex l index.toInt with
      | some _ => (l.set index.toInt.toNat (value.toInt = 1), 0)
      | none => (l, -1)
  | .get index => (l, getList l index.toInt)
  | .toggle index =>
    match atIndex l index.toInt with
    | some v => (l.set index.toInt.toNat (!v), 0)
    | none => (l, -1)
  | .push value => if ¬ IsBit value.toInt then (l, -1) else (l ++ [decide (value.toInt = 1)], 0)
  | .pop =>
    match l.getLast? with
    | some v => (l.dropLast, ofBit v)
    | none => (l, -1)
  | .setAll => (l.map fun _ => true, 0)
  | .reset => (l.map fun _ => false, 0)
  | .notEq => (l.map fun v => !v, 0)
  | .shiftLeft amount =>
    if amount.toInt < 0 then (l, -1) else (shiftLeftList l amount.toInt.toNat, 0)
  | .shiftRight amount =>
    if amount.toInt < 0 then (l, -1) else (shiftRightList l amount.toInt.toNat, 0)

variable {b : Bitset} {value : Int} {l l' : List Bool} {n : Nat} {b' : Bitset} {f : Nat → Bool}
  {idx : Nat}

theorem refines_of_rewrites (h : Refines b l) (hb : Rewrites b f b') (hlen : l'.length = b.lenBits)
    (hbits : ∀ j < b.lenBits, l'[j]? = some (f j)) (hclean : Clean b') : Refines b' l' where
  toSized := hb.sized h.toSized
  small := hb.len ▸ h.small
  clean := hclean
  contents := by
    refine (eq_firstBits ?_ fun j hj => ?_).symm
    · rw [hb.len, hlen]
    · rw [hb.bits, hbits j (hb.len ▸ hj)]

theorem refines_maskTail (hb : Sized b) (hsmall : b.lenBits < 2 ^ 63) (hlen : l.length = b.lenBits)
    (hbits : ∀ j < b.lenBits, l[j]? = some (bit b.words j)) : Refines (maskTail b) l := by
  have hmask := maskTail_rewrites hb
  refine ⟨hmask.sized hb, hmask.len ▸ hsmall, maskTail_clean hb, ?_⟩
  refine (eq_firstBits (hmask.len ▸ hlen) fun j hj => ?_).symm
  rw [hmask.len] at hj
  rw [maskTail_bit hb hj, hbits j hj]

variable (h : Refines b l)
include h

theorem refines_masked (hb : Rewrites b f b') (hlen : l'.length = b.lenBits)
    (hbits : ∀ j < b.lenBits, l'[j]? = some (f j)) : Refines (maskTail b') l' := by
  refine refines_maskTail (hb.sized h.toSized) (hb.len ▸ h.small) (hb.len ▸ hlen) fun j hj => ?_
  rw [hb.bits, hbits j (hb.len ▸ hj)]

theorem refines_clear : Refines (clear b).1 [] where
  slots := h.slots
  fits := Nat.zero_le _
  small := Nat.two_pow_pos 63
  clean := fun _ _ hlt => absurd hlt (Nat.not_lt_zero _)
  contents := rfl

theorem refines_setBit (hidx : idx < b.lenBits) (value : Int) :
    Refines (setBit b idx value).1 (l.set idx (value ≠ 0)) := by
  have hset := (setBit_rewrites h.toSized hidx value).1
  refine refines_of_rewrites h hset ?_ (fun j hj => ?_) fun j hle hlt => ?_
  · rw [length_set, h.length]
  · rw [getElem?_set, h.length, h.getElem?, if_pos hj]
    by_cases hji : idx = j
    · rw [if_pos hji, if_pos hidx, if_pos hji.symm]
    · rw [if_neg hji, if_neg (Ne.symm hji)]
  · rw [hset.len] at hle hlt
    rw [hset.bits, if_neg (by omega), h.clean j hle hlt]

theorem refines_clearWords : Refines (clearWords b) (l.map fun _ => false) := by
  have hsweep := sweepWords_rewrites (f := fun _ _ => 0) h.toSized fun _ _ _ _ => rfl
  refine refines_of_rewrites h hsweep ?_ (fun j hj => ?_) fun j _ hlt => ?_
  · rw [length_map, h.length]
  · have hle := le_wordsForBits b.lenBits
    rw [getElem?_map, h.getElem?, if_pos hj, if_pos (by omega), Option.map_some]
    exact congrArg some BitVec.getLsbD_zero.symm
  · refine (hsweep.bits j).trans ?_
    rw [if_pos (hsweep.len ▸ hlt)]
    exact getLsbD_zero

theorem refines_mapWords {g : Bool → Bool} {f : List Word → Nat → Word} (hlocal : ∀ i ws, ws.getD i 0 = b.words.getD i 0 → f ws i = f b.words i)
    (hword : ∀ i, ∀ k < 64, (f b.words i).getLsbD k = g ((b.words.getD i 0).getLsbD k)) :
    Refines (maskTail (sweepWords f b)) (l.map g) := by
  have hsweep := sweepWords_rewrites (f := f) h.toSized fun i _ ws hws => hlocal i ws (hws i (Nat.le_refl i))
  refine refines_masked h hsweep ?_ fun j hj => ?_
  · rw [length_map, h.length]
  · have hle := le_wordsForBits b.lenBits
    rw [getElem?_map, h.getElem?, if_pos hj, if_pos (by omega), Option.map_some,
      hword _ _ (Nat.mod_lt j (by decide)), bit]

theorem refines_setAll : Refines (setAll b).1 (l.map fun _ => true) :=
  refines_mapWords h (fun _ _ _ => rfl) fun _ k hk => by rw [BitVec.getLsbD_allOnes, decide_eq_true hk]

theorem refines_notEq : Refines (notEq b).1 (l.map fun v => !v) :=
  refines_mapWords h (fun _ _ hws => by rw [hws]) fun _ k hk => by
    rw [BitVec.getLsbD_not, decide_eq_true hk, Bool.true_and]

omit h

variable {fillBit : Int} {j : Nat}

theorem sized_of_extends {target : Nat} (h : Extends b target b') (hn : n ≤ target) :
    Sized { b' with lenBits := n } where
  slots := h.slots
  fits := Nat.le_trans hn h.room

theorem fillBits_rewrites (hb : Sized b) (hn : n = 0 ∨ idx + n ≤ b.lenBits) (value : Int) :
    Rewrites b (fun j => if idx ≤ j ∧ j < idx + n then decide (value ≠ 0) else bit b.words j)
      ((List.range' idx n).foldl (fun b i => (setBit b i value).1) b) := by
  induction n generalizing idx b with
  | zero =>
    refine ⟨rfl, rfl, rfl, fun j => ?_⟩
    rw [if_neg (by omega)]
    rfl
  | succ n ih =>
    have hset := (setBit_rewrites hb (by omega : idx < b.lenBits) value).1
    have hbelow : n = 0 ∨ idx + 1 + n ≤ (setBit b idx value).1.lenBits := by
      rw [hset.len]
      omega
    have hrest := ih (hset.sized hb) hbelow
    rw [range'_succ, foldl_cons]
    refine ⟨hrest.slots.trans hset.slots, hrest.len.trans hset.len, hrest.cap.trans hset.cap,
      fun j => ?_⟩
    rw [hrest.bits, hset.bits]
    by_cases hj : j = idx
    · rw [if_neg (by omega), if_pos hj, if_pos (by omega)]
    · rw [if_neg hj]
      exact if_congr (by omega) rfl rfl

theorem getElem?_resizeList (h : Refines b l) (fill : Bool) (hj : j < n) :
    (resizeList l n fill)[j]? = some (if j < b.lenBits then bit b.words j else fill) := by
  rw [resizeList, getElem?_append, length_take, h.length]
  by_cases hold : j < b.lenBits
  · rw [if_pos (by omega), getElem?_take, if_pos hj, h.getElem?, if_pos hold, if_pos hold]
  · rw [if_neg (by omega), getElem?_replicate, if_pos (by omega), if_neg hold]

theorem length_resizeList (l : List Bool) (n : Nat) (fill : Bool) : (resizeList l n fill).length = n := by
  rw [resizeList, length_append, length_take, length_replicate]
  omega

theorem bit_ne_zero (h : IsBit fillBit) : decide (fillBit ≠ 0) = decide (fillBit = 1) := by
  obtain rfl | rfl := h <;> rfl

theorem refines_resize (h : Refines b l) {newLen : Int} (hneg : ¬ newLen < 0) (hsmall : newLen < 2 ^ 63)
    (hbit : IsBit fillBit) : Refines (resize b newLen fillBit).1 (resizeList l newLen.toNat (fillBit = 1)) ∧
    (resize b newLen fillBit).2 = 0 := by
  have hrefused : ¬ (fillBit ≠ 0 ∧ fillBit ≠ 1) := by
    rintro ⟨hzero, hone⟩
    exact hbit.elim hzero hone
  have hextends := ensureCapacity_extends h.slots (by omega : newLen.toNat < 2 ^ 64)
  have hsized : Sized { ensureCapacity b newLen.toNat with lenBits := newLen.toNat } :=
    sized_of_extends hextends (Nat.le_refl _)
  have hfill := fillBits_rewrites hsized
    (show newLen.toNat - b.lenBits = 0 ∨ b.lenBits + (newLen.toNat - b.lenBits) ≤ newLen.toNat by omega) fillBit
  rw [resize, if_neg hneg, if_neg hrefused]
  refine ⟨refines_maskTail (hfill.sized hsized) ?_ ?_ fun j hj => ?_, rfl⟩
  · rw [hfill.len]
    exact (by omega : newLen.toNat < 2 ^ 63)
  · rw [hfill.len, length_resizeList]
  · rw [hfill.len] at hj
    rw [getElem?_resizeList h _ hj, hfill.bits, hextends.bits, bit_ne_zero hbit]
    by_cases hold : j < b.lenBits
    · rw [if_pos hold, if_neg (by omega)]
    · have hnew : j < newLen.toNat := hj
      rw [if_neg hold, if_pos (by omega)]

def StartsFresh (b : Bitset) : Prop :=
  b.lenBits + 1 < 2 ^ 63 ∧ (b.lenBits % 64 = 0 → b.words.getD (b.lenBits / 64) 0 >>> 1 = 0)

instance (b : Bitset) : Decidable (StartsFresh b) := inferInstanceAs (Decidable (_ ∧ _))

theorem push_rewrites (h : Refines b l) (hbit : IsBit value) :
    Sized (push b value).1 ∧ (push b value).1.lenBits = b.lenBits + 1 ∧ (push b value).2 = 0 ∧
      ∀ j, bit (push b value).1.words j =
        if j = b.lenBits then decide (value = 1) else bit b.words j := by
  have hrefused : ¬ (value ≠ 0 ∧ value ≠ 1) := by
    rintro ⟨hzero, hone⟩
    exact hbit.elim hzero hone
  have hsmall := h.small
  have hextends := ensureCapacity_extends h.slots (by omega : b.lenBits + 1 < 2 ^ 64)
  have hsized : Sized { ensureCapacity b (b.lenBits + 1) with lenBits := b.lenBits + 1 } :=
    sized_of_extends hextends (Nat.le_refl _)
  obtain ⟨hset, hresult⟩ := setBit_rewrites hsized (Nat.lt_succ_self b.lenBits) value
  have hpush : push b value =
      setBit { ensureCapacity b (b.lenBits + 1) with lenBits := b.lenBits + 1 } b.lenBits value := by
    rw [push, if_neg hrefused]
    dsimp only
    rw [hextends.len, Nat.add_sub_cancel]
  rw [hpush]
  refine ⟨hset.sized hsized, hset.len, hresult, fun j => ?_⟩
  rw [hset.bits, bit_ne_zero hbit]
  exact if_congr Iff.rfl rfl (hextends.bits j)

theorem contents_push (h : Refines b l) (hbit : IsBit value) :
    contents (push b value).1 = l ++ [decide (value = 1)] := by
  obtain ⟨_, hlen, _, hbits⟩ := push_rewrites h hbit
  refine (eq_firstBits ?_ fun j hj => ?_).symm
  · rw [length_append, h.length, hlen, length_singleton]
  · rw [hlen] at hj
    rw [hbits, getElem?_append, h.length]
    by_cases hold : j < b.lenBits
    · rw [if_pos hold, h.getElem?, if_pos hold, if_neg (by omega)]
    · have heq : j = b.lenBits := by omega
      rw [if_neg hold, heq, Nat.sub_self, if_pos rfl]
      rfl

theorem startsFresh_iff (b : Bitset) :
    (b.lenBits % 64 = 0 → b.words.getD (b.lenBits / 64) 0 >>> 1 = 0) ↔
      (b.lenBits % 64 = 0 → ∀ k < 64, 0 < k → bit b.words (b.lenBits + k) = false) := by
  refine imp_congr_right fun hwhole => ?_
  have hat : ∀ k < 64, bit b.words (b.lenBits + k) = (b.words.getD (b.lenBits / 64) 0).getLsbD k := by
    intro k hk
    have hdiv : (b.lenBits + k) / 64 = b.lenBits / 64 := by omega
    have hmod : (b.lenBits + k) % 64 = k := by omega
    rw [bit, hdiv, hmod]
  rw [word_eq_zero_iff]
  constructor
  · intro hzero k hk hpos
    have hbit := hzero (k - 1) (by omega)
    rw [getLsbD_ushiftRight, Nat.add_sub_cancel' hpos] at hbit
    rw [hat k hk, hbit]
  · intro hzero k hk
    rw [getLsbD_ushiftRight]
    rcases Nat.lt_or_ge (1 + k) 64 with hlt | hge
    · rw [← hat (1 + k) hlt]
      exact hzero (1 + k) hlt (by omega)
    · exact getLsbD_of_ge _ _ hge

theorem refines_push (h : Refines b l) (hbit : IsBit value) (hfresh : StartsFresh b) :
    Refines (push b value).1 (l ++ [decide (value = 1)]) := by
  obtain ⟨hsized, hlen, _, hbits⟩ := push_rewrites h hbit
  have hclean := (startsFresh_iff b).1 hfresh.2
  refine ⟨hsized, hlen ▸ hfresh.1, fun j hle hlt => ?_, contents_push h hbit⟩
  rw [hlen] at hle hlt
  rw [hbits, if_neg (by omega)]
  have hwords := wordsForBits_lt (b.lenBits + 1)
  by_cases hwhole : b.lenBits % 64 = 0
  · have hj : b.lenBits + (j - b.lenBits) = j := by omega
    rw [← hj]
    exact hclean hwhole (j - b.lenBits) (by omega) (by omega)
  · have hold := le_wordsForBits b.lenBits
    exact h.clean j (by omega) (by omega)

theorem startsFresh_of_observes (h : Refines b l) (hbit : IsBit value)
    (hobserves : Observes (push b value).1 (l ++ [decide (value = 1)])) : StartsFresh b := by
  obtain ⟨hsized, hlen, _, hbits⟩ := push_rewrites h hbit
  have hsmall := h.small
  have hlength : (l ++ [decide (value = 1)]).length = b.lenBits + 1 := by
    rw [length_append, h.length, length_singleton]
  have hnew : b.lenBits + 1 < 2 ^ 63 := by
    by_contra hlarge
    have hwrapped := hobserves.len
    have hvalue : b.lenBits + 1 = 2 ^ 63 := by omega
    rw [len, hlen, hlength, hvalue] at hwrapped
    exact absurd hwrapped (by decide)
  refine ⟨hnew, (startsFresh_iff b).2 fun hwhole k hk hpos => ?_⟩
  by_contra hstale
  rw [Bool.not_eq_false] at hstale
  have hwords : 64 * wordsForBits (b.lenBits + 1) = b.lenBits + 64 := by
    have hle := le_wordsForBits (b.lenBits + 1)
    have hlt := wordsForBits_lt (b.lenBits + 1)
    omega
  have hcontents := contents_push h hbit
  have hextra : 0 < (List.range (64 * wordsForBits (push b value).1.lenBits - (push b value).1.lenBits)).countP
      (fun j => bit (push b value).1.words ((push b value).1.lenBits + j)) := by
    refine List.countP_pos_iff.2 ⟨k - 1, List.mem_range.2 ?_, ?_⟩
    · rw [hlen, hwords]
      omega
    · have hplace : b.lenBits + 1 + (k - 1) = b.lenBits + k := by omega
      rw [hlen, hplace, hbits, if_neg (by omega)]
      exact hstale
  have hfew : (List.range (64 * wordsForBits (push b value).1.lenBits - (push b value).1.lenBits)).countP
      (fun j => bit (push b value).1.words ((push b value).1.lenBits + j)) ≤ 63 := by
    refine Nat.le_trans countP_le_length ?_
    rw [length_range, hlen, hwords]
    omega
  have hcount : (l ++ [decide (value = 1)]).count true ≤ (l ++ [decide (value = 1)]).length :=
    count_le_length
  have hones := hobserves.ones
  rw [countOnes, countWords_contents, hcontents] at hones
  generalize (List.range _).countP _ = extra at hones hextra hfew
  rw [Nat.mod_eq_of_lt (by omega), int64T, BitVec.toInt_eq_toNat_cond, BitVec.toNat_ofNat,
    Nat.mod_eq_of_lt (by omega)] at hones
  split at hones <;> omega

theorem refines_pop (h : Refines b l) (hnonempty : b.lenBits ≠ 0) :
    Refines (pop b).1 l.dropLast ∧ l.getLast? = some (bit b.words (b.lenBits - 1)) ∧
      (pop b).2 = ofBit (bit b.words (b.lenBits - 1)) := by
  have hlast : b.lenBits - 1 < b.lenBits := by omega
  have hsmall := h.small
  have hfits := h.fits
  rw [pop, if_neg hnonempty]
  refine ⟨refines_maskTail ⟨h.slots, ?_⟩ ?_ ?_ fun j hj => ?_, ?_, getBit_eq hlast⟩
  · exact (by omega : b.lenBits - 1 ≤ b.capBits)
  · exact (by omega : b.lenBits - 1 < 2 ^ 63)
  · rw [length_dropLast, h.length]
  · have hlt : j < b.lenBits - 1 := hj
    rw [getElem?_dropLast, h.length, if_pos hlt, h.getElem?, if_pos (by omega)]
  · rw [getLast?_eq_getElem?, h.length, h.getElem?, if_pos hlast]

variable {lhs rhs : Bitset} {left right : List Bool}

def BitOp.bool : BitOp → Bool → Bool → Bool
  | .and, x, y => x && y
  | .or, x, y => x || y
  | .xor, x, y => x ^^ y

variable (op : BitOp)

theorem getLsbD_word (x y : Word) (k : Nat) :
    (op.word x y).getLsbD k = BitOp.bool op (x.getLsbD k) (y.getLsbD k) := by
  cases op with
  | and => exact BitVec.getLsbD_and
  | or => exact getLsbD_or
  | xor => exact BitVec.getLsbD_xor

theorem getElem?_zipWith_bits (hl : Refines lhs left) (hr : Refines rhs right)
    (hlen : lhs.lenBits = rhs.lenBits) (hj : j < lhs.lenBits) :
    (List.zipWith (BitOp.bool op) left right)[j]? =
    some (BitOp.bool op (bit lhs.words j) (bit rhs.words j)) := by
  rw [getElem?_zipWith, hl.getElem?, if_pos hj, hr.getElem?, if_pos (hlen ▸ hj)]

theorem length_zipWith_bits (hl : Refines lhs left) (hr : Refines rhs right)
    (hlen : lhs.lenBits = rhs.lenBits) : (List.zipWith (BitOp.bool op) left right).length = lhs.lenBits := by
  rw [length_zipWith, hl.length, hr.length, ← hlen, Nat.min_self]

theorem refines_combineEq (aliased : Bool) (hl : Refines lhs left) (hr : Refines rhs right)
    (hsame : aliased = true → rhs = lhs) (hlen : lhs.lenBits = rhs.lenBits) :
    Refines (combineEq op aliased lhs rhs).1 (List.zipWith (BitOp.bool op) left right) := by
  rw [combineEq, if_neg (not_not.2 hlen)]
  have hsource : ∀ ws i, ws.getD i 0 = lhs.words.getD i 0 →
      op.word (ws.getD i 0) ((if aliased = true then ws else rhs.words).getD i 0) =
        op.word (lhs.words.getD i 0) (rhs.words.getD i 0) := by
    intro ws i hws
    by_cases hcase : aliased = true
    · rw [if_pos hcase, hws, hsame hcase]
    · rw [if_neg hcase, hws]
  have hsweep := sweepWords_rewrites hl.toSized
    (f := fun ws i => op.word (ws.getD i 0) ((if aliased = true then ws else rhs.words).getD i 0))
    fun i _ ws hws => (hsource ws i (hws i (Nat.le_refl i))).trans (hsource lhs.words i rfl).symm
  refine refines_masked hl hsweep (length_zipWith_bits op hl hr hlen) fun j hj => ?_
  have hle := le_wordsForBits lhs.lenBits
  rw [getElem?_zipWith_bits op hl hr hlen hj, if_pos (by omega), hsource lhs.words _ rfl, getLsbD_word,
    bit, bit]

theorem refines_output {f : Nat → Word} (hsmall : n < 2 ^ 63) (hlen : l.length = n)
    (hbits : ∀ j < n, l[j]? = some ((f (j / 64)).getLsbD (j % 64))) :
    ∃ b, output n f = some b ∧ Refines b l := by
  have hextends := ensureCapacity_extends (b := { words := [], lenBits := 0, capBits := 0 })
    rfl (by omega : n < 2 ^ 64)
  have hsized := sized_of_extends hextends (Nat.le_refl n)
  have hsweep := sweepWords_rewrites (f := fun _ i => f i) hsized fun _ _ _ _ => rfl
  have hnew : Bitsets.new (int64T n) =
      some (ensureCapacity { words := [], lenBits := 0, capBits := 0 } n) := by
    rw [int64T_of_lt hsmall, Bitsets.new, if_neg (by omega), Int.toNat_natCast]
  rw [output, hnew]
  refine ⟨_, rfl, refines_maskTail (hsweep.sized hsized) ?_ ?_ fun j hj => ?_⟩
  · rw [hsweep.len]
    exact hsmall
  · rw [hsweep.len]
    exact hlen
  · rw [hsweep.len] at hj
    have hj' : j < n := hj
    have hle := le_wordsForBits n
    rw [hsweep.bits, hbits j hj]
    exact congrArg some (if_pos (by omega : j < 64 * wordsForBits n)).symm

theorem refines_new {capacity : Int} (hneg : ¬ capacity < 0) (hsmall : capacity < 2 ^ 63) :
    ∃ b, Bitsets.new capacity = some b ∧ Refines b [] := by
  have hextends := ensureCapacity_extends (b := { words := [], lenBits := 0, capBits := 0 })
    rfl (by omega : capacity.toNat < 2 ^ 64)
  refine ⟨_, if_neg hneg, ⟨hextends.slots, ?_⟩, ?_, ?_, ?_⟩
  · rw [hextends.len]
    exact Nat.zero_le _
  · rw [hextends.len]
    exact Nat.two_pow_pos 63
  · intro j _ hlt
    rw [hextends.len] at hlt
    exact absurd hlt (Nat.not_lt_zero j)
  · rw [contents, hextends.len]
    rfl

theorem refines_fromU64 (value : Word) :
    ∃ b, fromU64 value = some b ∧ Refines b ((List.range 64).map value.getLsbD) := by
  refine ⟨{ words := [value], lenBits := 64, capBits := 64 }, rfl,
    ⟨(by decide : 1 = wordsForBits 64), Nat.le_refl 64⟩, (by decide : 64 < 2 ^ 63), ?_, ?_⟩
  · intro j hle hlt
    have hsize : 64 * wordsForBits 64 = 64 := by decide
    exact absurd (Nat.lt_of_lt_of_eq hlt hsize) (Nat.not_lt.2 hle)
  · refine map_congr_left fun j hj => ?_
    have hlt := List.mem_range.1 hj
    rw [bit, Nat.div_eq_of_lt hlt, Nat.mod_eq_of_lt hlt]
    rfl

variable {amount : Nat}
variable {i : Nat} {ws words : List Word}

theorem getElem?_shiftLeftList (h : Refines b l) (hamount : amount < b.lenBits) (hj : j < b.lenBits) :
    (shiftLeftList l amount)[j]? = some (if j < amount then false else bit b.words (j - amount)) := by
  rw [shiftLeftList, getElem?_take, h.length, if_pos hj, getElem?_append,
    length_replicate, Nat.min_eq_left (Nat.le_of_lt hamount)]
  by_cases hlow : j < amount
  · rw [if_pos hlow, getElem?_replicate, if_pos hlow, if_pos hlow]
  · rw [if_neg hlow, h.getElem?, if_pos (by omega), if_neg hlow]

theorem getElem?_shiftRightList (h : Refines b l) (hamount : amount < b.lenBits) (hj : j < b.lenBits) :
    (shiftRightList l amount)[j]? = some
    (if j + amount < b.lenBits then bit b.words (j + amount) else false) := by
  rw [shiftRightList, getElem?_append, length_drop, h.length, Nat.min_eq_left (Nat.le_of_lt hamount)]
  by_cases hlow : j + amount < b.lenBits
  · rw [if_pos (by omega), getElem?_drop, h.getElem?, Nat.add_comm, if_pos hlow, if_pos hlow]
  · rw [if_neg (by omega), getElem?_replicate, if_pos (by omega), if_neg hlow]

theorem leftWord_local (hsame : ∀ j, j ≤ i → ws.getD j 0 = words.getD j 0) (wholeWords bitShift : Nat) :
    leftWord wholeWords bitShift ws i = leftWord wholeWords bitShift words i := by
  rw [leftWord, leftWord]
  dsimp only
  rw [hsame (i - wholeWords) (by omega), hsame (i - wholeWords - 1) (by omega)]

theorem rightWord_local (hsame : ∀ j, i ≤ j → ws.getD j 0 = words.getD j 0) (size wholeWords bitShift : Nat) :
    rightWord size wholeWords bitShift ws i = rightWord size wholeWords bitShift words i := by
  rw [rightWord, rightWord]
  dsimp only
  rw [hsame (i + wholeWords) (by omega), hsame (i + wholeWords + 1) (by omega)]

theorem getLsbD_leftWord (ws : List Word) (amount j : Nat) :
    (leftWord (amount / 64) (amount % 64) ws (j / 64)).getLsbD (j % 64) =
      if j < amount then false else bit ws (j - amount) := by
  have hk : j % 64 < 64 := Nat.mod_lt j (by decide)
  rw [leftWord]
  by_cases hwhole : j / 64 ≥ amount / 64
  · rw [if_pos hwhole]
    dsimp only
    by_cases hlow : j % 64 < amount % 64
    · have hfirst : (ws.getD (j / 64 - amount / 64) 0 <<< (amount % 64)).getLsbD (j % 64) = false := by
        rw [getLsbD_shiftLeft, decide_eq_true hlow, Bool.not_true, Bool.and_false, Bool.false_and]
      by_cases hnext : amount % 64 > 0 ∧ j / 64 - amount / 64 > 0
      · have hdiv : (j - amount) / 64 = j / 64 - amount / 64 - 1 := by omega
        have hmod : (j - amount) % 64 = 64 - amount % 64 + j % 64 := by omega
        rw [if_pos hnext, if_neg (by omega), getLsbD_or, hfirst, Bool.false_or,
          getLsbD_ushiftRight, bit, hdiv, hmod]
      · rw [if_neg hnext, hfirst, if_pos (by omega)]
    · have hdiv : (j - amount) / 64 = j / 64 - amount / 64 := by omega
      have hmod : (j - amount) % 64 = j % 64 - amount % 64 := by omega
      have hfirst : (ws.getD (j / 64 - amount / 64) 0 <<< (amount % 64)).getLsbD (j % 64) =
          bit ws (j - amount) := by
        rw [getLsbD_shiftLeft, decide_eq_true hk, decide_eq_false hlow, Bool.not_false,
          Bool.true_and, Bool.true_and, bit, hdiv, hmod]
      rw [if_neg (by omega : ¬ j < amount)]
      by_cases hnext : amount % 64 > 0 ∧ j / 64 - amount / 64 > 0
      · rw [if_pos hnext, getLsbD_or, hfirst, getLsbD_ushiftRight,
          getLsbD_of_ge _ _ (by omega), Bool.or_false]
      · rw [if_neg hnext, hfirst]
  · rw [if_neg hwhole, if_pos (by omega)]
    exact getLsbD_zero

theorem getLsbD_rightWord (ws : List Word) (size amount j : Nat) :
    (rightWord size (amount / 64) (amount % 64) ws (j / 64)).getLsbD (j % 64) =
      if j + amount < 64 * size then bit ws (j + amount) else false := by
  have hk : j % 64 < 64 := Nat.mod_lt j (by decide)
  rw [rightWord]
  dsimp only
  by_cases hwhole : j / 64 + amount / 64 < size
  · rw [if_pos hwhole]
    by_cases hlow : j % 64 + amount % 64 < 64
    · have hdiv : (j + amount) / 64 = j / 64 + amount / 64 := by omega
      have hmod : (j + amount) % 64 = amount % 64 + j % 64 := by omega
      have hfirst : (ws.getD (j / 64 + amount / 64) 0 >>> (amount % 64)).getLsbD (j % 64) =
          bit ws (j + amount) := by
        rw [getLsbD_ushiftRight, bit, hdiv, hmod]
      rw [if_pos (by omega : j + amount < 64 * size)]
      by_cases hnext : amount % 64 > 0 ∧ j / 64 + amount / 64 + 1 < size
      · rw [if_pos hnext, getLsbD_or, hfirst, getLsbD_shiftLeft,
          decide_eq_true (by omega : j % 64 < 64 - amount % 64), Bool.not_true, Bool.and_false,
          Bool.false_and, Bool.or_false]
      · rw [if_neg hnext, hfirst]
    · have hfirst : (ws.getD (j / 64 + amount / 64) 0 >>> (amount % 64)).getLsbD (j % 64) = false := by
        rw [getLsbD_ushiftRight, getLsbD_of_ge _ _ (by omega)]
      by_cases hnext : amount % 64 > 0 ∧ j / 64 + amount / 64 + 1 < size
      · have hdiv : (j + amount) / 64 = j / 64 + amount / 64 + 1 := by omega
        have hmod : (j + amount) % 64 = j % 64 - (64 - amount % 64) := by omega
        rw [if_pos hnext, if_pos (by omega), getLsbD_or, hfirst, Bool.false_or,
          getLsbD_shiftLeft, decide_eq_true hk,
          decide_eq_false (by omega : ¬ j % 64 < 64 - amount % 64), Bool.not_false, Bool.true_and,
          Bool.true_and, bit, hdiv, hmod]
      · rw [if_neg hnext, hfirst, if_neg (by omega)]
  · rw [if_neg hwhole, if_neg (by omega)]
    exact getLsbD_zero

theorem refines_shiftLeft (h : Refines b l) {amount : Int} (hneg : ¬ amount < 0) :
    Refines (shiftLeft b amount).1 (shiftLeftList l amount.toNat) ∧ (shiftLeft b amount).2 = 0 := by
  rw [shiftLeft, if_neg hneg]
  by_cases hall : amount.toNat ≥ b.lenBits
  · rw [if_pos hall]
    refine ⟨?_, rfl⟩
    have hzero : shiftLeftList l amount.toNat = l.map fun _ => false := by
      rw [shiftLeftList, h.length, Nat.min_eq_right hall, take_left' length_replicate,
        map_const', h.length]
    rw [hzero]
    exact refines_clearWords h
  · rw [if_neg hall]
    have hamount : amount.toNat < b.lenBits := Nat.not_le.1 hall
    have hsweep := sweepReverse_rewrites h.toSized fun i _ ws hws =>
      leftWord_local hws (amount.toNat / 64) (amount.toNat % 64)
    refine ⟨refines_masked h hsweep ?_ fun j hj => ?_, rfl⟩
    · rw [shiftLeftList, length_take, length_append, length_replicate, h.length]
      omega
    · have hle := le_wordsForBits b.lenBits
      rw [getElem?_shiftLeftList h hamount hj,
        if_pos (by omega : j < 64 * wordsForBits b.lenBits), getLsbD_leftWord]

theorem refines_shiftRight (h : Refines b l) {amount : Int} (hneg : ¬ amount < 0) :
    Refines (shiftRight b amount).1 (shiftRightList l amount.toNat) ∧ (shiftRight b amount).2 = 0 := by
  rw [shiftRight, if_neg hneg]
  by_cases hall : amount.toNat ≥ b.lenBits
  · rw [if_pos hall]
    refine ⟨?_, rfl⟩
    have hzero : shiftRightList l amount.toNat = l.map fun _ => false := by
      rw [shiftRightList, h.length, Nat.min_eq_right hall, map_const', h.length,
        drop_eq_nil_of_le (by rw [h.length]; exact hall), nil_append]
    rw [hzero]
    exact refines_clearWords h
  · rw [if_neg hall]
    have hamount : amount.toNat < b.lenBits := Nat.not_le.1 hall
    have hsweep := sweepWords_rewrites h.toSized fun i _ ws hws =>
      rightWord_local hws (wordsForBits b.lenBits) (amount.toNat / 64) (amount.toNat % 64)
    refine ⟨refines_masked h hsweep ?_ fun j hj => ?_, rfl⟩
    · rw [shiftRightList, length_append, length_drop, length_replicate, h.length]
      omega
    · have hle := le_wordsForBits b.lenBits
      rw [getElem?_shiftRightList h hamount hj,
        if_pos (by omega : j < 64 * wordsForBits b.lenBits), getLsbD_rightWord]
      by_cases hinside : j + amount.toNat < b.lenBits
      · rw [if_pos hinside, if_pos (by omega)]
      · rw [if_neg hinside]
        by_cases hword : j + amount.toNat < 64 * wordsForBits b.lenBits
        · rw [if_pos hword, h.clean _ (Nat.not_lt.1 hinside) hword]
        · rw [if_neg hword]

end Mlang.BitsetEffects
