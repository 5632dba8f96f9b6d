import Mlang.BitsetEffects
import Mlang.Transitions

namespace Mlang.BitsetRefinement

open WordBits Bitsets BitsetBits BitsetLists BitsetEffects List Option

variable {α β : Type} {R : α → β → Prop} {xs : List α} {ys : List β} {x : α} {y : β} {h : Nat}

def Matching (R : α → β → Prop) (xs : List α) (ys : List β) : Prop :=
  ∀ h : Nat, Option.Rel R xs[h]? ys[h]?

theorem matching_nil : Matching R [] [] := fun _ => .none

variable (hm : Matching R xs ys)
include hm

theorem Matching.mono {R' : α → β → Prop} (himp : ∀ x y, R x y → R' x y) :
    Matching R' xs ys := by
  intro h
  have hrel := hm h
  generalize xs[h]? = x at hrel ⊢
  generalize ys[h]? = y at hrel ⊢
  cases hrel with
  | none => exact .none
  | some hr => exact .some (himp _ _ hr)

theorem Matching.get (h : Nat) :
    (xs[h]? = none ∧ ys[h]? = none) ∨ ∃ x y, xs[h]? = some x ∧ ys[h]? = some y ∧ R x y := by
  have hrel := hm h
  generalize xs[h]? = x at hrel ⊢
  generalize ys[h]? = y at hrel ⊢
  cases hrel with
  | none => exact .inl ⟨rfl, rfl⟩
  | some hr => exact .inr ⟨_, _, rfl, rfl, hr⟩

theorem Matching.length_eq : xs.length = ys.length := by
  refine Nat.le_antisymm ?_ ?_
  · have hrel := hm ys.length
    rw [getElem?_eq_none (Nat.le_refl ys.length)] at hrel
    generalize hx : xs[ys.length]? = x at hrel
    cases hrel
    exact List.getElem?_eq_none_iff.1 hx
  · have hrel := hm xs.length
    rw [getElem?_eq_none (Nat.le_refl xs.length)] at hrel
    generalize hy : ys[xs.length]? = y at hrel
    cases hrel
    exact List.getElem?_eq_none_iff.1 hy

theorem Matching.set (h : Nat) (hr : R x y) :
    Matching R (xs.set h x) (ys.set h y) := by
  intro i
  rw [getElem?_set, getElem?_set, hm.length_eq]
  by_cases hi : h = i
  · rw [if_pos hi, if_pos hi]
    by_cases hlt : h < ys.length
    · rw [if_pos hlt, if_pos hlt]
      exact .some hr
    · rw [if_neg hlt, if_neg hlt]
      exact .none
  · rw [if_neg hi, if_neg hi]
    exact hm i

theorem Matching.append (hr : R x y) : Matching R (xs ++ [x]) (ys ++ [y]) := by
  intro i
  rw [getElem?_append, getElem?_append, hm.length_eq]
  by_cases hi : i < ys.length
  · rw [if_pos hi, if_pos hi]
    exact hm i
  · rw [if_neg hi, if_neg hi]
    rcases Nat.eq_zero_or_pos (i - ys.length) with hzero | hpos
    · rw [hzero]
      exact .some hr
    · rw [getElem?_eq_none (by rw [length_singleton]; omega),
        getElem?_eq_none (by rw [length_singleton]; omega)]
      exact .none

omit hm

theorem Matching.of_set (hm : Matching R (xs.set h x) (ys.set h y)) (hx : h < xs.length)
    (hy : h < ys.length) : R x y := by
  have hrel := hm h
  rw [getElem?_set_self hx, getElem?_set_self hy] at hrel
  cases hrel with
  | some hr => exact hr

inductive Action
  | new (bitCapacity : I64)
  | op (h : Nat) (op : Op)
  | combineEq (op : BitOp) (lhs rhs : Nat)
  | bitwiseCopy (lhs rhs : Nat) (operation : I32)
  | complementCopy (h : Nat)
  | fromU64 (value : Word)
  deriving DecidableEq

inductive Result
  | status (n : Int)
  | handle (h : Option Nat)
  deriving DecidableEq

structure Interface (α : Type) where
  new : Int → Option α
  op : α → Op → α × Int
  combineEq : BitOp → Bool → α → α → α × Int
  bitwiseCopy : α → α → Int → Option α
  complementCopy : α → Option α
  fromU64 : Word → Option α

def make (heap : List α) : Option α → List α × Result
  | some x => (heap ++ [x], .handle (some heap.length))
  | none => (heap, .handle none)

def Interface.act (I : Interface α) (heap : List α) : Action → List α × Result
  | .new bitCapacity => make heap (I.new bitCapacity.toInt)
  | .op h op =>
    match heap[h]? with
    | some x => (heap.set h (I.op x op).1, .status (I.op x op).2)
    | none => (heap, .status (-1))
  | .combineEq op lhs rhs =>
    match heap[lhs]?, heap[rhs]? with
    | some x, some y =>
      (heap.set lhs (I.combineEq op (lhs = rhs) x y).1, .status (I.combineEq op (lhs = rhs) x y).2)
    | _, _ => (heap, .status (-1))
  | .bitwiseCopy lhs rhs operation =>
    make heap (heap[lhs]?.bind fun x => heap[rhs]?.bind fun y => I.bitwiseCopy x y operation.toInt)
  | .complementCopy h => make heap (heap[h]?.bind I.complementCopy)
  | .fromU64 value => make heap (I.fromU64 value)

def bitsets : Interface Bitset where
  new := Bitsets.new
  op := onBitset
  combineEq := Bitsets.combineEq
  bitwiseCopy := Bitsets.bitwiseCopy
  complementCopy := Bitsets.complementCopy
  fromU64 := Bitsets.fromU64

def lists : Interface (List Bool) where
  new capacity := if capacity < 0 then none else some []
  op := onList
  combineEq op _ left right :=
    if left.length ≠ right.length then (left, -1) else (List.zipWith (BitOp.bool op) left right, 0)
  bitwiseCopy left right operation :=
    match opOf operation with
    | some op => if left.length ≠ right.length then none else some (List.zipWith (BitOp.bool op) left right)
    | none => none
  complementCopy l := some (l.map fun v => !v)
  fromU64 value := some ((List.range 64).map value.getLsbD)

variable {rhs lhs : Bitset} {right left : List Bool} {b : Bitset} {l : List Bool} {op : Op}

def PushesFresh (b : Bitset) : Op → Prop
  | .push value => IsBit value.toInt → StartsFresh b
  | _ => True

instance (b : Bitset) (op : Op) : Decidable (PushesFresh b op) := by
  cases op <;> unfold PushesFresh <;> infer_instance

theorem Refines.lt_iff (h : Refines b l) (index : Nat) :
    (index < b.lenBits ∧ l[index]? = some (bit b.words index)) ∨ (b.lenBits ≤ index ∧ l[index]? = none) := by
  rw [h.getElem?]
  rcases Nat.lt_or_ge index b.lenBits with hlt | hge
  · exact .inl ⟨hlt, if_pos hlt⟩
  · exact .inr ⟨hge, if_neg (Nat.not_lt.2 hge)⟩

theorem refines_set (h : Refines b l) (index : I64) (value : I32) :
    Refines (onBitset b (.set index value)).1 (onList l (.set index value)).1 ∧
      (onBitset b (.set index value)).2 = (onList l (.set index value)).2 := by
  rw [onBitset, onList, Bitsets.set, atIndex]
  by_cases hneg : index.toInt < 0
  · rw [if_pos hneg, if_pos hneg]
    by_cases hbit : IsBit value.toInt
    · rw [if_neg (not_not.2 hbit)]
      exact ⟨h, rfl⟩
    · rw [if_pos hbit]
      exact ⟨h, rfl⟩
  · rw [if_neg hneg, if_neg hneg]
    by_cases hbit : IsBit value.toInt
    · rw [if_neg (not_not.2 hbit), if_neg (by rintro ⟨hzero, hone⟩; exact hbit.elim hzero hone)]
      obtain ⟨hlt, hget⟩ | ⟨hge, hget⟩ := Refines.lt_iff h index.toInt.toNat
      · rw [hget, ← bit_ne_zero hbit]
        exact ⟨refines_setBit h hlt _, (setBit_rewrites h.toSized hlt _).2⟩
      · rw [hget, setBit_refused hge]
        exact ⟨h, rfl⟩
    · rw [if_pos hbit, if_pos (not_or.1 hbit)]
      exact ⟨h, rfl⟩

theorem refines_toggle (h : Refines b l) (index : I64) :
    Refines (onBitset b (.toggle index)).1 (onList l (.toggle index)).1 ∧
      (onBitset b (.toggle index)).2 = (onList l (.toggle index)).2 := by
  rw [onBitset, onList, Bitsets.toggle, atIndex]
  by_cases hneg : index.toInt < 0
  · rw [if_pos hneg, if_pos hneg]
    exact ⟨h, rfl⟩
  · rw [if_neg hneg, if_neg hneg]
    obtain ⟨hlt, hget⟩ | ⟨hge, hget⟩ := Refines.lt_iff h index.toInt.toNat
    · rw [hget, getBit_eq hlt]
      dsimp only
      cases bit b.words index.toInt.toNat with
      | true => exact ⟨refines_setBit h hlt 0, (setBit_rewrites h.toSized hlt 0).2⟩
      | false => exact ⟨refines_setBit h hlt 1, (setBit_rewrites h.toSized hlt 1).2⟩
    · rw [hget, getBit_refused hge]
      exact ⟨h, rfl⟩

theorem toInt_lt (x : I64) : x.toInt < 2 ^ 63 := by
  have hlt := BitVec.toInt_lt (x := x)
  omega

theorem refines_op (h : Refines b l) (hfresh : PushesFresh b op) :
    Refines (onBitset b op).1 (onList l op).1 ∧ (onBitset b op).2 = (onList l op).2 := by
  cases op with
  | clear => exact ⟨refines_clear h, rfl⟩
  | resize newLen fillBit =>
    rw [onBitset, onList]
    by_cases hneg : newLen.toInt < 0
    · rw [Bitsets.resize, if_pos hneg, if_pos (.inl hneg)]
      exact ⟨h, rfl⟩
    · by_cases hbit : IsBit fillBit.toInt
      · rw [if_neg (not_or.2 ⟨hneg, not_not.2 hbit⟩)]
        exact refines_resize h hneg (toInt_lt newLen) hbit
      · rw [Bitsets.resize, if_neg hneg, if_pos (not_or.1 hbit), if_pos (.inr hbit)]
        exact ⟨h, rfl⟩
  | set index value => exact refines_set h index value
  | get index => exact ⟨h, h.get_eq index.toInt⟩
  | toggle index => exact refines_toggle h index
  | push value =>
    rw [onBitset, onList]
    by_cases hbit : IsBit value.toInt
    · rw [if_neg (not_not.2 hbit)]
      exact ⟨refines_push h hbit (hfresh hbit), (push_rewrites h hbit).2.2.1⟩
    · rw [Bitsets.push, if_pos (not_or.1 hbit), if_pos hbit]
      exact ⟨h, rfl⟩
  | pop =>
    rw [onBitset, onList]
    by_cases hempty : b.lenBits = 0
    · obtain rfl : l = [] := eq_nil_of_length_eq_zero (h.length.trans hempty)
      rw [Bitsets.pop, if_pos hempty]
      exact ⟨h, rfl⟩
    · obtain ⟨hpop, hlast, hresult⟩ := refines_pop h hempty
      rw [hlast]
      exact ⟨hpop, hresult⟩
  | setAll => exact ⟨refines_setAll h, rfl⟩
  | reset => exact ⟨refines_clearWords h, rfl⟩
  | notEq => exact ⟨refines_notEq h, rfl⟩
  | shiftLeft amount =>
    rw [onBitset, onList]
    by_cases hneg : amount.toInt < 0
    · rw [Bitsets.shiftLeft, if_pos hneg, if_pos hneg]
      exact ⟨h, rfl⟩
    · rw [if_neg hneg]
      exact refines_shiftLeft h hneg
  | shiftRight amount =>
    rw [onBitset, onList]
    by_cases hneg : amount.toInt < 0
    · rw [Bitsets.shiftRight, if_pos hneg, if_pos hneg]
      exact ⟨h, rfl⟩
    · rw [if_neg hneg]
      exact refines_shiftRight h hneg

variable {l : Option (List Bool)} {b : Option Bitset}

structure State where
  bitsets : List Bitset
  lists : List (List Bool)
  deriving DecidableEq

def start : State := { bitsets := [], lists := [] }

def step (a : Action) (s : State) : Option State :=
  some { bitsets := (bitsets.act s.bitsets a).1, lists := (lists.act s.lists a).1 }

structure Faithful (a : Action) (s : State) : Prop where
  result : (bitsets.act s.bitsets a).2 = (lists.act s.lists a).2
  observes : Matching Observes (bitsets.act s.bitsets a).1 (lists.act s.lists a).1

def Fresh (a : Action) (s : State) : Prop :=
  match a with
  | .op h op => ∀ b ∈ s.bitsets[h]?, PushesFresh b op
  | _ => True

instance (a : Action) (s : State) : Decidable (Fresh a s) := by
  cases a <;> unfold Fresh <;> infer_instance

def Coherent (s : State) : Prop := Matching Refines s.bitsets s.lists

variable {s s' : State} {a : Action}

theorem matching_make {bs : List Bitset} {ls : List (List Bool)} (hm : Matching Refines bs ls)
    (hr : Option.Rel Refines b l) : Matching Refines (make bs b).1 (make ls l).1 ∧
    (make bs b).2 = (make ls l).2 := by
  cases hr with
  | none => exact ⟨hm, rfl⟩
  | some hr =>
    refine ⟨hm.append hr, ?_⟩
    rw [make, make, hm.length_eq]

theorem rel_new (capacity : I64) :
    Option.Rel Refines (bitsets.new capacity.toInt) (lists.new capacity.toInt) := by
  by_cases hneg : capacity.toInt < 0
  · have hb : bitsets.new capacity.toInt = none := if_pos hneg
    have hl : lists.new capacity.toInt = none := if_pos hneg
    rw [hb, hl]
    exact .none
  · obtain ⟨b, hb, hr⟩ := refines_new hneg (toInt_lt capacity)
    have hb : bitsets.new capacity.toInt = some b := hb
    have hl : lists.new capacity.toInt = some [] := if_neg hneg
    rw [hb, hl]
    exact .some hr

theorem rel_bitwiseCopy (hl : Refines lhs left) (hr : Refines rhs right) (operation : Int) :
    Option.Rel Refines (bitsets.bitwiseCopy lhs rhs operation) (lists.bitwiseCopy left right operation) := by
  change Option.Rel Refines (Bitsets.bitwiseCopy lhs rhs operation) (match opOf operation with
    | some op => if left.length ≠ right.length then none else some (List.zipWith (BitOp.bool op) left right)
    | none => none)
  rw [Bitsets.bitwiseCopy]
  cases opOf operation with
  | none => exact .none
  | some op =>
    dsimp only
    rw [hl.length, hr.length]
    by_cases hlen : lhs.lenBits = rhs.lenBits
    · obtain ⟨b, hb, hrefines⟩ := refines_output
        (f := fun i => op.word (lhs.words.getD i 0) (rhs.words.getD i 0)) hl.small
        (length_zipWith_bits op hl hr hlen) fun j hj => by
          rw [getElem?_zipWith_bits op hl hr hlen hj, getLsbD_word, bit, bit]
      rw [if_neg (not_not.2 hlen), if_neg (not_not.2 hlen), hb]
      exact .some hrefines
    · rw [if_pos hlen, if_pos hlen]
      exact .none

theorem rel_complementCopy {b : Bitset} {l : List Bool} (h : Refines b l) :
    Option.Rel Refines (bitsets.complementCopy b) (lists.complementCopy l) := by
  obtain ⟨b', hb, hrefines⟩ := refines_output (l := l.map fun v => !v)
    (f := fun i => ~~~ b.words.getD i 0) h.small (by rw [length_map, h.length]) fun j hj => by
      rw [getElem?_map, h.getElem?, if_pos hj, BitVec.getLsbD_not,
        decide_eq_true (Nat.mod_lt j (by decide) : j % 64 < 64), Bool.true_and]
      rfl
  have hcopy : bitsets.complementCopy b = some b' := hb
  rw [hcopy]
  exact .some hrefines

theorem rel_fromU64 (value : Word) :
    Option.Rel Refines (bitsets.fromU64 value) (lists.fromU64 value) := by
  obtain ⟨b, hb, hr⟩ := refines_fromU64 value
  have hmade : bitsets.fromU64 value = some b := hb
  rw [hmade]
  exact .some hr

theorem rel_bind {β γ : Type} {R : Bitset → List Bool → Prop} {S : β → γ → Prop} {f : Bitset → Option β}
    {g : List Bool → Option γ} (hr : Option.Rel R b l) (hfg : ∀ x y, R x y → Option.Rel S (f x) (g y)) :
    Option.Rel S (b.bind f) (l.bind g) := by
  cases hr with
  | none => exact .none
  | some hr => exact hfg _ _ hr

theorem refines_combine (op : BitOp) (aliased : Bool) (hl : Refines lhs left) (hr : Refines rhs right)
    (hsame : aliased = true → rhs = lhs) :
    Refines (bitsets.combineEq op aliased lhs rhs).1 (lists.combineEq op aliased left right).1 ∧
    (bitsets.combineEq op aliased lhs rhs).2 = (lists.combineEq op aliased left right).2 := by
  by_cases hlen : lhs.lenBits = rhs.lenBits
  · have hb : bitsets.combineEq op aliased lhs rhs = ((combineEq op aliased lhs rhs).1, 0) :=
      (if_neg (not_not.2 hlen)).trans (Prod.ext (by rw [combineEq, if_neg (not_not.2 hlen)]) rfl)
    have hlists : lists.combineEq op aliased left right =
        (List.zipWith (BitOp.bool op) left right, 0) :=
      if_neg (by rw [hl.length, hr.length]; exact not_not.2 hlen)
    rw [hb, hlists]
    exact ⟨refines_combineEq op aliased hl hr hsame hlen, rfl⟩
  · have hb : bitsets.combineEq op aliased lhs rhs = (lhs, -1) := if_pos hlen
    have hlists : lists.combineEq op aliased left right = (left, -1) :=
      if_pos (by rw [hl.length, hr.length]; exact hlen)
    rw [hb, hlists]
    exact ⟨hl, rfl⟩

theorem Coherent.act (h : Coherent s) (hfresh : Fresh a s) :
    Matching Refines (bitsets.act s.bitsets a).1 (lists.act s.lists a).1 ∧
      (bitsets.act s.bitsets a).2 = (lists.act s.lists a).2 := by
  cases a with
  | new bitCapacity => exact matching_make h (rel_new bitCapacity)
  | op i op =>
    rw [Interface.act, Interface.act]
    obtain ⟨hb, hl⟩ | ⟨b, l, hb, hl, hr⟩ := Matching.get h i
    · rw [hb, hl]
      exact ⟨h, rfl⟩
    · rw [hb, hl]
      obtain ⟨hop, hresult⟩ := refines_op hr (hfresh b hb)
      exact ⟨Matching.set h i hop, congrArg Result.status hresult⟩
  | combineEq op i j =>
    rw [Interface.act, Interface.act]
    obtain ⟨hb, hl⟩ | ⟨lhs, left, hb, hl, hr⟩ := Matching.get h i
    · rw [hb, hl]
      exact ⟨h, rfl⟩
    · obtain ⟨hb', hl'⟩ | ⟨rhs, right, hb', hl', hr'⟩ := Matching.get h j
      · rw [hb, hl, hb', hl']
        exact ⟨h, rfl⟩
      · rw [hb, hl, hb', hl']
        have hsame : decide (i = j) = true → rhs = lhs := by
          intro hij
          rw [← of_decide_eq_true hij, hb] at hb'
          exact (some.inj hb').symm
        obtain ⟨hop, hresult⟩ := refines_combine op (decide (i = j)) hr hr' hsame
        exact ⟨Matching.set h i hop, congrArg Result.status hresult⟩
  | bitwiseCopy i j operation =>
    exact matching_make h (rel_bind (h i) fun x x' hx => rel_bind (h j) fun y y' hy =>
      rel_bitwiseCopy hx hy operation.toInt)
  | complementCopy i => exact matching_make h (rel_bind (h i) fun _ _ hr => rel_complementCopy hr)
  | fromU64 value => exact matching_make h (rel_fromU64 value)

theorem Coherent.step (h : Coherent s) (hfresh : Fresh a s) (hstep : step a s = some s') :
    Coherent s' := by
  obtain rfl := some.inj hstep
  exact (Coherent.act h hfresh).1

theorem fresh_of_faithful (h : Coherent s) (hfaithful : Faithful a s) : Fresh a s := by
  cases a with
  | op i op =>
    intro b hb
    cases op with
    | push value =>
      intro hbit
      obtain ⟨hnone, _⟩ | ⟨b', l, hb', hl, hr⟩ := Matching.get h i
      · rw [hnone] at hb
        cases hb
      · obtain rfl : b' = b := some.inj (hb'.symm.trans hb)
        have hobserves := hfaithful.observes
        rw [Interface.act, Interface.act, hb', hl] at hobserves
        have hpair := Matching.of_set hobserves (List.getElem?_eq_some_iff.1 hb').1
          (List.getElem?_eq_some_iff.1 hl).1
        have hlist : (lists.op l (.push value)).1 = l ++ [decide (value.toInt = 1)] := by
          change (onList l (.push value)).1 = _
          rw [onList, if_neg (not_not.2 hbit)]
        rw [hlist] at hpair
        exact startsFresh_of_observes hr hbit hpair
    | _ => trivial
  | _ => trivial

theorem Coherent.faithful_iff (h : Coherent s) (a : Action) : Faithful a s ↔ Fresh a s := by
  constructor
  · exact fresh_of_faithful h
  · intro hfresh
    obtain ⟨hmatching, hresult⟩ := Coherent.act h hfresh
    exact ⟨hresult, hmatching.mono fun _ _ hr => hr.observes⟩

/-- The actions of a run are those of plain lists exactly where each push begins no word with other
bits set in it, and no length comes to 2 ^ 63. -/
theorem bitset_faithful_iff (actions : List Action) :
    Transitions.Along step Faithful start actions ↔ Transitions.Along step Fresh start actions :=
  Transitions.along_iff (I := Coherent) (fun a _ hs => Coherent.faithful_iff hs a)
    (fun _ _ _ hs hfresh hstep => Coherent.step hs hfresh hstep) matching_nil

def filledAndCleared : List Action := [.new 64, .op 0 (.resize 64 1), .op 0 .clear]

theorem staleWord_notFaithful : ¬ ∀ actions, Transitions.Along step Faithful start actions := by
  intro hall
  have hrun : Transitions.run step filledAndCleared start =
      some { bitsets := [⟨[BitVec.allOnes 64], 0, 64⟩], lists := [[]] } := by decide +kernel
  have hfaithful := Transitions.along_at (hall (filledAndCleared ++ [.op 0 (.push 0)])) hrun
  have hobserves : Matching Observes [⟨[BitVec.allOnes 64 - 1], 1, 64⟩] [[false]] :=
    hfaithful.observes
  have hpair : Observes ⟨[BitVec.allOnes 64 - 1], 1, 64⟩ [false] := by
    obtain ⟨hnone, _⟩ | ⟨_, _, hb, hl, hr⟩ := hobserves.get 0
    · cases hnone
    · rwa [← some.inj hb, ← some.inj hl] at hr
  exact absurd hpair.ones (by decide)

end Mlang.BitsetRefinement
