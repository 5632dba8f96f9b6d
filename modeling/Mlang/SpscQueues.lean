import Mlang.RingSlots
import Mlang.Transitions

namespace Mlang.SpscQueues

open RingSlots Transitions List

abbrev Bytes := List UInt8

/-- The value of an expression of the type `size_t`. -/
def sizeT (n : Nat) : Nat := n % 2 ^ 64

def sizeMax : Nat := 2 ^ 64 - 1

structure Queue where
  head : Nat
  tail : Nat
  slots : Nat
  itemSize : Nat
  items : Bytes
  deriving DecidableEq

/-- `allocates` tells whether the memory for the queue and for its items is there. -/
def spscNew (allocates lockFree : Bool) (capacity itemSize : Int) : Except String Queue :=
  if capacity ≤ 0 ∨ itemSize ≤ 0 ∨ capacity.toNat ≥ sizeMax ∨ itemSize.toNat > sizeMax ∨
      capacity.toNat + 1 > sizeMax / itemSize.toNat then
    .error "std::sync SpscQueue: invalid capacity or item size"
  else if ¬ allocates then .error "std::sync SpscQueue: out of memory"
  else if ¬ lockFree then .error "std::sync SpscQueue: index atomics are not lock-free"
  else
    .ok {
      head := 0
      tail := 0
      slots := sizeT (capacity.toNat + 1)
      itemSize := itemSize.toNat
      items := List.replicate (sizeT (capacity.toNat + 1) * itemSize.toNat) 0 }

def Queue.next (q : Queue) (i : Nat) : Nat := if sizeT (i + 1) = q.slots then 0 else sizeT (i + 1)

def Queue.load (q : Queue) (i : Nat) : Bytes := (q.items.drop (sizeT (i * q.itemSize))).take q.itemSize

def Queue.copy (q : Queue) (i : Nat) (value : Bytes) : Queue :=
  { q with items := q.items.take (sizeT (i * q.itemSize)) ++ value ++
      q.items.drop (sizeT (i * q.itemSize) + value.length) }

/-- Where the producer is: outside of a call, with the result of the last one, or in front of its
next access. -/
inductive PushPoint
  | outside (result : Option Int)
  | loadTail (value : Bytes)
  | loadHead (value : Bytes) (tail : Nat)
  | copyItem (value : Bytes) (tail next : Nat)
  | storeTail (value : Bytes) (next : Nat)
  deriving DecidableEq

inductive PopPoint
  | outside (result : Option (Option Bytes))
  | loadHead
  | loadTail (head : Nat)
  | copyItem (head : Nat)
  | storeHead (value : Bytes) (head : Nat)
  deriving DecidableEq

structure State where
  queue : Queue
  producer : PushPoint := .outside none
  consumer : PopPoint := .outside none
  pushed : List Bytes := []
  popped : List Bytes := []
  deriving DecidableEq

inductive Action
  | push (value : Bytes)
  | pop
  | producer
  | consumer
  deriving DecidableEq

def pushStep (s : State) : Option State :=
  match s.producer with
  | .outside _ => none
  | .loadTail value => some { s with producer := .loadHead value s.queue.tail }
  | .loadHead value tail =>
    if s.queue.next tail = s.queue.head then some { s with producer := .outside (some 0) }
    else some { s with producer := .copyItem value tail (s.queue.next tail) }
  | .copyItem value tail next =>
    some { s with queue := s.queue.copy tail value, producer := .storeTail value next }
  | .storeTail value next =>
    some { s with
      queue := { s.queue with tail := next }
      producer := .outside (some 1)
      pushed := s.pushed ++ [value] }

def popStep (s : State) : Option State :=
  match s.consumer with
  | .outside _ => none
  | .loadHead => some { s with consumer := .loadTail s.queue.head }
  | .loadTail head =>
    if head = s.queue.tail then some { s with consumer := .outside (some none) }
    else some { s with consumer := .copyItem head }
  | .copyItem head => some { s with consumer := .storeHead (s.queue.load head) head }
  | .storeHead value head =>
    some { s with
      queue := { s.queue with head := s.queue.next head }
      consumer := .outside (some (some value))
      popped := s.popped ++ [value] }

def step (a : Action) (s : State) : Option State :=
  match a, s.producer, s.consumer with
  | .push value, .outside _, _ =>
    if value.length = s.queue.itemSize then some { s with producer := .loadTail value } else none
  | .push _, _, _ => none
  | .pop, _, .outside _ => some { s with consumer := .loadHead }
  | .pop, _, _ => none
  | .producer, _, _ => pushStep s
  | .consumer, _, _ => popStep s

variable {size : Nat} {q : Queue} {i j : Nat} {value : Bytes}

/-- The sizes of a queue are those of its memory, which `size_t` can count. -/
structure Queue.Sized (q : Queue) (capacity size : Nat) : Prop where
  slots : q.slots = capacity + 1
  item : q.itemSize = size
  positive : 0 < size
  fits : (capacity + 1) * size < 2 ^ 64
  bytes : q.items.length = (capacity + 1) * size

variable {capacity : Nat}

theorem sizeT_of_lt {n : Nat} (h : n < 2 ^ 64) : sizeT n = n := Nat.mod_eq_of_lt h

theorem Queue.Sized.slots_lt (h : q.Sized capacity size) : capacity + 1 < 2 ^ 64 :=
  lt_of_le_of_lt (Nat.le_mul_of_pos_right _ h.positive) h.fits

theorem Queue.Sized.offset (h : q.Sized capacity size) (hi : i < capacity + 1) :
    sizeT (i * q.itemSize) = i * size ∧ i * size + size ≤ q.items.length := by
  have hend : (i + 1) * size ≤ (capacity + 1) * size := Nat.mul_le_mul_right _ hi
  rw [Nat.add_mul, Nat.one_mul] at hend
  rw [h.item, h.bytes]
  refine ⟨sizeT_of_lt ?_, hend⟩
  have hfits := h.fits
  omega

theorem Queue.Sized.copy (h : q.Sized capacity size) (hi : i < capacity + 1)
    (hvalue : value.length = size) : (q.copy i value).Sized capacity size where
  slots := h.slots
  item := h.item
  positive := h.positive
  fits := h.fits
  bytes := by
    obtain ⟨hoffset, hend⟩ := h.offset hi
    rw [← h.bytes, Queue.copy]
    dsimp only
    rw [hoffset]
    simp only [length_append, length_take, length_drop]
    omega

theorem Queue.Sized.load_copy_self (h : q.Sized capacity size) (hi : i < capacity + 1)
    (hvalue : value.length = size) : (q.copy i value).load i = value := by
  obtain ⟨hoffset, hend⟩ := h.offset hi
  have htaken : (q.items.take (i * size)).length = i * size := by
    rw [length_take]
    omega
  rw [Queue.load, Queue.copy]
  dsimp only
  rw [hoffset, append_assoc, drop_append_of_le_length htaken.ge,
    drop_eq_nil_of_le htaken.le, nil_append, h.item, ← hvalue]
  exact take_left' rfl

theorem Queue.Sized.load_copy_of_ne (h : q.Sized capacity size) (hi : i < capacity + 1)
    (hj : j < capacity + 1) (hne : j ≠ i) (hvalue : value.length = size) :
    (q.copy i value).load j = q.load j := by
  obtain ⟨hoffset, hend⟩ := h.offset hi
  obtain ⟨hoffset', hend'⟩ := h.offset hj
  have htaken : (q.items.take (i * size)).length = i * size := by
    rw [length_take]
    omega
  rw [Queue.load, Queue.load, Queue.copy]
  dsimp only
  rw [hoffset, hoffset', h.item]
  refine ext_getElem? fun n => ?_
  rw [getElem?_take, getElem?_take]
  split_ifs with hn
  · rw [getElem?_drop, getElem?_drop, append_assoc]
    rcases Nat.lt_or_gt_of_ne hne with hlt | hgt
    · have hbefore : j * size + size ≤ i * size := by
        rw [← Nat.succ_mul]
        exact Nat.mul_le_mul_right _ hlt
      rw [getElem?_append_left (by omega), getElem?_take, if_pos (by omega)]
    · have hbehind : i * size + size ≤ j * size := by
        rw [← Nat.succ_mul]
        exact Nat.mul_le_mul_right _ hgt
      rw [getElem?_append_right (by omega), htaken, getElem?_append_right (by omega),
        getElem?_drop, hvalue]
      congr 1
      omega
  · rfl

theorem Queue.Sized.next (h : q.Sized capacity size) (hi : i < capacity + 1) :
    q.next i = if i + 1 = capacity + 1 then 0 else i + 1 := by
  have hslots := h.slots_lt
  rw [Queue.next, sizeT_of_lt (by omega), h.slots]

variable {s' s : State}

/-- What the producer knows in front of each of its accesses. -/
def ProducerKnows (capacity size : Nat) (s : State) : Prop :=
  match s.producer with
  | .outside _ => True
  | .loadTail value => value.length = size
  | .loadHead value tail => value.length = size ∧ tail = s.queue.tail
  | .copyItem value tail next =>
    value.length = size ∧ tail = s.queue.tail ∧ next = (s.pushed.length + 1) % (capacity + 1) ∧
      s.pushed.length < s.popped.length + capacity
  | .storeTail value next =>
    s.queue.load s.queue.tail = value ∧ next = (s.pushed.length + 1) % (capacity + 1) ∧
      s.pushed.length < s.popped.length + capacity

/-- What the consumer knows; the producer only adds items. -/
def ConsumerKnows (s : State) : Prop :=
  match s.consumer with
  | .outside _ => True
  | .loadHead => True
  | .loadTail head => head = s.queue.head
  | .copyItem head => head = s.queue.head ∧ s.popped.length < s.pushed.length
  | .storeHead value head => head = s.queue.head ∧ s.pushed[s.popped.length]? = some value

structure Consistent (capacity size : Nat) (s : State) : Prop where
  sized : s.queue.Sized capacity size
  tail : s.queue.tail = s.pushed.length % (capacity + 1)
  head : s.queue.head = s.popped.length % (capacity + 1)
  ordered : s.popped.length ≤ s.pushed.length
  bounded : s.pushed.length ≤ s.popped.length + capacity
  inOrder : s.popped = s.pushed.take s.popped.length
  stored : Stored s.queue.load (· % (capacity + 1)) s.popped.length s.pushed
  producer : ProducerKnows capacity size s
  consumer : ConsumerKnows s

variable (h : Consistent capacity size s)
include h

theorem Consistent.tail_lt : s.queue.tail < capacity + 1 := by
  rw [h.tail]
  exact Nat.mod_lt _ (Nat.succ_pos capacity)

theorem Consistent.head_lt : s.queue.head < capacity + 1 := by
  rw [h.head]
  exact Nat.mod_lt _ (Nat.succ_pos capacity)

theorem Consistent.next_tail :
    s.queue.next s.queue.tail = (s.pushed.length + 1) % (capacity + 1) := by
  rw [h.sized.next h.tail_lt, h.tail]
  exact succ_mod _ (Nat.succ_pos capacity)

theorem Consistent.next_head :
    s.queue.next s.queue.head = (s.popped.length + 1) % (capacity + 1) := by
  rw [h.sized.next h.head_lt, h.head]
  exact succ_mod _ (Nat.succ_pos capacity)

theorem Consistent.full_iff :
    s.queue.next s.queue.tail = s.queue.head ↔ s.pushed.length = s.popped.length + capacity := by
  have hordered := h.ordered
  have hbounded := h.bounded
  rw [h.next_tail, h.head, mod_eq_mod_iff (by omega) (by omega)]
  omega

theorem Consistent.empty_iff :
    s.queue.head = s.queue.tail ↔ s.popped.length = s.pushed.length := by
  have hordered := h.ordered
  have hbounded := h.bounded
  rw [h.head, h.tail, eq_comm, mod_eq_mod_iff hordered (by omega)]
  omega

theorem Consistent.slot_ne {k : Nat} (hk : s.popped.length ≤ k)
    (hlt : k < s.pushed.length) : k % (capacity + 1) ≠ s.queue.tail := by
  have hbounded := h.bounded
  rw [h.tail]
  exact mod_ne_mod hlt (by omega)

theorem consistent_pushStep (hstep : pushStep s = some s') :
    Consistent capacity size s' := by
  have hknows := h.producer
  rw [ProducerKnows] at hknows
  rw [pushStep] at hstep
  split at hstep
  next => cases hstep
  next value hpoint =>
    rw [hpoint] at hknows
    cases hstep
    exact ⟨h.sized, h.tail, h.head, h.ordered, h.bounded, h.inOrder, h.stored, ⟨hknows, rfl⟩, h.consumer⟩
  next value tail hpoint =>
    rw [hpoint] at hknows
    obtain ⟨hvalue, rfl⟩ := hknows
    split_ifs at hstep with hfull
    · cases hstep
      exact ⟨h.sized, h.tail, h.head, h.ordered, h.bounded, h.inOrder, h.stored, trivial, h.consumer⟩
    · cases hstep
      have hroom : s.pushed.length < s.popped.length + capacity :=
        lt_of_le_of_ne h.bounded fun heq => hfull (h.full_iff.2 heq)
      exact ⟨h.sized, h.tail, h.head, h.ordered, h.bounded, h.inOrder, h.stored,
        ⟨hvalue, rfl, h.next_tail, hroom⟩, h.consumer⟩
  next value tail next hpoint =>
    rw [hpoint] at hknows
    obtain ⟨hvalue, rfl, hnext, hroom⟩ := hknows
    cases hstep
    have hstored : Stored (s.queue.copy s.queue.tail value).load (· % (capacity + 1))
        s.popped.length s.pushed := by
      refine h.stored.congr fun k hk hlt => ?_
      exact h.sized.load_copy_of_ne h.tail_lt (Nat.mod_lt _ (Nat.succ_pos capacity))
        (h.slot_ne hk hlt) hvalue
    exact ⟨h.sized.copy h.tail_lt hvalue, h.tail, h.head, h.ordered, h.bounded, h.inOrder, hstored,
      ⟨h.sized.load_copy_self h.tail_lt hvalue, hnext, hroom⟩, h.consumer⟩
  next value next hpoint =>
    rw [hpoint] at hknows
    obtain ⟨hcopied, rfl, hroom⟩ := hknows
    cases hstep
    have hlength : (s.pushed ++ [value]).length = s.pushed.length + 1 := length_append
    refine ⟨⟨h.sized.slots, h.sized.item, h.sized.positive, h.sized.fits, h.sized.bytes⟩, ?_, h.head,
      ?_, ?_, ?_, ?_, trivial, ?_⟩
    · dsimp only
      rw [hlength]
    · dsimp only
      rw [hlength]
      exact h.ordered.trans (Nat.le_succ _)
    · dsimp only
      rw [hlength]
      exact hroom
    · dsimp only
      rw [take_append_of_le_length h.ordered]
      exact h.inOrder
    · rw [h.tail] at hcopied
      exact h.stored.put hcopied
    · have hconsumer := h.consumer
      rw [ConsumerKnows] at hconsumer ⊢
      dsimp only
      split at hconsumer
      next => trivial
      next => trivial
      next => exact hconsumer
      next =>
        rw [hlength]
        exact ⟨hconsumer.1, hconsumer.2.trans (Nat.lt_succ_self _)⟩
      next =>
        refine ⟨hconsumer.1, ?_⟩
        rw [getElem?_append_left (List.getElem?_eq_some_iff.1 hconsumer.2).1]
        exact hconsumer.2

theorem consistent_popStep (hstep : popStep s = some s') :
    Consistent capacity size s' := by
  have hknows := h.consumer
  rw [ConsumerKnows] at hknows
  rw [popStep] at hstep
  split at hstep
  next => cases hstep
  next hpoint =>
    cases hstep
    exact ⟨h.sized, h.tail, h.head, h.ordered, h.bounded, h.inOrder, h.stored, h.producer, rfl⟩
  next head hpoint =>
    rw [hpoint] at hknows
    obtain rfl := hknows
    split_ifs at hstep with hempty
    · cases hstep
      exact ⟨h.sized, h.tail, h.head, h.ordered, h.bounded, h.inOrder, h.stored, h.producer, trivial⟩
    · cases hstep
      have hitem : s.popped.length < s.pushed.length :=
        lt_of_le_of_ne h.ordered fun heq => hempty (h.empty_iff.2 heq)
      exact ⟨h.sized, h.tail, h.head, h.ordered, h.bounded, h.inOrder, h.stored, h.producer,
        ⟨rfl, hitem⟩⟩
  next head hpoint =>
    rw [hpoint] at hknows
    obtain ⟨rfl, hitem⟩ := hknows
    cases hstep
    have hget := getElem?_eq_getElem hitem
    have hloaded : s.queue.load s.queue.head = s.pushed[s.popped.length] := by
      rw [h.head]
      exact h.stored _ _ le_rfl hget
    refine ⟨h.sized, h.tail, h.head, h.ordered, h.bounded, h.inOrder, h.stored, h.producer, rfl, ?_⟩
    rw [hloaded]
    exact hget
  next value head hpoint =>
    rw [hpoint] at hknows
    obtain ⟨rfl, hget⟩ := hknows
    cases hstep
    have hitem := (List.getElem?_eq_some_iff.1 hget).1
    have hlength : (s.popped ++ [value]).length = s.popped.length + 1 := length_append
    refine ⟨⟨h.sized.slots, h.sized.item, h.sized.positive, h.sized.fits, h.sized.bytes⟩, h.tail, ?_,
      ?_, ?_, ?_, ?_, ?_, trivial⟩
    · dsimp only
      rw [hlength]
      exact h.next_head
    · dsimp only
      rw [hlength]
      exact hitem
    · dsimp only
      rw [hlength]
      have hbounded := h.bounded
      omega
    · dsimp only
      rw [hlength, take_succ_of_get hget, ← h.inOrder]
    · dsimp only
      rw [hlength]
      exact h.stored.mono (Nat.le_succ _)
    · have hproducer := h.producer
      rw [ProducerKnows] at hproducer ⊢
      dsimp only
      split at hproducer
      next => trivial
      next => exact hproducer
      next => exact hproducer
      next =>
        obtain ⟨hvalue, htail, hnext, hroom⟩ := hproducer
        refine ⟨hvalue, htail, hnext, ?_⟩
        rw [hlength]
        omega
      next =>
        obtain ⟨hcopied, hnext, hroom⟩ := hproducer
        refine ⟨hcopied, hnext, ?_⟩
        rw [hlength]
        omega

omit h

theorem consistent_step (a : Action) (h : Consistent capacity size s) (hstep : step a s = some s') :
    Consistent capacity size s' := by
  rw [step.eq_def] at hstep
  split at hstep
  next =>
    split_ifs at hstep with hvalue
    cases hstep
    exact ⟨h.sized, h.tail, h.head, h.ordered, h.bounded, h.inOrder, h.stored,
      hvalue.trans h.sized.item, h.consumer⟩
  next => cases hstep
  next =>
    cases hstep
    exact ⟨h.sized, h.tail, h.head, h.ordered, h.bounded, h.inOrder, h.stored, h.producer, trivial⟩
  next => cases hstep
  next => exact consistent_pushStep h hstep
  next => exact consistent_popStep h hstep

variable {allocates lockFree : Bool} {capacity itemSize : Int}

theorem consistent_new (h : spscNew allocates lockFree capacity itemSize = .ok q) :
    Consistent capacity.toNat itemSize.toNat { queue := q } := by
  rw [spscNew] at h
  split_ifs at h with hinvalid
  cases h
  push Not at hinvalid
  obtain ⟨hcapacity, hitem, hcapacity', hitem', hfits⟩ := hinvalid
  have hpositive : 0 < itemSize.toNat := by omega
  have hslots : sizeT (capacity.toNat + 1) = capacity.toNat + 1 := by
    rw [sizeMax] at hcapacity'
    exact sizeT_of_lt (by omega)
  have hproduct := (Nat.le_div_iff_mul_le hpositive).1 hfits
  refine ⟨⟨hslots, rfl, hpositive, ?_, ?_⟩, rfl, rfl, le_rfl, Nat.zero_le _, rfl, ?_, trivial, trivial⟩
  · rw [sizeMax] at hproduct
    omega
  · rw [length_replicate, hslots]
  · intro k m _ hm
    cases hm

theorem consistent_reachable (hnew : spscNew allocates lockFree capacity itemSize = .ok q)
    (hs : Reachable step { queue := q } s) : Consistent capacity.toNat itemSize.toNat s :=
  hs.invariant (consistent_new hnew) fun a _ _ h _ hstep => consistent_step a h hstep

def writtenSlot (s : State) : Option Nat :=
  match s.producer with
  | .copyItem _ tail _ => some tail
  | _ => none

def readSlot (s : State) : Option Nat :=
  match s.consumer with
  | .copyItem head => some head
  | _ => none

theorem Consistent.writtenSlot_eq {capacity i : Nat} (h : Consistent capacity size s)
    (hi : writtenSlot s = some i) : i = s.queue.tail ∧ s.pushed.length < s.popped.length + capacity := by
  have hknows := h.producer
  rw [ProducerKnows] at hknows
  rw [writtenSlot] at hi
  split at hi
  next value tail next hpoint =>
    rw [hpoint] at hknows
    cases hi
    exact ⟨hknows.2.1, hknows.2.2.2⟩
  next => cases hi

theorem Consistent.readSlot_eq {capacity i : Nat} (h : Consistent capacity size s)
    (hi : readSlot s = some i) : i = s.queue.head ∧ s.popped.length < s.pushed.length := by
  have hknows := h.consumer
  rw [ConsumerKnows] at hknows
  rw [readSlot] at hi
  split at hi
  next head hpoint =>
    rw [hpoint] at hknows
    cases hi
    exact hknows
  next => cases hi

theorem full_of_failed {capacity : Nat} (h : Consistent capacity size s) (hstep : step .producer s = some s')
    (hfailed : s'.producer = .outside (some 0)) : s.pushed.length = s.popped.length + capacity := by
  have hknows := h.producer
  rw [ProducerKnows] at hknows
  rw [step, pushStep] at hstep
  split at hstep
  next => cases hstep
  next =>
    cases hstep
    cases hfailed
  next value tail hpoint =>
    rw [hpoint] at hknows
    obtain ⟨-, rfl⟩ := hknows
    split_ifs at hstep with hfull
    · exact h.full_iff.1 hfull
    · cases hstep
      cases hfailed
  next =>
    cases hstep
    cases hfailed
  next =>
    cases hstep
    cases hfailed

theorem empty_of_failed {capacity : Nat} (h : Consistent capacity size s) (hstep : step .consumer s = some s')
    (hfailed : s'.consumer = .outside (some none)) : s.popped.length = s.pushed.length := by
  have hknows := h.consumer
  rw [ConsumerKnows] at hknows
  rw [step, popStep] at hstep
  split at hstep
  next => cases hstep
  next =>
    cases hstep
    cases hfailed
  next head hpoint =>
    rw [hpoint] at hknows
    obtain rfl := hknows
    split_ifs at hstep with hempty
    · exact h.empty_iff.1 hempty
    · cases hstep
      cases hfailed
  next =>
    cases hstep
    cases hfailed
  next =>
    cases hstep
    cases hfailed

/-- In each state that the two threads reach, what was popped is the beginning of what was pushed, a
push that fails finds the queue full and a pop that fails finds it empty, no slot is accessed by
both, and all indices are in bounds. -/
theorem queue_isBoundedFifo (hnew : spscNew allocates lockFree capacity itemSize = .ok q)
    (hs : Reachable step { queue := q } s) :
    s.popped <+: s.pushed ∧
      (∀ s', step .producer s = some s' → s'.producer = .outside (some 0) →
        s.pushed.length = s.popped.length + capacity.toNat) ∧
      (∀ s', step .consumer s = some s' → s'.consumer = .outside (some none) →
        s.popped.length = s.pushed.length) ∧
      (∀ i, writtenSlot s = some i → readSlot s ≠ some i) ∧
      s.queue.slots = q.slots ∧ s.queue.head < q.slots ∧ s.queue.tail < q.slots ∧
      (∀ i, writtenSlot s = some i ∨ readSlot s = some i → i < q.slots) := by
  have h := consistent_reachable hnew hs
  have hslots : q.slots = capacity.toNat + 1 := (consistent_new hnew).sized.slots
  refine ⟨?_, fun s' => full_of_failed h, fun s' => empty_of_failed h, fun i hwritten hread => ?_,
    h.sized.slots.trans hslots.symm, ?_, ?_, ?_⟩
  · rw [h.inOrder]
    exact take_prefix _ _
  · obtain ⟨htail, -⟩ := h.writtenSlot_eq hwritten
    obtain ⟨hhead, hitem⟩ := h.readSlot_eq hread
    refine h.slot_ne le_rfl hitem ?_
    rw [← h.head, ← hhead, htail]
  · rw [hslots]
    exact h.head_lt
  · rw [hslots]
    exact h.tail_lt
  · rw [hslots]
    rintro i (hwritten | hread)
    · rw [(h.writtenSlot_eq hwritten).1]
      exact h.tail_lt
    · rw [(h.readSlot_eq hread).1]
      exact h.head_lt

/-- A push, and a second one that finds the queue of one item full while the first is popped. -/
def crossedRun : List Action :=
  [.push [1, 2], .producer, .producer, .producer, .producer, .push [3, 4], .pop, .producer, .consumer,
    .consumer, .producer, .consumer, .consumer]

theorem crossed_isFifo : ∃ q s, spscNew true true 1 2 = .ok q ∧
    run step crossedRun { queue := q } = some s ∧ s.popped = [[1, 2]] ∧
    s.producer = .outside (some 0) ∧ s.popped <+: s.pushed := by
  have hrun : (run step crossedRun
      { queue := { head := 0, tail := 0, slots := 2, itemSize := 2, items := [0, 0, 0, 0] } }).any
        (fun s => s.popped = [[1, 2]] ∧ s.producer = .outside (some 0)) := by decide
  obtain ⟨s, hs, hresult⟩ := (Option.any_eq_true _ _).1 hrun
  obtain ⟨hpopped, hfailed⟩ := of_decide_eq_true hresult
  have hnew : spscNew true true 1 2 =
      .ok { head := 0, tail := 0, slots := 2, itemSize := 2, items := [0, 0, 0, 0] } := by decide
  exact ⟨_, s, hnew, hs, hpopped, hfailed, (queue_isBoundedFifo hnew (reachable_of_run hs)).1⟩

end Mlang.SpscQueues
