import Mlang.SpscQueues

namespace Mlang.LockFreeQueues

open RingSlots Transitions List Option
open SpscQueues (Bytes sizeT sizeT_of_lt)

structure Queue where
  head : Nat
  tail : Nat
  closed : Bool
  cap : Nat
  items : List (Option Bytes)
  deriving DecidableEq

def lfqueueNew (capacity : Int) : Queue :=
  let cap := if capacity > 0 then capacity.toNat else 256
  { head := 0, tail := 0, closed := false, cap := cap, items := List.replicate cap none }

def Queue.load (q : Queue) (i : Nat) : Option Bytes := (q.items[i]?).join

/-- The difference of two values of the type `size_t`. -/
def subT (a b : Nat) : Nat := sizeT (a + 2 ^ 64 - b)

/-- Where the producer is: outside of a call, with the result of the last one, or in front of its
next access. -/
inductive SendPoint
  | outside (result : Option Int)
  | loadClosed (msg : Bytes)
  | loadTail (msg : Bytes)
  | loadHead (msg : Bytes) (tail : Nat)
  | writeSlot (msg : Bytes) (tail : Nat)
  | storeTail (msg : Bytes) (tail : Nat)
  | storeClosed
  deriving DecidableEq

/-- The numbers are the capacity of the buffer and the head that was loaded. -/
inductive RecvPoint
  | outside (result : Option (Int × Bytes))
  | loadHead (capacity : Int)
  | loadTail (capacity : Int) (head : Nat)
  | loadClosed (capacity : Int) (head : Nat)
  | readSlot (capacity : Int) (head : Nat)
  | clearSlot (capacity : Int) (head : Nat) (msg : Option Bytes)
  | storeHead (capacity : Int) (head : Nat) (msg : Option Bytes)
  deriving DecidableEq

/-- The queue and its two threads, with the messages that were accepted and those that were received
so far. -/
structure State where
  queue : Queue
  producer : SendPoint := .outside none
  consumer : RecvPoint := .outside none
  accepted : List Bytes := []
  received : List (Option Bytes) := []
  deriving DecidableEq

/-- `allocates` tells whether there is memory for the copy of a message. -/
inductive Action
  | send (msg : Bytes)
  | close
  | tryRecv (buf : Bool) (capacity : Int)
  | producer (allocates : Bool)
  | consumer
  deriving DecidableEq

def sendStep (allocates : Bool) (s : State) : Option State :=
  match s.producer with
  | .outside _ => none
  | .loadClosed msg =>
    if s.queue.closed then some { s with producer := .outside (some (-1)) }
    else some { s with producer := .loadTail msg }
  | .loadTail msg => some { s with producer := .loadHead msg s.queue.tail }
  | .loadHead msg tail =>
    if subT tail s.queue.head ≥ s.queue.cap then some { s with producer := .outside (some 1) }
    else some { s with producer := .writeSlot msg tail }
  | .writeSlot msg tail =>
    if allocates then
      some { s with
        queue := { s.queue with items := s.queue.items.set (tail % s.queue.cap) (some msg) }
        producer := .storeTail msg tail }
    else some { s with producer := .outside (some (-1)) }
  | .storeTail msg tail =>
    some { s with
      queue := { s.queue with tail := sizeT (tail + 1) }
      producer := .outside (some 0)
      accepted := s.accepted ++ [msg] }
  | .storeClosed =>
    some { s with queue := { s.queue with closed := true }, producer := .outside (some 0) }

def copiedLength (msg : Option Bytes) (capacity : Int) : Int :=
  min ((msg.map List.length).getD 0 : Nat) (capacity - 1)

def recvStep (s : State) : Option State :=
  match s.consumer with
  | .outside _ => none
  | .loadHead capacity => some { s with consumer := .loadTail capacity s.queue.head }
  | .loadTail capacity head =>
    if head = s.queue.tail then some { s with consumer := .loadClosed capacity head }
    else some { s with consumer := .readSlot capacity head }
  | .loadClosed _ _ =>
    some { s with consumer := .outside (some (if s.queue.closed then 0 else -2, [])) }
  | .readSlot capacity head =>
    some { s with consumer := .clearSlot capacity head (s.queue.load (head % s.queue.cap)) }
  | .clearSlot capacity head msg =>
    some { s with
      queue := { s.queue with items := s.queue.items.set (head % s.queue.cap) none }
      consumer := .storeHead capacity head msg }
  | .storeHead capacity head msg =>
    some { s with
      queue := { s.queue with head := sizeT (head + 1) }
      consumer := .outside (some (copiedLength msg capacity,
        (msg.getD []).take (copiedLength msg capacity).toNat))
      received := s.received ++ [msg] }

def step (a : Action) (s : State) : Option State :=
  match a, s.producer, s.consumer with
  | .send msg, .outside _, _ => some { s with producer := .loadClosed msg }
  | .send _, _, _ => none
  | .close, .outside _, _ => some { s with producer := .storeClosed }
  | .close, _, _ => none
  | .tryRecv buf capacity, _, .outside _ =>
    if ¬ buf ∨ capacity ≤ 1 then some { s with consumer := .outside (some (-1, [])) }
    else some { s with consumer := .loadHead capacity }
  | .tryRecv _ _, _, _ => none
  | .producer allocates, _, _ => sendStep allocates s
  | .consumer, _, _ => recvStep s

variable {a d n cap : Nat}

/-- The slot of the message with a number. -/
def slotOf (cap k : Nat) : Nat := sizeT k % cap

theorem sizeT_of_split {r q : Nat} (h : a = r + 2 ^ 64 * q) (hr : r < 2 ^ 64) : sizeT a = r := by
  rw [h, sizeT, Nat.add_mul_mod_self_left]
  exact Nat.mod_eq_of_lt hr

theorem exists_slotOf_eq_iff (hle : d ≤ a) (hnear : a < d + cap) (hcap : cap < 2 ^ 64) :
    (∃ k, d ≤ k ∧ k < a ∧ slotOf cap k = slotOf cap a) ↔
      sizeT a < 2 ^ 64 % cap ∧ 2 ^ 64 % cap ≤ a - d := by
  have hdiv : 2 ^ 64 * (a / 2 ^ 64) + sizeT a = a := Nat.div_add_mod a (2 ^ 64)
  have hlt : sizeT a < 2 ^ 64 := Nat.mod_lt a (by decide)
  have hpositive : 0 < cap := by omega
  have hrest : 2 ^ 64 % cap < cap := Nat.mod_lt _ hpositive
  constructor
  · rintro ⟨k, hdk, hka, hslot⟩
    by_cases hwraps : a - k ≤ sizeT a
    · have hk : sizeT k = sizeT a - (a - k) :=
        sizeT_of_split (show k = sizeT a - (a - k) + 2 ^ 64 * (a / 2 ^ 64) by omega) (by omega)
      rw [slotOf, slotOf, hk] at hslot
      exact absurd hslot (mod_ne_mod (by omega) (by omega))
    · have hquotient : 0 < a / 2 ^ 64 := by omega
      have hk : sizeT k = 2 ^ 64 + sizeT a - (a - k) :=
        sizeT_of_split
          (show k = 2 ^ 64 + sizeT a - (a - k) + 2 ^ 64 * (a / 2 ^ 64 - 1) by omega) (by omega)
      have hcongr : (2 ^ 64 + sizeT a - (a - k) + (a - k)) % cap = (sizeT a + (a - k)) % cap := by
        rw [slotOf, slotOf, hk] at hslot
        exact Nat.ModEq.add_right (a - k) hslot
      have hcancel : 2 ^ 64 % cap = (a - k) % cap := by
        refine Nat.ModEq.add_left_cancel' (sizeT a) ?_
        have hsum : 2 ^ 64 + sizeT a - (a - k) + (a - k) = sizeT a + 2 ^ 64 := by omega
        rw [hsum] at hcongr
        exact hcongr
      rw [Nat.mod_eq_of_lt (show a - k < cap by omega)] at hcancel
      omega
  · rintro ⟨hwraps, hfits⟩
    refine ⟨a - 2 ^ 64 % cap, by omega, by omega, ?_⟩
    have hquotient : 0 < a / 2 ^ 64 := by omega
    have hk : sizeT (a - 2 ^ 64 % cap) = 2 ^ 64 - 2 ^ 64 % cap + sizeT a :=
      sizeT_of_split (show a - 2 ^ 64 % cap =
        2 ^ 64 - 2 ^ 64 % cap + sizeT a + 2 ^ 64 * (a / 2 ^ 64 - 1) by omega) (by omega)
    have hdvd : (2 ^ 64 - 2 ^ 64 % cap) % cap = 0 := Nat.sub_mod_eq_zero_of_mod_eq (Nat.mod_mod _ _).symm
    rw [slotOf, slotOf, hk, Nat.add_mod, hdvd, Nat.zero_add, Nat.mod_mod]

variable {size : Nat} {s : State}

def outOfSlot (s : State) : Nat :=
  match s.consumer with
  | .storeHead _ _ _ => 1
  | _ => 0

def taken (s : State) : Nat := s.received.length + outOfSlot s

def inSlots (s : State) : Nat := subT s.queue.tail s.queue.head - outOfSlot s

def pending (s : State) : Option Nat :=
  match s.producer with
  | .storeTail _ tail => some (tail % s.queue.cap)
  | _ => none

def ProducerKnows (cap : Nat) (s : State) : Prop :=
  match s.producer with
  | .loadHead _ tail => tail = s.queue.tail
  | .writeSlot _ tail => tail = s.queue.tail ∧ s.accepted.length < s.received.length + cap
  | .storeTail msg tail =>
    tail = s.queue.tail ∧ s.accepted.length < s.received.length + cap ∧
      s.queue.load (slotOf cap s.accepted.length) = some msg ∧
      ∀ k, taken s ≤ k → k < s.accepted.length → slotOf cap k ≠ slotOf cap s.accepted.length
  | _ => True

def ConsumerKnows (s : State) : Prop :=
  match s.consumer with
  | .loadTail _ head => head = s.queue.head
  | .loadClosed _ head => head = s.queue.head
  | .readSlot _ head => head = s.queue.head ∧ s.received.length < s.accepted.length
  | .clearSlot _ head msg =>
    head = s.queue.head ∧ ∃ m, s.accepted[s.received.length]? = some m ∧ msg = some m
  | .storeHead _ head msg =>
    head = s.queue.head ∧ ∃ m, s.accepted[s.received.length]? = some m ∧ msg = some m
  | _ => True

structure Consistent (size : Nat) (s : State) : Prop where
  cap : s.queue.cap = size
  positive : 0 < size
  small : size < 2 ^ 64
  slots : s.queue.items.length = size
  tail : s.queue.tail = sizeT s.accepted.length
  head : s.queue.head = sizeT s.received.length
  ordered : taken s ≤ s.accepted.length
  bounded : s.accepted.length ≤ s.received.length + size
  inOrder : s.received = (s.accepted.take s.received.length).map some
  stored : Stored s.queue.load (slotOf size) (taken s) (s.accepted.map some)
  distinct : ∀ j k, taken s ≤ j → j < k → k < s.accepted.length → slotOf size j ≠ slotOf size k
  cleared : ∀ i < size, (∀ k, taken s ≤ k → k < s.accepted.length → slotOf size k ≠ i) →
    pending s ≠ some i → s.queue.load i = none
  producer : ProducerKnows size s
  consumer : ConsumerKnows s

variable {s' : State}

theorem subT_sizeT {a d : Nat} (hle : d ≤ a) (hlt : a - d < 2 ^ 64) :
    subT (sizeT a) (sizeT d) = a - d := by
  rw [subT, sizeT, sizeT, sizeT]
  omega

theorem slotOf_lt (h : 0 < size) (k : Nat) : slotOf size k < size := Nat.mod_lt _ h

theorem received_le_taken (s : State) : s.received.length ≤ taken s := Nat.le_add_right _ _

variable (h : Consistent size s)
include h

theorem Consistent.received_le : s.received.length ≤ s.accepted.length :=
  (received_le_taken s).trans h.ordered

theorem Consistent.distance :
    subT s.queue.tail s.queue.head = s.accepted.length - s.received.length := by
  have hbounded := h.bounded
  have hsmall := h.small
  rw [h.tail, h.head, subT_sizeT h.received_le (by omega)]

theorem Consistent.inSlots_eq : inSlots s = s.accepted.length - taken s := by
  rw [inSlots, h.distance, taken]
  omega

theorem Consistent.tail_slot :
    s.queue.tail % s.queue.cap = slotOf size s.accepted.length := by
  rw [h.tail, h.cap, slotOf]

theorem Consistent.head_slot :
    s.queue.head % s.queue.cap = slotOf size s.received.length := by
  rw [h.head, h.cap, slotOf]

theorem Consistent.empty_iff :
    s.queue.head = s.queue.tail ↔ s.received.length = s.accepted.length := by
  have hordered := h.received_le
  have hbounded := h.bounded
  have hsmall := h.small
  rw [h.head, h.tail, eq_comm, sizeT, sizeT, mod_eq_mod_iff hordered (by omega)]
  omega

omit h

theorem load_set {q : Queue} {i j : Nat} {x : Option Bytes} (hj : j < q.items.length) :
    Queue.load { q with items := q.items.set j x } i = if i = j then x else q.load i :=
  join_set hj

theorem Consistent.load_tail_iff (h : Consistent size s) (hpending : pending s = none) :
    s.queue.load (slotOf size s.accepted.length) = none ↔
      ∀ k, taken s ≤ k → k < s.accepted.length → slotOf size k ≠ slotOf size s.accepted.length := by
  constructor
  · intro hnone k hk hlt hslot
    have hm : (s.accepted.map some)[k]? = some (some s.accepted[k]) := by
      rw [getElem?_map, getElem?_eq_getElem hlt]
      rfl
    rw [← hslot, h.stored k _ hk hm] at hnone
    cases hnone
  · intro hfree
    refine h.cleared _ (slotOf_lt h.positive _) hfree ?_
    rw [hpending]
    exact some_ne_none _ ∘ Eq.symm

/-- What a step has to find for the queue to stay a queue: at a write that the wrapped counter does
not choose a slot of the messages in front of it, and at a look at `closed` that nothing was sent
since the tail was loaded. -/
structure Separates (a : Action) (s : State) : Prop where
  write : ∀ msg tail, a = .producer true → s.producer = .writeSlot msg tail →
    ¬ (s.queue.tail < 2 ^ 64 % s.queue.cap ∧ 2 ^ 64 % s.queue.cap ≤ inSlots s)
  closed : ∀ capacity head, a = .consumer → s.consumer = .loadClosed capacity head →
    s.queue.closed = true → s.queue.tail = head

def separates (a : Action) (s : State) : Bool :=
  match a with
  | .producer true =>
    match s.producer with
    | .writeSlot _ _ =>
      !(s.queue.tail < 2 ^ 64 % s.queue.cap && 2 ^ 64 % s.queue.cap ≤ inSlots s)
    | _ => true
  | .consumer =>
    match s.consumer with
    | .loadClosed _ head => !s.queue.closed || s.queue.tail = head
    | _ => true
  | _ => true

theorem separates_iff (a : Action) (s : State) : separates a s = true ↔ Separates a s := by
  constructor
  · intro h
    refine ⟨?_, ?_⟩
    · rintro msg tail rfl hpoint ⟨hwraps, hfits⟩
      rw [separates, hpoint, Bool.not_eq_true', Bool.and_eq_false_iff] at h
      rcases h with h | h
      · exact of_decide_eq_false h hwraps
      · exact of_decide_eq_false h hfits
    · rintro capacity head rfl hpoint hclosed
      rw [separates, hpoint, hclosed] at h
      exact of_decide_eq_true h
  · intro h
    cases a with
    | producer allocates =>
      cases allocates with
      | false => rfl
      | true =>
        rw [separates]
        split
        next msg tail hpoint =>
          rw [Bool.not_eq_true', Bool.and_eq_false_iff, decide_eq_false_iff_not,
            decide_eq_false_iff_not, ← not_and_or]
          exact h.write msg tail rfl hpoint
        next => rfl
    | consumer =>
      rw [separates]
      split
      next capacity head hpoint =>
        cases hclosed : s.queue.closed with
        | false => rfl
        | true => exact decide_eq_true (h.closed capacity head rfl hpoint hclosed)
      next => rfl
    | send | close | tryRecv => rfl

instance (a : Action) (s : State) : Decidable (Separates a s) :=
  decidable_of_iff _ (separates_iff a s)

variable (h : Consistent size s)
include h

theorem Consistent.write_iff (hpending : pending s = none)
    (hroom : s.accepted.length < s.received.length + size) :
    s.queue.load (s.queue.tail % s.queue.cap) = none ↔
      ¬ (s.queue.tail < 2 ^ 64 % s.queue.cap ∧ 2 ^ 64 % s.queue.cap ≤ inSlots s) := by
  have htaken := received_le_taken s
  have hexists := exists_slotOf_eq_iff h.ordered
    (show s.accepted.length < taken s + size by omega) h.small
  rw [h.tail_slot, h.load_tail_iff hpending, h.inSlots_eq, h.cap, h.tail, ← hexists]
  push Not
  rfl

theorem consistent_writeSlot {msg : Bytes} {tail : Nat} (hpoint : s.producer = .writeSlot msg tail)
    (hseparates : ¬ (s.queue.tail < 2 ^ 64 % s.queue.cap ∧ 2 ^ 64 % s.queue.cap ≤ inSlots s)) :
    Consistent size { s with
      queue := { s.queue with items := s.queue.items.set (tail % s.queue.cap) (some msg) }
      producer := .storeTail msg tail } := by
  have hknows := h.producer
  rw [ProducerKnows, hpoint] at hknows
  obtain ⟨rfl, hroom⟩ := hknows
  have hpending : pending s = none := by rw [pending, hpoint]
  have hfree := (h.load_tail_iff hpending).1 (by
    rw [← h.tail_slot]
    exact (h.write_iff hpending hroom).2 hseparates)
  have hbound : s.queue.tail % s.queue.cap < s.queue.items.length := by
    rw [h.tail_slot, h.slots]
    exact slotOf_lt h.positive _
  refine ⟨h.cap, h.positive, h.small, ?_, h.tail, h.head, h.ordered, h.bounded, h.inOrder, ?_,
    h.distinct, ?_, ⟨rfl, hroom, ?_, hfree⟩, h.consumer⟩
  · exact List.length_set.trans h.slots
  · refine h.stored.congr fun k hk hlt => ?_
    rw [length_map] at hlt
    refine (load_set hbound).trans (if_neg ?_)
    rw [h.tail_slot]
    exact hfree k hk hlt
  · intro i hi hslots hother
    have hne : i ≠ s.queue.tail % s.queue.cap := fun heq => hother (congrArg some heq.symm)
    refine ((load_set hbound).trans (if_neg hne)).trans (h.cleared i hi hslots ?_)
    rw [hpending]
    exact some_ne_none _ ∘ Eq.symm
  · refine (load_set hbound).trans (if_pos ?_)
    exact h.tail_slot.symm

theorem consistent_storeTail {msg : Bytes} {tail : Nat} (hpoint : s.producer = .storeTail msg tail) :
    Consistent size { s with
      queue := { s.queue with tail := sizeT (tail + 1) }
      producer := .outside (some 0)
      accepted := s.accepted ++ [msg] } := by
  have hknows := h.producer
  rw [ProducerKnows, hpoint] at hknows
  obtain ⟨rfl, hroom, hwritten, hfree⟩ := hknows
  have hlength : (s.accepted ++ [msg]).length = s.accepted.length + 1 := length_append
  refine ⟨h.cap, h.positive, h.small, h.slots, ?_, h.head, ?_, ?_, ?_, ?_, ?_, ?_, trivial, ?_⟩
  · dsimp only
    rw [hlength, h.tail, sizeT, sizeT, sizeT]
    omega
  · have hordered := h.ordered
    dsimp only [taken, outOfSlot] at hordered ⊢
    rw [hlength]
    omega
  · dsimp only
    rw [hlength]
    exact hroom
  · dsimp only
    rw [take_append_of_le_length h.received_le]
    exact h.inOrder
  · dsimp only
    rw [map_append]
    refine h.stored.put ?_
    rw [length_map]
    exact hwritten
  · intro j k hj hjk hk
    dsimp only at hk
    rw [hlength] at hk
    rcases Nat.lt_succ_iff_lt_or_eq.1 hk with hlt | rfl
    · exact h.distinct j k hj hjk hlt
    · exact hfree j hj hjk
  · intro i hi hslots _
    dsimp only at hslots
    rw [hlength] at hslots
    have hne : slotOf size s.accepted.length ≠ i :=
      hslots _ h.ordered (Nat.lt_succ_self _)
    refine h.cleared i hi (fun k hk hlt => hslots k hk (hlt.trans (Nat.lt_succ_self _))) ?_
    rw [pending, hpoint]
    dsimp only
    rw [h.tail_slot]
    exact fun heq => hne (Option.some.inj heq)
  · have hconsumer := h.consumer
    rw [ConsumerKnows] at hconsumer ⊢
    dsimp only
    split at hconsumer
    next => exact hconsumer
    next => exact hconsumer
    next =>
      rw [hlength]
      exact ⟨hconsumer.1, hconsumer.2.trans (Nat.lt_succ_self _)⟩
    next =>
      obtain ⟨hhead, m, hm, hmsg⟩ := hconsumer
      refine ⟨hhead, m, ?_, hmsg⟩
      rw [getElem?_append_left (List.getElem?_eq_some_iff.1 hm).1]
      exact hm
    next =>
      obtain ⟨hhead, m, hm, hmsg⟩ := hconsumer
      refine ⟨hhead, m, ?_, hmsg⟩
      rw [getElem?_append_left (List.getElem?_eq_some_iff.1 hm).1]
      exact hm
    next => trivial

theorem Consistent.moveProducer {point : SendPoint} (hpending : pending s = none) (hknows : ProducerKnows size { s with producer := point }) :
    Consistent size { s with producer := point } := by
  refine ⟨h.cap, h.positive, h.small, h.slots, h.tail, h.head, h.ordered, h.bounded, h.inOrder,
    h.stored, h.distinct, fun i hi hslots _ => h.cleared i hi hslots ?_, hknows, h.consumer⟩
  rw [hpending]
  exact some_ne_none _ ∘ Eq.symm

theorem consistent_sendStep {allocates : Bool} (hseparates : Separates (.producer allocates) s) (hstep : sendStep allocates s = some s') :
    Consistent size s' := by
  have hknows := h.producer
  rw [ProducerKnows] at hknows
  rw [sendStep] at hstep
  split at hstep
  next => cases hstep
  next msg hpoint =>
    have hpending : pending s = none := by rw [pending, hpoint]
    split_ifs at hstep
    · cases hstep
      exact h.moveProducer hpending trivial
    · cases hstep
      exact h.moveProducer hpending trivial
  next msg hpoint =>
    have hpending : pending s = none := by rw [pending, hpoint]
    cases hstep
    exact h.moveProducer hpending rfl
  next msg tail hpoint =>
    have hpending : pending s = none := by rw [pending, hpoint]
    rw [hpoint] at hknows
    obtain rfl := hknows
    split_ifs at hstep with hfull
    · cases hstep
      exact h.moveProducer hpending trivial
    · cases hstep
      refine h.moveProducer hpending ⟨rfl, ?_⟩
      rw [h.distance, h.cap] at hfull
      dsimp only
      omega
  next msg tail hpoint =>
    have hpending : pending s = none := by rw [pending, hpoint]
    split_ifs at hstep with hallocates
    · cases hstep
      exact consistent_writeSlot h hpoint (hseparates.write msg tail (by rw [hallocates]) hpoint)
    · cases hstep
      exact h.moveProducer hpending trivial
  next msg tail hpoint =>
    cases hstep
    exact consistent_storeTail h hpoint
  next hpoint =>
    have hpending : pending s = none := by rw [pending, hpoint]
    cases hstep
    refine ⟨h.cap, h.positive, h.small, h.slots, h.tail, h.head, h.ordered, h.bounded, h.inOrder,
      h.stored, h.distinct, fun i hi hslots _ => h.cleared i hi hslots ?_, trivial, h.consumer⟩
    rw [hpending]
    exact some_ne_none _ ∘ Eq.symm

theorem Consistent.moveConsumer {point : RecvPoint} (hout : outOfSlot s = 0) (hout' : outOfSlot { s with consumer := point } = 0)
    (hknows : ConsumerKnows { s with consumer := point }) :
    Consistent size { s with consumer := point } := by
  have htaken : taken { s with consumer := point } = taken s := by
    rw [taken, taken, hout, hout']
  refine ⟨h.cap, h.positive, h.small, h.slots, h.tail, h.head, ?_, h.bounded, h.inOrder, ?_, ?_, ?_,
    ?_, hknows⟩
  · rw [htaken]
    exact h.ordered
  · rw [htaken]
    exact h.stored
  · rw [htaken]
    exact h.distinct
  · rw [htaken]
    exact h.cleared
  · have hproducer := h.producer
    rw [ProducerKnows] at hproducer ⊢
    rw [htaken]
    exact hproducer

theorem consistent_clearSlot {capacity : Int} {head : Nat} {msg : Option Bytes} (hpoint : s.consumer = .clearSlot capacity head msg) :
    Consistent size { s with
      queue := { s.queue with items := s.queue.items.set (head % s.queue.cap) none }
      consumer := .storeHead capacity head msg } := by
  have hknows := h.consumer
  rw [ConsumerKnows, hpoint] at hknows
  obtain ⟨rfl, m, hm, hmsg⟩ := hknows
  have hitem := (List.getElem?_eq_some_iff.1 hm).1
  have hout : outOfSlot s = 0 := by rw [outOfSlot, hpoint]
  have htaken : taken s = s.received.length := by rw [taken, hout, Nat.add_zero]
  have hbound : s.queue.head % s.queue.cap < s.queue.items.length := by
    rw [h.head_slot, h.slots]
    exact slotOf_lt h.positive _
  refine ⟨h.cap, h.positive, h.small, ?_, h.tail, h.head, hitem, h.bounded, h.inOrder, ?_, ?_, ?_, ?_,
    ⟨rfl, m, hm, hmsg⟩⟩
  · exact List.length_set.trans h.slots
  · have hnext : Stored s.queue.load (slotOf size) (s.received.length + 1) (s.accepted.map some) :=
      h.stored.mono (by omega)
    refine hnext.congr fun k hk hlt => ?_
    rw [length_map] at hlt
    refine (load_set hbound).trans (if_neg ?_)
    rw [h.head_slot]
    exact (h.distinct _ k htaken.le hk hlt).symm
  · intro j k hj hjk hk
    exact h.distinct j k (htaken.le.trans ((Nat.le_succ _).trans hj)) hjk hk
  · intro i hi hslots hother
    refine (load_set hbound).trans ?_
    split_ifs with hcleared
    · rfl
    · refine h.cleared i hi (fun k hk hlt => ?_) hother
      rw [htaken] at hk
      rcases Nat.lt_or_eq_of_le hk with hbehind | rfl
      · exact hslots k hbehind hlt
      · rw [← h.head_slot]
        exact Ne.symm hcleared
  · have hproducer := h.producer
    rw [ProducerKnows] at hproducer ⊢
    dsimp only
    split at hproducer
    next => exact hproducer
    next => exact hproducer
    next =>
      obtain ⟨htail, hroom, hwritten, hfree⟩ := hproducer
      refine ⟨htail, hroom, ?_, fun k hk hlt => ?_⟩
      · refine ((load_set hbound).trans (if_neg ?_)).trans hwritten
        rw [h.head_slot]
        exact (hfree _ htaken.le hitem).symm
      · exact hfree k (htaken.le.trans ((Nat.le_succ _).trans hk)) hlt
    next => trivial

theorem consistent_storeHead {capacity : Int} {head : Nat} {msg : Option Bytes}
    {result : Option (Int × Bytes)} (hpoint : s.consumer = .storeHead capacity head msg) :
    Consistent size { s with
      queue := { s.queue with head := sizeT (head + 1) }
      consumer := .outside result
      received := s.received ++ [msg] } := by
  have hknows := h.consumer
  rw [ConsumerKnows, hpoint] at hknows
  obtain ⟨rfl, m, hm, rfl⟩ := hknows
  have hlength : (s.received ++ [some m]).length = s.received.length + 1 := length_append
  have hout : outOfSlot s = 1 := by rw [outOfSlot, hpoint]
  have htaken : taken s = s.received.length + 1 := by rw [taken, hout]
  have htaken' : taken { s with
      queue := { s.queue with head := sizeT (s.queue.head + 1) }
      consumer := .outside result
      received := s.received ++ [some m] } = taken s := by
    rw [htaken, taken]
    exact hlength
  refine ⟨h.cap, h.positive, h.small, h.slots, h.tail, ?_, ?_, ?_, ?_, ?_, ?_, ?_, ?_, trivial⟩
  · dsimp only
    rw [hlength, h.head, sizeT, sizeT, sizeT]
    omega
  · rw [htaken']
    exact h.ordered
  · have hbounded := h.bounded
    dsimp only
    rw [hlength]
    omega
  · dsimp only
    rw [hlength, take_succ_of_get hm, map_append, ← h.inOrder]
    rfl
  · rw [htaken']
    exact h.stored
  · rw [htaken']
    exact h.distinct
  · rw [htaken']
    exact h.cleared
  · have hproducer := h.producer
    rw [ProducerKnows] at hproducer ⊢
    rw [htaken']
    dsimp only
    rw [hlength]
    split at hproducer
    next => exact hproducer
    next => exact ⟨hproducer.1, by omega⟩
    next => exact ⟨hproducer.1, by omega, hproducer.2.2⟩
    next => trivial

theorem consistent_recvStep (hstep : recvStep s = some s') :
    Consistent size s' := by
  have hknows := h.consumer
  rw [ConsumerKnows] at hknows
  rw [recvStep] at hstep
  split at hstep
  next => cases hstep
  next capacity hpoint =>
    have hout : outOfSlot s = 0 := by rw [outOfSlot, hpoint]
    cases hstep
    exact h.moveConsumer hout rfl rfl
  next capacity head hpoint =>
    have hout : outOfSlot s = 0 := by rw [outOfSlot, hpoint]
    rw [hpoint] at hknows
    obtain rfl := hknows
    split_ifs at hstep with hempty
    · cases hstep
      exact h.moveConsumer hout rfl rfl
    · cases hstep
      have hitem : s.received.length < s.accepted.length :=
        lt_of_le_of_ne h.received_le fun heq => hempty (h.empty_iff.2 heq)
      exact h.moveConsumer hout rfl ⟨rfl, hitem⟩
  next capacity head hpoint =>
    have hout : outOfSlot s = 0 := by rw [outOfSlot, hpoint]
    cases hstep
    exact h.moveConsumer hout rfl trivial
  next capacity head hpoint =>
    have hout : outOfSlot s = 0 := by rw [outOfSlot, hpoint]
    rw [hpoint] at hknows
    obtain ⟨rfl, hitem⟩ := hknows
    cases hstep
    refine h.moveConsumer hout rfl ⟨rfl, s.accepted[s.received.length], getElem?_eq_getElem hitem, ?_⟩
    have hm : (s.accepted.map some)[s.received.length]? = some (some s.accepted[s.received.length]) := by
      rw [getElem?_map, getElem?_eq_getElem hitem]
      rfl
    rw [h.head_slot]
    refine h.stored _ _ ?_ hm
    rw [taken, hout]
    exact le_rfl
  next capacity head msg hpoint =>
    cases hstep
    exact consistent_clearSlot h hpoint
  next capacity head msg hpoint =>
    cases hstep
    exact consistent_storeHead h hpoint

omit h

theorem consistent_step (a : Action) (h : Consistent size s) (hseparates : Separates a s)
    (hstep : step a s = some s') : Consistent size s' := by
  rw [step.eq_def] at hstep
  split at hstep
  next msg result hpoint =>
    cases hstep
    exact h.moveProducer (by rw [pending, hpoint]) trivial
  next => cases hstep
  next result hpoint =>
    cases hstep
    exact h.moveProducer (by rw [pending, hpoint]) trivial
  next => cases hstep
  next buf capacity result hpoint =>
    have hout : outOfSlot s = 0 := by rw [outOfSlot, hpoint]
    split_ifs at hstep
    · cases hstep
      exact h.moveConsumer hout rfl trivial
    · cases hstep
      exact h.moveConsumer hout rfl trivial
  next => cases hstep
  next => exact consistent_sendStep h hseparates hstep
  next => exact consistent_recvStep h hstep

/-- A step of the queue as its senders and receivers rely on it: what was received is the beginning of
what was accepted, no slot is written over a message that is not taken, and `0` is returned behind the
last message only. -/
structure Faithful (a : Action) (s : State) : Prop where
  inOrder : s.received <+: s.accepted.map some
  written : ∀ msg tail, a = .producer true → s.producer = .writeSlot msg tail →
    s.queue.load (tail % s.queue.cap) = none
  cleared : ∀ capacity head msg, a = .consumer → s.consumer = .clearSlot capacity head msg →
    msg = s.accepted[s.received.length]?
  drained : ∀ capacity head, a = .consumer → s.consumer = .loadClosed capacity head →
    s.queue.closed = true → s.received = s.accepted.map some

theorem Consistent.begins (h : Consistent size s) : s.received <+: s.accepted.map some := by
  rw [h.inOrder, map_take]
  exact take_prefix _ _

theorem Consistent.drained_iff {capacity : Int} {head : Nat} (h : Consistent size s)
    (hpoint : s.consumer = .loadClosed capacity head) :
    s.queue.tail = head ↔ s.received = s.accepted.map some := by
  have hknows := h.consumer
  rw [ConsumerKnows, hpoint] at hknows
  obtain rfl := hknows
  rw [eq_comm, h.empty_iff]
  constructor
  · intro hlength
    rw [h.inOrder, hlength, take_length]
  · intro hall
    rw [hall, length_map]

theorem Consistent.faithful_iff (a : Action) (h : Consistent size s) : Faithful a s ↔ Separates a s := by
  have hwrite : ∀ msg tail, s.producer = .writeSlot msg tail →
      (s.queue.load (tail % s.queue.cap) = none ↔
        ¬ (s.queue.tail < 2 ^ 64 % s.queue.cap ∧ 2 ^ 64 % s.queue.cap ≤ inSlots s)) := by
    intro msg tail hpoint
    have hknows := h.producer
    rw [ProducerKnows, hpoint] at hknows
    obtain ⟨rfl, hroom⟩ := hknows
    exact h.write_iff (by rw [pending, hpoint]) hroom
  constructor
  · intro hfaithful
    exact ⟨fun msg tail ha hpoint => (hwrite msg tail hpoint).1 (hfaithful.written msg tail ha hpoint),
      fun capacity head ha hpoint hclosed =>
        (h.drained_iff hpoint).2 (hfaithful.drained capacity head ha hpoint hclosed)⟩
  · intro hseparates
    refine ⟨h.begins,
      fun msg tail ha hpoint => (hwrite msg tail hpoint).2 (hseparates.write msg tail ha hpoint),
      fun capacity head msg ha hpoint => ?_, fun capacity head ha hpoint hclosed =>
        (h.drained_iff hpoint).1 (hseparates.closed capacity head ha hpoint hclosed)⟩
    have hknows := h.consumer
    rw [ConsumerKnows, hpoint] at hknows
    obtain ⟨-, m, hm, rfl⟩ := hknows
    exact hm.symm

variable {capacity : Int}

theorem join_getElem?_replicate (n i : Nat) :
    ((List.replicate n (none : Option Bytes))[i]?).join = none := by
  rw [getElem?_replicate]
  split_ifs
  · rfl
  · rfl

theorem consistent_new (hcapacity : capacity < 2 ^ 63) :
    Consistent (lfqueueNew capacity).cap { queue := lfqueueNew capacity } := by
  have hpositive : 0 < (lfqueueNew capacity).cap ∧ (lfqueueNew capacity).cap < 2 ^ 64 := by
    rw [lfqueueNew]
    dsimp only
    split_ifs
    · omega
    · decide
  refine ⟨rfl, hpositive.1, hpositive.2, length_replicate, rfl, rfl, le_rfl, Nat.zero_le _, rfl,
    ?_, ?_, ?_, trivial, trivial⟩
  · intro k m _ hm
    cases hm
  · intro j k _ _ hk
    exact absurd hk (Nat.not_lt_zero k)
  · intro i _ _ _
    exact join_getElem?_replicate _ i

/-- The steps of a run are faithful exactly where none of them meets the wrapped counter at the wrong place or a close behind a late message. -/
theorem lfqueue_faithful_iff (hcapacity : capacity < 2 ^ 63) (actions : List Action) :
    (Along step Faithful { queue := lfqueueNew capacity } actions ↔
      Along step Separates { queue := lfqueueNew capacity } actions) ∧
    (Along step Separates { queue := lfqueueNew capacity } actions →
      ∀ s, run step actions { queue := lfqueueNew capacity } = some s →
        s.received <+: s.accepted.map some) := by
  have hnew := consistent_new hcapacity
  refine ⟨along_iff (fun a s h => h.faithful_iff a) (fun a s s' h hseparates hstep =>
    consistent_step a h hseparates hstep) hnew, fun hseparates s hrun => ?_⟩
  have h : Consistent (lfqueueNew capacity).cap s := invariant_of_along
    (fun a s s' h hseparates hstep => consistent_step a h hseparates hstep) hnew hseparates hrun
  exact h.begins

theorem separates_of_dvd {a : Action} (hdvd : s.queue.cap ∣ 2 ^ 64)
    (hclosed : ∀ capacity head, a = .consumer → s.consumer = .loadClosed capacity head →
      s.queue.closed = true → s.queue.tail = head) : Separates a s := by
  refine ⟨fun msg tail _ _ h => ?_, hclosed⟩
  rw [Nat.mod_eq_zero_of_dvd hdvd] at h
  exact Nat.not_lt_zero _ h.1

/-- A look at the empty queue, and before the look at `closed` a message and the end. -/
def lateRun : List Action :=
  [.tryRecv true 8, .consumer, .consumer, .send [97], .producer true, .producer true, .producer true,
    .producer true, .producer true, .close, .producer true]

theorem lateRun_notFaithful : ¬ ∀ (capacity : Int) (actions : List Action), 1 ≤ capacity →
    capacity < 2 ^ 63 → Along step Faithful { queue := lfqueueNew capacity } actions := by
  intro hall
  have hrun : (run step lateRun { queue := lfqueueNew 1 }).any fun s =>
      s.consumer = .loadClosed 8 0 ∧ s.queue.closed = true ∧ s.received = [] ∧
        s.accepted = [[97]] := by decide
  obtain ⟨s, hs, hresult⟩ := (any_eq_true _ _).1 hrun
  obtain ⟨hpoint, hclosed, hreceived, haccepted⟩ := of_decide_eq_true hresult
  have hfaithful := along_at (hall 1 (lateRun ++ [.consumer]) (by decide) (by decide)) hs
  have hdrained := hfaithful.drained 8 0 rfl hpoint hclosed
  rw [hreceived, haccepted] at hdrained
  cases hdrained

def plainRun : List Action :=
  [.send [97], .producer true, .producer true, .producer true, .producer true, .producer true,
    .tryRecv true 8, .consumer, .consumer, .consumer, .consumer, .consumer]

theorem plainRun_faithful : ∃ s, run step plainRun { queue := lfqueueNew 3 } = some s ∧
    s.received = [some [97]] ∧ Along step Faithful { queue := lfqueueNew 3 } plainRun ∧
    s.received <+: s.accepted.map some := by
  have hrun : (run step plainRun { queue := lfqueueNew 3 }).any fun s =>
      s.received = [some [97]] := by decide
  have hseparates : Along step Separates { queue := lfqueueNew 3 } plainRun := by decide
  obtain ⟨s, hs, hreceived⟩ := (any_eq_true _ _).1 hrun
  obtain ⟨hiff, hbegins⟩ := lfqueue_faithful_iff (show (3 : Int) < 2 ^ 63 by decide) plainRun
  exact ⟨s, hs, of_decide_eq_true hreceived, hiff.2 hseparates, hbegins hseparates s hs⟩

end Mlang.LockFreeQueues
