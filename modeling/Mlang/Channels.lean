import Mlang.RingSlots
import Mlang.Transitions
import Mlang.Wakeups

namespace Mlang.Channels

open RingSlots Transitions Wakeups

abbrev Bytes := List UInt8

structure Channel where
  closed : Bool
  cap : Nat
  count : Nat
  head : Nat
  tail : Nat
  items : List (Option Bytes)
  deriving DecidableEq

def channelNew (capacity : Int) : Channel :=
  let cap := if capacity > 0 then capacity.toNat else 64
  { closed := false, cap := cap, count := 0, head := 0, tail := 0, items := List.replicate cap none }

def Channel.load (ch : Channel) (i : Nat) : Option Bytes := (ch.items[i]?).join

def Channel.push (ch : Channel) (msg : Bytes) : Channel :=
  { ch with
    items := ch.items.set ch.tail (some msg)
    tail := (ch.tail + 1) % ch.cap
    count := ch.count + 1 }

def Channel.pop (ch : Channel) : Channel :=
  { ch with
    items := ch.items.set ch.head none
    head := (ch.head + 1) % ch.cap
    count := ch.count - 1 }

/-- How many bytes are copied to a buffer, `-1` where it has no room; `buf` tells whether there is
one. -/
def copiedLength (msg : Option Bytes) (buf : Bool) (capacity : Int) : Int :=
  if ¬ buf ∨ capacity ≤ 1 then -1 else min ((msg.map List.length).getD 0 : Nat) (capacity - 1)

inductive Result
  | sent (rc : Int)
  | received (n : Int) (buf : Bytes)
  | closed
  deriving DecidableEq

/-- A thread is outside of a call, or it is in one that may wait: `asleep` in the wait for a
condition, with no wake-up pending; otherwise it is about to take the mutex. -/
inductive Point
  | outside (result : Option Result)
  | sending (msg : Bytes) (asleep : Bool)
  | receiving (buf : Bool) (capacity : Int) (asleep : Bool)
  deriving DecidableEq

def Point.wake : Point → Point
  | .outside result => .outside result
  | .sending msg _ => .sending msg false
  | .receiving buf capacity _ => .receiving buf capacity false

def Point.sends (asleep : Bool) : Point → Bool
  | .sending _ sleeps => sleeps == asleep
  | _ => false

def Point.receives (asleep : Bool) : Point → Bool
  | .receiving _ _ sleeps => sleeps == asleep
  | _ => false

def canSend : Condition Point where
  asleep := Point.sends true
  awake := Point.sends false
  wake := Point.wake
  wakes := by
    intro t ht
    cases t with
    | outside | receiving => cases ht
    | sending msg asleep =>
      obtain rfl := eq_of_beq ht
      exact ⟨rfl, rfl, rfl⟩

def canRecv : Condition Point where
  asleep := Point.receives true
  awake := Point.receives false
  wake := Point.wake
  wakes := by
    intro t ht
    cases t with
    | outside | sending => cases ht
    | receiving buf capacity asleep =>
      obtain rfl := eq_of_beq ht
      exact ⟨rfl, rfl, rfl⟩

/-- The channel and its threads, with the messages that were sent, in the order of their pushes, and
those that were handed to receivers, in the order of their pops. -/
structure State where
  channel : Channel
  threads : List Point
  sent : List Bytes := []
  handed : List (Option Bytes) := []
  deriving DecidableEq

/-- Calls of a thread, and its critical sections: `enter` is that of `channel_send` and
`channel_recv`, behind a call or a wake-up, up to the return or the next wait. The list says which
threads the signal of a section wakes; `allocates` whether there is memory for a copy. -/
inductive Action
  | send (thread : Nat) (msg : Bytes)
  | recv (thread : Nat) (buf : Bool) (capacity : Int)
  | enter (thread : Nat) (allocates : Bool) (woken : List Nat)
  | tryRecv (thread : Nat) (buf : Bool) (capacity : Int) (woken : List Nat)
  | close (thread : Nat)
  | spurious (thread : Nat)
  deriving DecidableEq

def State.move (s : State) (thread : Nat) (point : Point) : State :=
  { s with threads := s.threads.set thread point }

def State.signal (s : State) (c : Condition Point) (woken : List Nat) : Option State :=
  if signals c woken s.threads then some { s with threads := rouse c woken s.threads } else none

def enterSend (thread : Nat) (msg : Bytes) (allocates : Bool) (woken : List Nat) (s : State) :
    Option State :=
  if s.channel.count = s.channel.cap ∧ ¬ s.channel.closed then
    some (s.move thread (.sending msg true))
  else if s.channel.closed ∨ ¬ allocates then
    some (s.move thread (.outside (some (.sent (-1)))))
  else
    State.signal { s.move thread (.outside (some (.sent 0))) with
      channel := s.channel.push msg
      sent := s.sent ++ [msg] } canRecv woken

def popIntoBuf (thread : Nat) (buf : Bool) (capacity : Int) (woken : List Nat) (s : State) :
    Option State :=
  let msg := s.channel.load s.channel.head
  let n := copiedLength msg buf capacity
  State.signal { s.move thread (.outside (some (.received n ((msg.getD []).take n.toNat)))) with
    channel := s.channel.pop
    handed := if n < 0 then s.handed else s.handed ++ [msg] } canSend woken

def enterRecv (thread : Nat) (buf : Bool) (capacity : Int) (woken : List Nat) (s : State) :
    Option State :=
  if s.channel.count = 0 then
    if s.channel.closed then some (s.move thread (.outside (some (.received 0 []))))
    else some (s.move thread (.receiving buf capacity true))
  else popIntoBuf thread buf capacity woken s

def tryRecv (thread : Nat) (buf : Bool) (capacity : Int) (woken : List Nat) (s : State) :
    Option State :=
  if s.channel.count = 0 then
    some (s.move thread (.outside (some (.received (if s.channel.closed then 0 else -2) []))))
  else popIntoBuf thread buf capacity woken s

def closeChannel (thread : Nat) (s : State) : State :=
  { s with
    channel := { s.channel with closed := true }
    threads := broadcast canSend
      (broadcast canRecv (s.threads.set thread (.outside (some .closed)))) }

def step (a : Action) (s : State) : Option State :=
  match a with
  | .send i msg =>
    match s.threads[i]? with
    | some (.outside _) => some (s.move i (.sending msg false))
    | _ => none
  | .recv i buf capacity =>
    match s.threads[i]? with
    | some (.outside _) => some (s.move i (.receiving buf capacity false))
    | _ => none
  | .enter i allocates woken =>
    match s.threads[i]? with
    | some (.sending msg false) => enterSend i msg allocates woken s
    | some (.receiving buf capacity false) => enterRecv i buf capacity woken s
    | _ => none
  | .tryRecv i buf capacity woken =>
    match s.threads[i]? with
    | some (.outside _) => tryRecv i buf capacity woken s
    | _ => none
  | .close i =>
    match s.threads[i]? with
    | some (.outside _) => some (closeChannel i s)
    | _ => none
  | .spurious i =>
    match s.threads[i]? with
    | some (.sending msg true) => some (s.move i (.sending msg false))
    | some (.receiving buf capacity true) => some (s.move i (.receiving buf capacity false))
    | _ => none

theorem signal_eq_some {s s' : State} {c : Condition Point} {woken : List Nat}
    (h : State.signal s c woken = some s') :
    signals c woken s.threads = true ∧ s' = { s with threads := rouse c woken s.threads } := by
  rw [State.signal] at h
  split_ifs at h with hsignals
  exact ⟨hsignals, (Option.some.inj h).symm⟩

theorem popIntoBuf_eq (thread : Nat) (buf : Bool) (capacity : Int) (woken : List Nat) (s : State) :
    ∃ result handed, popIntoBuf thread buf capacity woken s =
      State.signal { s.move thread (.outside result) with channel := s.channel.pop, handed := handed }
        canSend woken := ⟨_, _, rfl⟩

def initial (capacity : Int) (threads : Nat) : State where
  channel := channelNew capacity
  threads := List.replicate threads (.outside none)

end Mlang.Channels
