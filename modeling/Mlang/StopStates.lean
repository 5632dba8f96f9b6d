import Mathlib
import Mlang.Transitions

namespace Mlang.StopStates

def uint32Max : Nat := 2 ^ 32 - 1

/-- The block that the handle points to, how often it was freed, and what the calls of `stop_request`
returned, in the order of their exchanges. -/
structure Stop where
  references : Nat
  sources : Nat
  requested : Bool := false
  freed : Nat := 0
  answers : List Int := []
  deriving DecidableEq

inductive Call
  | retain
  | sourceRetain
  | release
  | sourceRelease
  | request
  | requested
  | possible
  deriving DecidableEq

/-- The reference that `stop_release` gives back. -/
inductive Owner
  | held (source : Bool)
  | sourceRelease
  | rollback
  deriving DecidableEq

/-- Where a thread is: outside of a call, with what the last one returned, or in front of an atomic step of one. -/
inductive Point
  | outside (last : Option (Call × Int))
  | retaining (source : Bool) (current : Nat)
  | sourceLoading
  | sourceRetaining (current : Nat)
  | sourceReleasing (source : Bool) (current : Nat)
  | releaseLoading (owner : Owner)
  | releasing (owner : Owner) (current : Nat)
  | freeing (owner : Owner)
  deriving DecidableEq

/-- The references that a thread holds, as tokens and as sources, and what the call that it runs has
changed of the two counters. -/
structure Thread where
  tokens : Nat := 0
  sources : Nat := 0
  point : Point := .outside none
  addedReferences : Int := 0
  addedSources : Int := 0
  deriving DecidableEq

def Thread.at (t : Thread) (point : Point) : Thread := { t with point := point }

def Thread.return (t : Thread) (call : Call) (rc : Int) : Thread := t.at (.outside (some (call, rc)))

def Thread.enter (t : Thread) (point : Point) : Thread :=
  { t with point := point, addedReferences := 0, addedSources := 0 }

def Thread.held (t : Thread) (source : Bool) : Nat := if source then t.sources else t.tokens

def Thread.holds (t : Thread) : Bool := 0 < t.tokens + t.sources

def Thread.gain (t : Thread) (source : Bool) : Thread :=
  if source then { t with sources := t.sources + 1 } else { t with tokens := t.tokens + 1 }

def Thread.lose (t : Thread) (source : Bool) : Thread :=
  if source then { t with sources := t.sources - 1 } else { t with tokens := t.tokens - 1 }

/-- What `stop_release` leads to for the call that it is part of. -/
def Thread.released (t : Thread) : Owner → Thread
  | .held _ => t.return .release 0
  | .sourceRelease => t.return .sourceRelease 0
  | .rollback => t.return .sourceRetain (-1)

def Thread.unreleased (t : Thread) : Owner → Thread
  | .held _ => t.return .release (-1)
  | .sourceRelease => t.return .sourceRelease (-1)
  | .rollback => t.return .sourceRetain (-1)

/-- The first steps of the calls, and the next step of a call that runs. -/
inductive Turn
  | retain
  | sourceRetain
  | release (source : Bool)
  | sourceRelease (source : Bool)
  | request
  | requested
  | possible
  | next (spurious : Bool)
  deriving DecidableEq

def retaining (p : Stop) (t : Thread) (source : Bool) (current : Nat) (spurious : Bool) : Stop × Thread :=
  if current = 0 ∨ current = uint32Max then
    (p, t.return (if source then .sourceRetain else .retain) (-1))
  else if spurious = true ∨ p.references ≠ current then (p, t.at (.retaining source p.references))
  else
    let p := { p with references := current + 1 }
    let t := { t with addedReferences := t.addedReferences + 1 }
    if source then (p, t.at .sourceLoading) else (p, (t.gain false).return .retain 0)

def sourceRetaining (p : Stop) (t : Thread) (current : Nat) (spurious : Bool) : Stop × Thread :=
  if current = 0 ∨ current = uint32Max then (p, t.at (.releaseLoading .rollback))
  else if spurious = true ∨ p.sources ≠ current then (p, t.at (.sourceRetaining p.sources))
  else
    ({ p with sources := current + 1 },
      (Thread.gain { t with addedSources := t.addedSources + 1 } true).return .sourceRetain 0)

def sourceReleasing (p : Stop) (t : Thread) (source : Bool) (current : Nat) (spurious : Bool) :
    Stop × Thread :=
  if current = 0 then (p, t.return .sourceRelease (-1))
  else if spurious = true ∨ p.sources ≠ current then (p, t.at (.sourceReleasing source p.sources))
  else
    ({ p with sources := current - 1 },
      (Thread.lose { t with addedSources := t.addedSources - 1 } source).at
        (.releaseLoading .sourceRelease))

def releasing (p : Stop) (t : Thread) (owner : Owner) (current : Nat) (spurious : Bool) : Stop × Thread :=
  if current = 0 then (p, t.unreleased owner)
  else if spurious = true ∨ p.references ≠ current then (p, t.at (.releasing owner p.references))
  else
    let p := { p with references := current - 1 }
    let t := { t with addedReferences := t.addedReferences - 1 }
    let t := match owner with
      | .held source => t.lose source
      | _ => t
    if current = 1 then (p, t.at (.freeing owner)) else (p, t.released owner)

def request (p : Stop) (t : Thread) : Stop × Thread :=
  let answer := if p.requested then 0 else 1
  ({ p with requested := true, answers := p.answers ++ [answer] }, t.return .request answer)

def next (p : Stop) (t : Thread) (spurious : Bool) : Option (Stop × Thread) :=
  match t.point with
  | .outside _ => none
  | .retaining source current => some (retaining p t source current spurious)
  | .sourceLoading => some (p, t.at (.sourceRetaining p.sources))
  | .sourceRetaining current => some (sourceRetaining p t current spurious)
  | .sourceReleasing source current => some (sourceReleasing p t source current spurious)
  | .releaseLoading owner => some (p, t.at (.releasing owner p.references))
  | .releasing owner current => some (releasing p t owner current spurious)
  | .freeing owner => some ({ p with freed := p.freed + 1 }, t.released owner)

def enter (p : Stop) (t : Thread) : Turn → Option (Stop × Thread)
  | .retain => if t.holds then some (p, t.enter (.retaining false p.references)) else none
  | .sourceRetain => if t.holds then some (p, t.enter (.retaining true p.references)) else none
  | .release source =>
    if 0 < t.held source then some (p, t.enter (.releasing (.held source) p.references)) else none
  | .sourceRelease source =>
    if 0 < t.held source then some (p, t.enter (.sourceReleasing source p.sources)) else none
  | .request => if t.holds then some (request p t) else none
  | .requested => if t.holds then some (p, t.return .requested (if p.requested then 1 else 0)) else none
  | .possible => if t.holds then some (p, t.return .possible (if p.sources ≠ 0 then 1 else 0)) else none
  | .next _ => none

def turn (a : Turn) (p : Stop) (t : Thread) : Option (Stop × Thread) :=
  match a, t.point with
  | .next spurious, _ => next p t spurious
  | a, .outside _ => enter p t a
  | _, _ => none

structure State where
  stop : Stop
  threads : List Thread
  deriving DecidableEq

inductive Action
  | turn (thread : Nat) (turn : Turn)
  | give (thread receiver : Nat) (source : Bool)
  deriving DecidableEq

def step : Action → State → Option State
  | .turn i a, s =>
    match s.threads[i]? with
    | none => none
    | some t => (turn a s.stop t).map fun r => { stop := r.1, threads := s.threads.set i r.2 }
  | .give i j source, s =>
    match s.threads[i]?, s.threads[j]? with
    | some t, some u =>
      match t.point with
      | .outside _ =>
        if i ≠ j ∧ 0 < t.held source then
          some { s with threads := (s.threads.set i (t.lose source)).set j (u.gain source) }
        else none
      | _ => none
    | _, _ => none

/-- What `stop_new` returns to the first thread. -/
def stopNew (others : Nat) : State where
  stop := { references := 1, sources := 1 }
  threads := { sources := 1 } :: List.replicate others {}

end Mlang.StopStates
