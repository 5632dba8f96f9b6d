import Mlang.Transitions

namespace Mlang.NarrowAtomics

section Calls

inductive AtomicOrder
  | relaxed
  | consume
  | acquire
  | release
  | acqRel
  | seqCst
  deriving DecidableEq

inductive Call (α : Type)
  | load (order : AtomicOrder)
  | store (value : α) (order : AtomicOrder)
  | exchange (value : α) (order : AtomicOrder)
  | fetchAdd (value : α) (order : AtomicOrder)
  | fetchSub (value : α) (order : AtomicOrder)
  | fetchAnd (value : α) (order : AtomicOrder)
  | fetchOr (value : α) (order : AtomicOrder)
  | fetchXor (value : α) (order : AtomicOrder)
  | compareExchange (expected desired : α) (order : AtomicOrder)
  deriving DecidableEq

inductive Answer (α : Type)
  | value (result : Except String α)
  | stored (result : Except String Int32)
  | exchanged (result : Except String (Bool × α))
  deriving Repr

def Answer.map {α β : Type} (f : β → α) : Answer β → Answer α
  | .value result => .value (result.map f)
  | .stored result => .stored result
  | .exchanged result => .exchanged (result.map fun outcome => (outcome.1, f outcome.2))

variable {α : Type} [Add α] [Sub α] [AndOp α] [OrOp α] [XorOp α] [DecidableEq α]

def perform : Call α → α → α × Answer α
  | .load order, v =>
    if order = .release ∨ order = .acqRel then
      (v, .value (.error "std::sync AtomicU32: invalid load memory order"))
    else (v, .value (.ok v))
  | .store value order, v =>
    if order = .consume ∨ order = .acquire ∨ order = .acqRel then
      (v, .stored (.error "std::sync AtomicU32: invalid store memory order"))
    else (value, .stored (.ok 0))
  | .exchange value _, v => (value, .value (.ok v))
  | .fetchAdd value _, v => (v + value, .value (.ok v))
  | .fetchSub value _, v => (v - value, .value (.ok v))
  | .fetchAnd value _, v => (v &&& value, .value (.ok v))
  | .fetchOr value _, v => (v ||| value, .value (.ok v))
  | .fetchXor value _, v => (v ^^^ value, .value (.ok v))
  | .compareExchange expected desired _, v =>
    if v = expected then (desired, .exchanged (.ok (true, expected)))
    else (v, .exchanged (.ok (false, v)))

end Calls

/-- How the methods of an atomic run on the word. -/
structure Machine (α : Type) where
  Run : Type
  new : α → UInt32
  begin : Call α → Run
  word : Run → Call UInt32
  resume : Run → Answer UInt32 → Run ⊕ Answer α

def atomicU32 : Machine UInt32 where
  Run := Call UInt32
  new := id
  begin := id
  word := id
  resume _ answer := .inr answer

variable {α β : Type}

/-- A call with what it has seen of its storage, and the method of the storage that it runs. -/
structure Looping (α β Run : Type) where
  call : Call α
  observed : Option β
  inner : Run

def storageCall (widen : α → β) : Call α → Call β
  | .load order => .load order
  | .store value order => .store (widen value) order
  | .exchange value order => .exchange (widen value) order
  | .fetchAdd _ _ => .load .relaxed
  | .fetchSub _ _ => .load .relaxed
  | .fetchAnd value order => .fetchAnd (widen value) order
  | .fetchOr value order => .fetchOr (widen value) order
  | .fetchXor value order => .fetchXor (widen value) order
  | .compareExchange expected desired order => .compareExchange (widen expected) (widen desired) order

/-- A turn of the loop in `fetch_add` and `fetch_sub`, for what the storage answered. -/
def retry (storage : Machine β) (widen : α → β) (mask : β → α) (next : α → α) (order : AtomicOrder)
    (run : Looping α β storage.Run) (answer : Answer β) : Looping α β storage.Run ⊕ Answer α :=
  let attempt (observed : β) : Looping α β storage.Run ⊕ Answer α :=
    .inl { run with
      observed := some observed
      inner := storage.begin (.compareExchange observed (widen (next (mask observed))) order) }
  match run.observed, answer with
  | none, .value (.error e) => .inr (.value (.error e))
  | none, .value (.ok observed) => attempt observed
  | some _, .exchanged (.error e) => .inr (.value (.error e))
  | some observed, .exchanged (.ok (true, _)) => .inr (.value (.ok (mask observed)))
  | some _, .exchanged (.ok (false, seen)) => attempt seen
  | _, _ => .inr (.value (.error "unreachable atomic state"))

/-- An unsigned atomic over a wider one. `widen` and `narrow` are casts, `mask` cuts the high bits off. -/
def narrowing [Add β] [Sub β] (storage : Machine β) (widen : α → β) (mask narrow : β → α) :
    Machine α where
  Run := Looping α β storage.Run
  new value := storage.new (widen value)
  begin call := { call := call, observed := none, inner := storage.begin (storageCall widen call) }
  word run := storage.word run.inner
  resume run answer :=
    match storage.resume run.inner answer with
    | .inl inner => .inl { run with inner := inner }
    | .inr answer =>
      match run.call with
      | .fetchAdd value order =>
        retry storage widen mask (fun previous => narrow (widen previous + widen value)) order run answer
      | .fetchSub value order =>
        retry storage widen mask (fun previous => narrow (widen previous - widen value)) order run answer
      | _ => .inr (answer.map mask)

def Call.map (f : α → β) : Call α → Call β
  | .load order => .load order
  | .store value order => .store (f value) order
  | .exchange value order => .exchange (f value) order
  | .fetchAdd value order => .fetchAdd (f value) order
  | .fetchSub value order => .fetchSub (f value) order
  | .fetchAnd value order => .fetchAnd (f value) order
  | .fetchOr value order => .fetchOr (f value) order
  | .fetchXor value order => .fetchXor (f value) order
  | .compareExchange expected desired order => .compareExchange (f expected) (f desired) order

def delegating (storage : Machine β) (unsigned : α → β) (signed : β → α) : Machine α where
  Run := storage.Run
  new value := storage.new (unsigned value)
  begin call := storage.begin (call.map unsigned)
  word := storage.word
  resume run answer :=
    match storage.resume run answer with
    | .inl run => .inl run
    | .inr answer => .inr (answer.map signed)

def atomicU16 : Machine UInt16 :=
  narrowing atomicU32 UInt16.toUInt32 (fun x => (x &&& 65535).toUInt16) UInt32.toUInt16

def atomicU8 : Machine UInt8 :=
  narrowing atomicU16 UInt8.toUInt16 (fun x => (x &&& 255).toUInt8) UInt16.toUInt8

def atomicI8 : Machine Int8 := delegating atomicU8 Int8.toUInt8 UInt8.toInt8

def atomicI16 : Machine Int16 := delegating atomicU16 Int16.toUInt16 UInt16.toInt16

inductive Point (m : Machine α)
  | outside (last : Option (Call α × Answer α))
  | inside (call : Call α) (run : m.Run)
  | returning (call : Call α) (answer : Answer α)

structure State (m : Machine α) where
  word : UInt32
  threads : List (Point m)
  effects : List (Nat × Call α × Answer α) := []

inductive Action (α : Type)
  | invoke (thread : Nat) (call : Call α)
  | word (thread : Nat)
  | return (thread : Nat)
  deriving DecidableEq

def State.move {m : Machine α} (s : State m) (thread : Nat) (point : Point m) : State m :=
  { s with threads := s.threads.set thread point }

def step (m : Machine α) : Action α → State m → Option (State m)
  | .invoke i call, s =>
    match s.threads[i]? with
    | some (.outside _) => some (s.move i (.inside call (m.begin call)))
    | _ => none
  | .word i, s =>
    match s.threads[i]? with
    | some (.inside call run) =>
      let (word, answer) := perform (m.word run) s.word
      match m.resume run answer with
      | .inl run => some ({ s with word := word }.move i (.inside call run))
      | .inr answer =>
        some ({ s with word := word, effects := s.effects ++ [(i, call, answer)] }.move i
          (.returning call answer))
    | _ => none
  | .return i, s =>
    match s.threads[i]? with
    | some (.returning call answer) => some (s.move i (.outside (some (call, answer))))
    | _ => none

def initial (m : Machine α) (value : α) (threads : Nat) : State m where
  word := m.new value
  threads := List.replicate threads (.outside none)

end Mlang.NarrowAtomics
