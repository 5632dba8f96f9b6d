import Mathlib.Data.List.Basic

namespace Mlang.ControlFlows

/-! Programs whose executions are lists of events. Which of several ways an execution takes is left
open, and so is how often a loop runs. -/

inductive Exit
  | normal
  | broke
  | continued
  | returned
  | thrown
  deriving DecidableEq

def Exit.leavesLoop : Exit → Option Exit
  | .normal => none
  | .continued => none
  | .broke => some .normal
  | .returned => some .returned
  | .thrown => some .thrown

inductive Flow (E : Type)
  | skip
  | event (p : E → Prop)
  | exit (k : Exit)
  | seq (a b : Flow E)
  | either (a b : Flow E)
  | loop (a : Flow E)
  | handled (a handler : Flow E)
  | exits (g : Exit → Exit) (a : Flow E)
  | renamed (r : E → E) (a : Flow E)
  | filtered (f : List E → List E) (hf : ∀ t, ∀ e ∈ f t, e ∈ t) (a : Flow E)

namespace Flow

variable {E : Type}

def seqs : List (Flow E) → Flow E
  | [] => .skip
  | a :: as => .seq a (seqs as)

def maybe (a : Flow E) : Flow E := .either .skip a

def star (a : Flow E) : Flow E := .loop (.either (.exit .broke) a)

def whileLoop (condition body : Flow E) : Flow E :=
  .loop (.seq condition (.either (.exit .broke) body))

def All (P : E → Prop) : Flow E → Prop
  | .skip => True
  | .event p => ∀ e, p e → P e
  | .exit _ => True
  | .seq a b => a.All P ∧ b.All P
  | .either a b => a.All P ∧ b.All P
  | .loop a => a.All P
  | .handled a handler => a.All P ∧ handler.All P
  | .exits _ a => a.All P
  | .renamed r a => a.All fun e => P (r e)
  | .filtered _ _ a => a.All P

end Flow

inductive Runs {E : Type} : Flow E → List E → Exit → Prop
  | skip : Runs .skip [] .normal
  | event (p : E → Prop) (e : E) : p e → Runs (.event p) [e] .normal
  | exit (k : Exit) : Runs (.exit k) [] k
  | seq (a b : Flow E) (s t : List E) (k : Exit) :
      Runs a s .normal → Runs b t k → Runs (.seq a b) (s ++ t) k
  | seqExit (a b : Flow E) (s : List E) (k : Exit) : Runs a s k → k ≠ .normal → Runs (.seq a b) s k
  | left (a b : Flow E) (s : List E) (k : Exit) : Runs a s k → Runs (.either a b) s k
  | right (a b : Flow E) (s : List E) (k : Exit) : Runs b s k → Runs (.either a b) s k
  | loopNext (a : Flow E) (s t : List E) (k k' : Exit) : Runs a s k → k.leavesLoop = none →
      Runs (.loop a) t k' → Runs (.loop a) (s ++ t) k'
  | loopExit (a : Flow E) (s : List E) (k k' : Exit) : Runs a s k → k.leavesLoop = some k' →
      Runs (.loop a) s k'
  | handled (a handler : Flow E) (s t : List E) (k : Exit) : Runs a s .thrown → Runs handler t k →
      Runs (.handled a handler) (s ++ t) k
  | unhandled (a handler : Flow E) (s : List E) (k : Exit) : Runs a s k → k ≠ .thrown →
      Runs (.handled a handler) s k
  | exits (g : Exit → Exit) (a : Flow E) (s : List E) (k : Exit) : Runs a s k →
      Runs (.exits g a) s (g k)
  | renamed (r : E → E) (a : Flow E) (s : List E) (k : Exit) : Runs a s k →
      Runs (.renamed r a) (s.map r) k
  | filtered (f : List E → List E) (hf : ∀ t, ∀ e ∈ f t, e ∈ t) (a : Flow E) (s : List E) (k : Exit) :
      Runs a s k → Runs (.filtered f hf a) (f s) k

variable {E : Type} {P : E → Prop}

theorem Runs.all {a : Flow E} {s : List E} {k : Exit} (h : Runs a s k) (hall : a.All P) :
    ∀ e ∈ s, P e := by
  induction h generalizing P with
  | skip | exit => simp
  | event p e he =>
    intro e' he'
    rw [List.mem_singleton.1 he']
    exact hall e he
  | seq a b s t k _ _ iha ihb =>
    intro e he
    exact (List.mem_append.1 he).elim (iha hall.1 e) (ihb hall.2 e)
  | seqExit a b s k _ _ iha => exact iha hall.1
  | left a b s k _ iha => exact iha hall.1
  | right a b s k _ ihb => exact ihb hall.2
  | loopNext a s t k k' _ _ _ iha ihloop =>
    intro e he
    exact (List.mem_append.1 he).elim (iha hall e) (ihloop hall e)
  | loopExit a s k k' _ _ iha => exact iha hall
  | handled a handler s t k _ _ iha ihhandler =>
    intro e he
    exact (List.mem_append.1 he).elim (iha hall.1 e) (ihhandler hall.2 e)
  | unhandled a handler s k _ _ iha => exact iha hall.1
  | exits g a s k _ iha => exact iha hall
  | renamed r a s k _ iha =>
    intro e he
    obtain ⟨e', he', rfl⟩ := List.mem_map.1 he
    exact iha hall e' he'
  | filtered f hf a s k _ iha => exact fun e he => iha hall e (hf s e he)

theorem Flow.all_seqs (as : List (Flow E)) : (Flow.seqs as).All P ↔ ∀ a ∈ as, a.All P := by
  induction as with
  | nil => simp [Flow.seqs, Flow.All]
  | cons a as ih => simp [Flow.seqs, Flow.All, ih]

@[simp] theorem Flow.all_maybe (a : Flow E) : a.maybe.All P ↔ a.All P := by
  simp [Flow.maybe, Flow.All]

@[simp] theorem Flow.all_star (a : Flow E) : a.star.All P ↔ a.All P := by
  simp [Flow.star, Flow.All]

@[simp] theorem Flow.all_whileLoop (condition body : Flow E) :
    (Flow.whileLoop condition body).All P ↔ condition.All P ∧ body.All P := by
  simp [Flow.whileLoop, Flow.All]

end Mlang.ControlFlows
