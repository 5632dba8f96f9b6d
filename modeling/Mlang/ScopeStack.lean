import Mathlib.Logic.Basic

namespace Mlang.ScopeStack

variable {α : Type}

def grow (new : List α) : List (List α) → List (List α)
  | [] => []
  | scope :: scopes => (new ++ scope) :: scopes

theorem grow_nil (scopes : List (List α)) : grow [] scopes = scopes := by
  cases scopes <;> rfl

theorem grow_ne_nil {new : List α} {scopes : List (List α)} (h : scopes ≠ []) : grow new scopes ≠ [] := by
  cases scopes with
  | nil => exact absurd rfl h
  | cons scope scopes => simp [grow]

theorem grow_grow (new new' : List α) (scopes : List (List α)) :
    grow new' (grow new scopes) = grow (new' ++ new) scopes := by
  cases scopes with
  | nil => rfl
  | cons scope scopes => simp only [grow, List.append_assoc]

end Mlang.ScopeStack
