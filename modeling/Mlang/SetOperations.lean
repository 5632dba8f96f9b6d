import Mathlib.Algebra.GroupWithZero.Nat
import Mlang.MergeSorts

namespace Mlang.SetOperations

open StableSorts MergeSorts List Option

variable {T K : Type}

section Operations

def pushIf (keep : Bool) (x : T) (out : List T) : List T := if keep then out ++ [x] else out

def pushRestIf (keep : Bool) (data : List T) (i : Nat) (out : List T) : Option (List T) :=
  if keep then pushRange data i data.length out else some out

variable (onLeft onRight onBoth : Bool) (less : T → T → Bool) (left right : List T)

/-- The loops of the four operations. -/
def setOperationFrom (i j : Nat) (out : List T) : Option (List T) :=
  if i < left.length ∧ j < right.length then do
    let a ← left[i]?
    let b ← right[j]?
    if less a b then setOperationFrom (i + 1) j (pushIf onLeft a out)
    else if less b a then setOperationFrom i (j + 1) (pushIf onRight b out)
    else setOperationFrom (i + 1) (j + 1) (pushIf onBoth a out)
  else do
    let out ← pushRestIf onLeft left i out
    pushRestIf onRight right j out
termination_by (left.length - i) + (right.length - j)

variable (lt : K → K → Bool) (projection : T → K)

def unionSortedProjected : Option (List T) :=
  setOperationFrom true true true (fun a b => lt (projection a) (projection b)) left right 0 0 []

def intersectionSortedProjected : Option (List T) :=
  setOperationFrom false false true (fun a b => lt (projection a) (projection b)) left right 0 0 []

def differenceSortedProjected : Option (List T) :=
  setOperationFrom true false false (fun a b => lt (projection a) (projection b)) left right 0 0 []

def symmetricDifferenceSortedProjected : Option (List T) :=
  setOperationFrom true true false (fun a b => lt (projection a) (projection b)) left right 0 0 []

end Operations

section Core

structure Outcome (T : Type) where
  i : Nat
  j : Nat
  written : Nat
  destination : List T

variable (less : T → T → Bool) (operation : Int) (left right : List T) (outputLen : Nat)

def coreFrom (i j written : Nat) (destination : List T) : Option (Outcome T) :=
  if i < left.length ∧ j < right.length then do
    let a ← left[i]?
    let b ← right[j]?
    if less a b then
      if operation = 0 ∨ operation = 2 ∨ operation = 3 then
        if written ≥ outputLen then some ⟨i, j, written, destination⟩
        else coreFrom (i + 1) j (written + 1) (destination.set written a)
      else coreFrom (i + 1) j written destination
    else if less b a then
      if operation = 0 ∨ operation = 3 then
        if written ≥ outputLen then some ⟨i, j, written, destination⟩
        else coreFrom i (j + 1) (written + 1) (destination.set written b)
      else coreFrom i (j + 1) written destination
    else if operation = 0 ∨ operation = 1 then
      if written ≥ outputLen then some ⟨i, j, written, destination⟩
      else coreFrom (i + 1) (j + 1) (written + 1) (destination.set written a)
    else coreFrom (i + 1) (j + 1) written destination
  else some ⟨i, j, written, destination⟩
termination_by (left.length - i) + (right.length - j)

/-- The two loops behind the main one. -/
def drainFrom (data : List T) (i written : Nat) (destination : List T) : Option (Nat × Nat × List T) :=
  if i < data.length ∧ written < outputLen then do
    let x ← data[i]?
    drainFrom data (i + 1) (written + 1) (destination.set written x)
  else some (i, written, destination)
termination_by data.length - i

def setOperationToCore (destination : List T) (less : K → K → Bool) (projection : T → K) : Option (Outcome T) := do
  let outputLen := destination.length
  let ⟨i, j, written, destination⟩ ←
    coreFrom (fun a b => less (projection a) (projection b)) operation left right outputLen 0 0 0 destination
  let (i, written, destination) ← (if operation = 0 ∨ operation = 2 ∨ operation = 3 then
      drainFrom outputLen left i written destination
    else some (i, written, destination))
  let (j, written, destination) ← (if operation = 0 ∨ operation = 3 then
      drainFrom outputLen right j written destination
    else some (j, written, destination))
  some ⟨i, j, written, destination⟩

end Core

section Results

def restIf (keep : Bool) (rest : List T) : List T := if keep then rest else []

variable (onLeft onRight onBoth : Bool) (less : T → T → Bool)

def combined : List T → List T → List T
  | [], right => restIf onRight right
  | a :: left, [] => restIf onLeft (a :: left)
  | a :: left, b :: right =>
    if less a b then pushIf onLeft a [] ++ combined left (b :: right)
    else if less b a then pushIf onRight b [] ++ combined (a :: left) right
    else pushIf onBoth a [] ++ combined left right
termination_by left right => left.length + right.length

variable {onLeft onRight onBoth less} {left right out : List T} {i j : Nat} {keep : Bool} {a : T}

theorem restIf_nil : restIf keep ([] : List T) = [] := ite_self []

theorem mem_restIf (h : a ∈ restIf keep left) : a ∈ left := (mem_ite_nil_right.1 h).2

theorem combined_nil : combined onLeft onRight onBoth less left [] = restIf onLeft left := by
  cases left with
  | nil => rw [combined, restIf_nil, restIf_nil]
  | cons a left => rw [combined]

theorem pushIf_eq (out : List T) : pushIf keep a out = out ++ pushIf keep a [] := by
  cases keep with
  | true => rfl
  | false => exact (append_nil out).symm

theorem pushRestIf_eq : pushRestIf keep left i out = some (out ++ restIf keep (left.drop i)) := by
  cases keep with
  | true => exact pushRange_rest
  | false => exact congrArg some (append_nil out).symm

theorem setOperationFrom_eq : setOperationFrom onLeft onRight onBoth less left right i j out =
    some (out ++ combined onLeft onRight onBoth less (left.drop i) (right.drop j)) := by
  fun_induction setOperationFrom onLeft onRight onBoth less left right i j out with
  | case1 i j out hlt ihl ihr ihb =>
    obtain ⟨hi, hj⟩ := hlt
    rw [getElem?_eq_getElem hi, getElem?_eq_getElem hj, bind_eq_bind, bind_some,
      bind_some, drop_eq_getElem_cons hi, drop_eq_getElem_cons hj, combined, ihl, ihr, ihb,
      ← drop_eq_getElem_cons hi, ← drop_eq_getElem_cons hj, pushIf_eq out,
      pushIf_eq out, pushIf_eq out, append_assoc, append_assoc, append_assoc]
    split_ifs <;> rfl
  | case2 i j out hend =>
    rw [pushRestIf_eq, bind_eq_bind, bind_some, pushRestIf_eq, append_assoc]
    rcases le_or_gt left.length i with hi | hi
    · rw [drop_eq_nil_of_le hi, combined, restIf_nil, nil_append]
    · rw [drop_eq_nil_of_le (by omega : right.length ≤ j), combined_nil, restIf_nil, append_nil]

end Results

section Bounded

variable {operation : Int} {onLeft onRight onBoth : Bool} {less : T → T → Bool}
variable {left right destination current result rest : List T} {i j written : Nat} {x : T}

/-- What is written is the start of the result, and the rest of the result is still to come. -/
structure Resumed (result destination rest current : List T) (written : Nat) : Prop where
  rest : rest = result.drop written
  current : current = result.take written ++ destination.drop written
  room : written ≤ destination.length
  fits : written ≤ result.length

theorem Resumed.write (h : Resumed result destination (x :: rest) current written)
    (hroom : written < destination.length) :
    Resumed result destination rest (current.set written x) (written + 1) := by
  have hlt : written < result.length := by
    have hlength := congrArg List.length h.rest
    rw [length_cons, length_drop] at hlength
    omega
  have hcons := h.rest
  rw [drop_eq_getElem_cons hlt] at hcons
  obtain ⟨hx, hrest⟩ := List.cons.inj hcons
  have htake : (result.take written).length = written := length_take_of_le h.fits
  refine ⟨hrest, ?_, hroom, hlt⟩
  rw [h.current, set_append_right _ _ (by omega), htake, Nat.sub_self,
    drop_eq_getElem_cons hroom, set_cons_zero, hx, take_succ_eq_append_getElem hlt, append_assoc]
  rfl

theorem Resumed.pushed {keep : Bool} (h : Resumed result destination (pushIf keep x [] ++ rest) current written)
    (hkeep : keep = true) (hroom : ¬written ≥ destination.length) :
    Resumed result destination rest (current.set written x) (written + 1) := by
  cases hkeep
  exact h.write (not_le.1 hroom)

theorem Resumed.passed {keep : Bool} (h : Resumed result destination (pushIf keep x [] ++ rest) current written)
    (hkeep : ¬keep = true) : Resumed result destination rest current written := by
  cases keep with
  | true => exact absurd rfl hkeep
  | false => exact h

theorem Resumed.written_eq (h : Resumed result destination rest current written)
    (hend : destination.length ≤ written ∨ rest = []) : written = min destination.length result.length := by
  have hroom := h.room
  have hfits := h.fits
  rcases hend with hfull | rfl
  · omega
  · have hlast := drop_eq_nil_iff.1 h.rest.symm
    omega

theorem drainFrom_resumed {data : List T} (h : Resumed result destination (data.drop i) current written) :
    ∃ i' written' current', drainFrom destination.length data i written current = some (i', written', current') ∧
      Resumed result destination (data.drop i') current' written' ∧
      (destination.length ≤ written' ∨ data.drop i' = []) := by
  induction hn : data.length - i generalizing i written current with
  | zero =>
    unfold drainFrom
    rw [if_neg (by omega)]
    exact ⟨_, _, _, rfl, h, .inr (drop_eq_nil_of_le (by omega))⟩
  | succ n ih =>
    unfold drainFrom
    split_ifs with hlt
    · rw [getElem?_eq_getElem hlt.1]
      rw [drop_eq_getElem_cons hlt.1] at h
      exact ih (h.write hlt.2) (by omega)
    · exact ⟨_, _, _, rfl, h, .inl (by omega)⟩

theorem drainFrom_stop {data : List T} (h : data.length ≤ i ∨ destination.length ≤ written) :
    drainFrom destination.length data i written current = some (i, written, current) := by
  unfold drainFrom
  exact if_neg (by omega)

theorem drain_resumed {data : List T} {keep : Bool} {p : Prop} [Decidable p] (hp : p ↔ keep = true)
    (h : Resumed result destination (restIf keep (data.drop i)) current written) :
    ∃ i' written' current',
      (if p then drainFrom destination.length data i written current else some (i, written, current)) =
        some (i', written', current') ∧
      Resumed result destination (restIf keep (data.drop i')) current' written' ∧
      (destination.length ≤ written' ∨ restIf keep (data.drop i') = []) := by
  simp only [hp]
  unfold restIf at h ⊢
  split_ifs at h ⊢ with hkeep
  · exact drainFrom_resumed h
  · exact ⟨i, written, current, rfl, h, .inr rfl⟩

structure Performs (operation : Int) (onLeft onRight onBoth : Bool) : Prop where
  left : (operation = 0 ∨ operation = 2 ∨ operation = 3) ↔ onLeft = true
  right : (operation = 0 ∨ operation = 3) ↔ onRight = true
  both : (operation = 0 ∨ operation = 1) ↔ onBoth = true

theorem performs_union : Performs 0 true true true := ⟨by decide, by decide, by decide⟩

theorem performs_intersection : Performs 1 false false true := ⟨by decide, by decide, by decide⟩

theorem performs_difference : Performs 2 true false false := ⟨by decide, by decide, by decide⟩

theorem performs_symmetricDifference : Performs 3 true true false := ⟨by decide, by decide, by decide⟩

variable (hop : Performs operation onLeft onRight onBoth)
include hop

theorem coreFrom_resumed
    (h : Resumed result destination (combined onLeft onRight onBoth less (left.drop i) (right.drop j)) current written) :
    ∃ s, coreFrom less operation left right destination.length i j written current = some s ∧
      Resumed result destination (combined onLeft onRight onBoth less (left.drop s.i) (right.drop s.j))
        s.destination s.written ∧
      (left.length ≤ s.i ∨ right.length ≤ s.j ∨ destination.length ≤ s.written) := by
  fun_induction coreFrom less operation left right destination.length i j written current with
  | case1 i j written current hlt ihl ihl' ihr ihr' ihb ihb' =>
    obtain ⟨hi, hj⟩ := hlt
    have hstop := h
    rw [getElem?_eq_getElem hi, getElem?_eq_getElem hj]
    dsimp only [bind_eq_bind, bind_some]
    rw [drop_eq_getElem_cons hi, drop_eq_getElem_cons hj, combined,
      ← drop_eq_getElem_cons hi, ← drop_eq_getElem_cons hj] at h
    split_ifs at h ⊢ with hab hl hfull hba hr hfull hb hfull
    · exact ⟨⟨i, j, written, current⟩, rfl, hstop, .inr (.inr hfull)⟩
    · exact ihl _ (h.pushed (hop.left.1 hl) hfull)
    · exact ihl' (h.passed (mt hop.left.2 hl))
    · exact ⟨⟨i, j, written, current⟩, rfl, hstop, .inr (.inr hfull)⟩
    · exact ihr _ (h.pushed (hop.right.1 hr) hfull)
    · exact ihr' (h.passed (mt hop.right.2 hr))
    · exact ⟨⟨i, j, written, current⟩, rfl, hstop, .inr (.inr hfull)⟩
    · exact ihb _ (h.pushed (hop.both.1 hb) hfull)
    · exact ihb' (h.passed (mt hop.both.2 hb))
  | case2 i j written current hend => exact ⟨⟨i, j, written, current⟩, rfl, h, by dsimp only; omega⟩

theorem setOperationToCore_resumed (less : K → K → Bool) (projection : T → K) (left right destination : List T) :
    let rest := combined onLeft onRight onBoth fun a b => less (projection a) (projection b)
    ∃ s, setOperationToCore operation left right destination less projection = some s ∧
      Resumed (rest left right) destination (rest (left.drop s.i) (right.drop s.j)) s.destination s.written ∧
      (destination.length ≤ s.written ∨ rest (left.drop s.i) (right.drop s.j) = []) := by
  intro rest
  have hstart : Resumed (rest left right) destination (rest (left.drop 0) (right.drop 0)) destination 0 :=
    ⟨rfl, rfl, Nat.zero_le _, Nat.zero_le _⟩
  obtain ⟨⟨i, j, written, current⟩, hcore, h, hend⟩ := coreFrom_resumed hop hstart
  simp only [setOperationToCore, hcore, bind_eq_bind, bind_some]
  dsimp only at h hend
  rcases hend with hi | hj | hfull
  · rw [drop_eq_nil_of_le hi, combined] at h
    obtain ⟨j', written', current', hdrain, h', hend'⟩ := drain_resumed hop.right h
    rw [drainFrom_stop (.inl hi), ite_self, bind_some, hdrain]
    refine ⟨⟨i, j', written', current'⟩, rfl, ?_⟩
    dsimp only [rest]
    rw [drop_eq_nil_of_le hi, combined]
    exact ⟨h', hend'⟩
  · rw [drop_eq_nil_of_le hj, combined_nil] at h
    obtain ⟨i', written', current', hdrain, h', hend'⟩ := drain_resumed hop.left h
    rw [hdrain, bind_some]
    dsimp only
    rw [drainFrom_stop (.inl hj), ite_self]
    refine ⟨⟨i', j, written', current'⟩, rfl, ?_⟩
    dsimp only [rest]
    rw [drop_eq_nil_of_le hj, combined_nil]
    exact ⟨h', hend'⟩
  · rw [drainFrom_stop (.inr hfull), ite_self, bind_some]
    dsimp only
    rw [drainFrom_stop (.inr hfull), ite_self]
    exact ⟨⟨i, j, written, current⟩, rfl, h, .inl hfull⟩

end Bounded

variable {onLeft onRight onBoth : Bool}

def copies (onLeft onRight onBoth : Bool) (m n : Nat) : Nat :=
  (if onLeft then m - n else 0) + (if onRight then n - m else 0) + if onBoth then min m n else 0

variable {c m n : Nat}

theorem copies_left (h : c = 0 ∨ n = 0) :
    (if onLeft then c else 0) + copies onLeft onRight onBoth m n = copies onLeft onRight onBoth (c + m) n := by
  unfold copies
  split_ifs <;> omega

theorem copies_right (h : c = 0 ∨ m = 0) :
    (if onRight then c else 0) + copies onLeft onRight onBoth m n = copies onLeft onRight onBoth m (c + n) := by
  unfold copies
  split_ifs <;> omega

theorem copies_both :
    (if onBoth then c else 0) + copies onLeft onRight onBoth m n = copies onLeft onRight onBoth (c + m) (c + n) := by
  unfold copies
  split_ifs <;> omega

section Elements

variable {less : T → T → Bool} {left right : List T} {keep : Bool} {x a : T}

theorem count_pushIf (p : T → Bool) : (pushIf keep a []).countP p = if keep then [a].countP p else 0 :=
  apply_ite (List.countP p) _ _ _

theorem mem_pushIf (h : x ∈ pushIf keep a []) : x = a := by
  cases keep with
  | true => exact mem_singleton.1 h
  | false => cases h

theorem mem_combined (h : x ∈ combined onLeft onRight onBoth less left right) : x ∈ left ∨ x ∈ right := by
  fun_induction combined onLeft onRight onBoth less left right with
  | case1 right => exact .inr (mem_restIf h)
  | case2 a left => exact .inl (mem_restIf h)
  | case3 a left b right hab ih =>
    rcases mem_append.1 h with h | h
    · exact .inl (mem_cons.2 (.inl (mem_pushIf h)))
    · exact (ih h).imp_left (mem_cons_of_mem a)
  | case4 a left b right hab hba ih =>
    rcases mem_append.1 h with h | h
    · exact .inr (mem_cons.2 (.inl (mem_pushIf h)))
    · exact (ih h).imp_right (mem_cons_of_mem b)
  | case5 a left b right hab hba ih =>
    rcases mem_append.1 h with h | h
    · exact .inl (mem_cons.2 (.inl (mem_pushIf h)))
    · exact (ih h).imp (mem_cons_of_mem a) (mem_cons_of_mem b)

theorem ascending_restIf (h : Ascending less left) : Ascending less (restIf keep left) := by
  cases keep with
  | true => exact h
  | false => exact List.Pairwise.nil

theorem ascending_pushIf {rest : List T} (h : Ascending less rest) (ha : ∀ y ∈ rest, less y a = false) :
    Ascending less (pushIf keep a [] ++ rest) := by
  cases keep with
  | true => exact pairwise_cons.2 ⟨ha, h⟩
  | false => exact h

theorem ascending_combined (hless : StrictWeak less) (hleft : Ascending less left) (hright : Ascending less right) :
    Ascending less (combined onLeft onRight onBoth less left right) := by
  fun_induction combined onLeft onRight onBoth less left right with
  | case1 right => exact ascending_restIf hright
  | case2 a left => exact ascending_restIf hleft
  | case3 a left b right hab ih =>
    refine ascending_pushIf (ih hleft.of_cons hright) fun y hy => ?_
    rcases mem_combined hy with hy | hy
    · exact hless.head_le hleft (mem_cons_of_mem a hy)
    · exact hless.cut (hless.head_le hright hy) (hless.asymm hab)
  | case4 a left b right hab hba ih =>
    refine ascending_pushIf (ih hleft hright.of_cons) fun y hy => ?_
    rcases mem_combined hy with hy | hy
    · exact hless.cut (hless.head_le hleft hy) (Bool.eq_false_iff.2 hab)
    · exact hless.head_le hright (mem_cons_of_mem b hy)
  | case5 a left b right hab hba ih =>
    refine ascending_pushIf (ih hleft.of_cons hright.of_cons) fun y hy => ?_
    rcases mem_combined hy with hy | hy
    · exact hless.head_le hleft (mem_cons_of_mem a hy)
    · exact hless.cut (hless.head_le hright (mem_cons_of_mem b hy)) (Bool.eq_false_iff.2 hba)

end Elements

variable {less : K → K → Bool} {projection : T → K} {left right : List T} {a b : T} {k : K}

def hasKey (less : K → K → Bool) (projection : T → K) (k : K) (x : T) : Bool := alike less k (projection x)

theorem count_above (hless : StrictWeak less) (h : Ascending (keyed less projection) (b :: right))
    (hab : keyed less projection a b = true) :
    [a].countP (hasKey less projection k) = 0 ∨ (b :: right).countP (hasKey less projection k) = 0 := by
  refine (Bool.eq_false_or_eq_true (hasKey less projection k a)).symm.imp (fun ha => ?_) fun ha => ?_
  · exact countP_eq_zero.2 fun x hx => by rw [mem_singleton.1 hx, ha]; decide
  · have hnone := hless.filter_above (pairwise_map.2 h : Ascending less ((b :: right).map projection)) hab ha
    exact (countP_map (p := alike less k) (f := projection)).symm.trans
      (countP_eq_length_filter.trans (congrArg List.length hnone))

theorem hasKey_congr (hless : StrictWeak less) (hab : ¬keyed less projection a b = true)
    (hba : ¬keyed less projection b a = true) : hasKey less projection k a = hasKey less projection k b := by
  rw [Bool.eq_iff_iff, hasKey, hasKey, alike_iff, alike_iff]
  exact ⟨fun h => ⟨hless.cut h.1 (Bool.eq_false_iff.2 hab), hless.cut (Bool.eq_false_iff.2 hba) h.2⟩,
    fun h => ⟨hless.cut h.1 (Bool.eq_false_iff.2 hba), hless.cut (Bool.eq_false_iff.2 hab) h.2⟩⟩

theorem count_combined (hless : StrictWeak less) (hleft : Ascending (keyed less projection) left)
    (hright : Ascending (keyed less projection) right) :
    (combined onLeft onRight onBoth (keyed less projection) left right).countP (hasKey less projection k) =
      copies onLeft onRight onBoth (left.countP (hasKey less projection k))
        (right.countP (hasKey less projection k)) := by
  fun_induction combined onLeft onRight onBoth (keyed less projection) left right with
  | case1 right =>
    unfold copies restIf
    split_ifs <;> simp
  | case2 a left =>
    unfold copies restIf
    split_ifs <;> simp
  | case3 a left b right hab ih =>
    rw [countP_append, ih hleft.of_cons hright, count_pushIf, ← singleton_append (l := left),
      countP_append]
    exact copies_left (count_above hless hright hab)
  | case4 a left b right hab hba ih =>
    rw [countP_append, ih hleft hright.of_cons, count_pushIf, ← singleton_append (l := right),
      countP_append]
    exact copies_right (count_above hless hleft hba)
  | case5 a left b right hab hba ih =>
    rw [countP_append, ih hleft.of_cons hright.of_cons, count_pushIf, countP_cons (l := right),
      countP_cons (l := left), countP_singleton, hasKey_congr hless hab hba, Nat.add_comm (List.countP _ left),
      Nat.add_comm (List.countP _ right)]
    exact copies_both

/-- The bounded operation stops where the unbounded one can go on, with the copies it has to have. -/
def Settled (unbounded : List T → List T → Option (List T)) (operation : Int) (count : Nat → Nat → Nat)
    (less : K → K → Bool) (projection : T → K) (left right destination : List T) : Prop :=
  ∃ result s, unbounded left right = some result ∧
    setOperationToCore operation left right destination less projection = some s ∧
    s.destination = result.take s.written ++ destination.drop s.written ∧
    s.written = min destination.length result.length ∧
    unbounded (left.drop s.i) (right.drop s.j) = some (result.drop s.written) ∧
    Ascending (keyed less projection) result ∧
    ∀ k, result.countP (hasKey less projection k) =
      count (left.countP (hasKey less projection k)) (right.countP (hasKey less projection k))

theorem settled {operation : Int} {count : Nat → Nat → Nat} (destination : List T)
    (hop : Performs operation onLeft onRight onBoth) (hcount : ∀ m n, copies onLeft onRight onBoth m n = count m n)
    (hless : StrictWeak less) (hleft : Ascending (keyed less projection) left)
    (hright : Ascending (keyed less projection) right) :
    Settled (fun left right => setOperationFrom onLeft onRight onBoth (keyed less projection) left right 0 0 [])
      operation count less projection left right destination := by
  obtain ⟨s, hs, h, hend⟩ := setOperationToCore_resumed hop less projection left right destination
  refine ⟨_, s, setOperationFrom_eq, hs, h.current, h.written_eq hend, ?_,
    ascending_combined (hless.comap projection) hleft hright, fun k => ?_⟩
  · exact setOperationFrom_eq.trans (congrArg some h.rest)
  · exact (count_combined hless hleft hright).trans (hcount _ _)

theorem set_operations_resume (less : K → K → Bool) (projection : T → K) (left right destination : List T)
    (hless : StrictWeak less) (hleft : Ascending (keyed less projection) left)
    (hright : Ascending (keyed less projection) right) :
    Settled (unionSortedProjected · · less projection) 0 max less projection left right destination ∧
    Settled (intersectionSortedProjected · · less projection) 1 min less projection left right destination ∧
    Settled (differenceSortedProjected · · less projection) 2 (· - ·) less projection left right destination ∧
    Settled (symmetricDifferenceSortedProjected · · less projection) 3 (fun m n => ((m : Int) - n).natAbs)
      less projection left right destination := by
  refine ⟨settled destination performs_union ?_ hless hleft hright,
    settled destination performs_intersection ?_ hless hleft hright,
    settled destination performs_difference ?_ hless hleft hright,
    settled destination performs_symmetricDifference ?_ hless hleft hright⟩
  · intro m n; simp only [copies, if_true]; omega
  · intro m n; simp [copies]
  · intro m n; simp [copies]
  · intro m n; simp [copies]; omega

theorem set_operations_resume_small :
    Settled (unionSortedProjected · · (fun a b : Nat => decide (a < b)) id) 0 max (fun a b => decide (a < b)) id
      [1, 2] [2, 3] [0, 0] :=
  (set_operations_resume (fun a b : Nat => decide (a < b)) id [1, 2] [2, 3] [0, 0] strictWeak_lt (by
    unfold Ascending; decide) (by unfold Ascending; decide)).1

/-- What a caller gets that gives one destination after the other and goes on where the last call stopped. -/
def resumeAll (operation : Int) (less : K → K → Bool) (projection : T → K) :
    List (List T) → List T → List T → Option (List T)
  | [], _, _ => some []
  | destination :: destinations, left, right => do
    let s ← setOperationToCore operation left right destination less projection
    let rest ← resumeAll operation less projection destinations (left.drop s.i) (right.drop s.j)
    some (s.destination.take s.written ++ rest)

theorem Resumed.joined {result destination rest current : List T} {written : Nat}
    (h : Resumed result destination rest current written) (hend : destination.length ≤ written ∨ rest = []) (n : Nat) :
    current.take written ++ rest.take n = result.take (destination.length + n) := by
  have hroom := h.room
  rw [h.current, take_left' (length_take_of_le h.fits), h.rest, ← take_add]
  rcases hend with hfull | hnone
  · rw [le_antisymm hfull hroom]
  · have hlast := drop_eq_nil_iff.1 (h.rest.symm.trans hnone)
    rw [take_of_length_le (by omega), take_of_length_le (by omega)]

theorem resumeAll_eq {operation : Int} {onLeft onRight onBoth : Bool} (hop : Performs operation onLeft onRight onBoth)
    (less : K → K → Bool) (projection : T → K) (destinations : List (List T)) (left right : List T) :
    resumeAll operation less projection destinations left right =
      some ((combined onLeft onRight onBoth (keyed less projection) left right).take
        (destinations.map List.length).sum) := by
  induction destinations generalizing left right with
  | nil => rfl
  | cons destination destinations ih =>
    obtain ⟨s, hs, h, hend⟩ := setOperationToCore_resumed hop less projection left right destination
    rw [resumeAll, hs, bind_eq_bind, bind_some, ih, bind_eq_bind, bind_some]
    exact congrArg some (h.joined hend _)

/-- However a caller cuts a destination in pieces, it gets the start of the unbounded result. -/
theorem set_operations_inPieces (less : K → K → Bool) (projection : T → K) (left right : List T)
    (destinations : List (List T)) :
    resumeAll 0 less projection destinations left right =
        (unionSortedProjected left right less projection).map (List.take (destinations.map List.length).sum) ∧
      resumeAll 1 less projection destinations left right =
        (intersectionSortedProjected left right less projection).map (List.take (destinations.map List.length).sum) ∧
      resumeAll 2 less projection destinations left right =
        (differenceSortedProjected left right less projection).map (List.take (destinations.map List.length).sum) ∧
      resumeAll 3 less projection destinations left right =
        (symmetricDifferenceSortedProjected left right less projection).map
          (List.take (destinations.map List.length).sum) := by
  unfold unionSortedProjected intersectionSortedProjected differenceSortedProjected symmetricDifferenceSortedProjected
  rw [setOperationFrom_eq, setOperationFrom_eq, setOperationFrom_eq, setOperationFrom_eq]
  exact ⟨resumeAll_eq performs_union .., resumeAll_eq performs_intersection .., resumeAll_eq performs_difference ..,
    resumeAll_eq performs_symmetricDifference ..⟩

end Mlang.SetOperations
