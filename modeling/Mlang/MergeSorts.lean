import Mlang.StableSorts

namespace Mlang.MergeSorts

open StableSorts List Option

variable {T K : Type}

/-- The elements with indices from `i` up to `last`, pushed one by one. -/
def pushRange (data : List T) (i last : Nat) (out : List T) : Option (List T) :=
  if i < last then do
    let x ← data[i]?
    pushRange data (i + 1) last (out ++ [x])
  else some out
termination_by last - i

def take (data : List T) (n : Nat) : Option (List T) :=
  if n ≤ 0 then some []
  else pushRange data 0 (if n < data.length then n else data.length) []

def drop (data : List T) (n : Nat) : Option (List T) :=
  if n ≥ data.length then some [] else pushRange data n data.length []

variable (keepLeft : T → T → Bool) (left right : List T)

def mergeFrom (i j : Nat) (out : List T) : Option (List T) :=
  if i < left.length ∧ j < right.length then do
    let a ← left[i]?
    let b ← right[j]?
    if keepLeft a b then mergeFrom (i + 1) j (out ++ [a])
    else mergeFrom i (j + 1) (out ++ [b])
  else do
    let out ← pushRange left i left.length out
    pushRange right j right.length out
termination_by (left.length - i) + (right.length - j)

def mergeRuns : Option (List T) := mergeFrom keepLeft left right 0 0 []

def mergeSortedRuns (le : T → T → Bool) : Option (List T) := mergeRuns le left right

def mergeSortedRunsBy (less : T → T → Bool) : Option (List T) :=
  mergeRuns (fun a b => !less b a) left right

def mergeProjectedRuns (lt : K → K → Bool) (projection : T → K) : Option (List T) :=
  mergeRuns (fun a b => !lt (projection b) (projection a)) left right

def mergeByProjectedRuns (less : K → K → Bool) (projection : T → K) : Option (List T) :=
  mergeRuns (fun a b => !less (projection b) (projection a)) left right

def sortWith (merge : List T → List T → Option (List T)) : Nat → List T → Option (List T)
  | 0, _ => none
  | fuel + 1, data =>
    if data.length < 2 then take data data.length
    else do
      let middle := data.length / 2
      let left ← sortWith merge fuel (← take data middle)
      let right ← sortWith merge fuel (← drop data middle)
      merge left right

variable (fuel : Nat) (data : List T)

def sorted (le : T → T → Bool) : Option (List T) :=
  sortWith (fun left right => mergeSortedRuns left right le) fuel data

def sortedBy (less : T → T → Bool) : Option (List T) :=
  sortWith (fun left right => mergeSortedRunsBy left right less) fuel data

def sortedProjected (lt : K → K → Bool) (projection : T → K) : Option (List T) :=
  sortWith (fun left right => mergeProjectedRuns left right lt projection) fuel data

def sortedByProjected (less : K → K → Bool) (projection : T → K) : Option (List T) :=
  sortWith (fun left right => mergeByProjectedRuns left right less projection) fuel data

section Copies

variable {data out : List T} {i n last : Nat}

theorem pushRange_eq (hlast : last ≤ data.length) :
    pushRange data i last out = some (out ++ (data.take last).drop i) := by
  fun_induction pushRange data i last out with
  | case1 i out hlt ih =>
    have hget : data[i]? = some data[i] := getElem?_eq_getElem (by omega)
    have hcut : (data.take last).drop i = data[i] :: (data.take last).drop (i + 1) := by
      rw [drop_eq_getElem_cons (by rw [length_take]; omega), getElem_take]
    rw [hget, bind_eq_bind, bind_some, ih, hcut, append_assoc]
    rfl
  | case2 i out hge =>
    rw [drop_eq_nil_of_le (by rw [length_take]; omega), append_nil]

theorem pushRange_rest : pushRange data i data.length out = some (out ++ data.drop i) := by
  rw [pushRange_eq (le_refl _), take_length]

theorem take_eq : take data n = some (data.take n) := by
  unfold take
  split_ifs with hzero hlt
  · rw [Nat.le_zero.1 hzero, take_zero]
  · rw [pushRange_eq (le_of_lt hlt), drop_zero, nil_append]
  · rw [pushRange_eq (le_refl _), drop_zero, nil_append, take_length, take_of_length_le (not_lt.1 hlt)]

theorem drop_eq : drop data n = some (data.drop n) := by
  unfold drop
  split_ifs with hge
  · rw [drop_eq_nil_of_le hge]
  · exact pushRange_rest

end Copies

section Merges

variable {keepLeft : T → T → Bool} {left right out : List T} {i j : Nat}

theorem mergeFrom_eq : mergeFrom keepLeft left right i j out =
    some (out ++ (left.drop i).merge (right.drop j) keepLeft) := by
  fun_induction mergeFrom keepLeft left right i j out with
  | case1 i j out hlt ih ih' =>
    obtain ⟨hi, hj⟩ := hlt
    rw [getElem?_eq_getElem hi, getElem?_eq_getElem hj, bind_eq_bind, bind_some,
      bind_some, drop_eq_getElem_cons hi, drop_eq_getElem_cons hj, cons_merge_cons]
    split
    · rw [ih, append_assoc, ← drop_eq_getElem_cons hj]
      rfl
    · rw [ih', append_assoc, ← drop_eq_getElem_cons hi]
      rfl
  | case2 i j out hend =>
    rw [pushRange_rest, bind_eq_bind, bind_some, pushRange_rest, append_assoc]
    rcases le_or_gt left.length i with hi | hi
    · rw [drop_eq_nil_of_le hi, nil_append, nil_merge]
    · rw [drop_eq_nil_of_le (by omega : right.length ≤ j), append_nil, merge_right]

theorem mergeRuns_eq : mergeRuns keepLeft left right = some (left.merge right keepLeft) := mergeFrom_eq

end Merges

def Sorts (less : T → T → Bool) (data : List T) (result : Option (List T)) : Prop :=
  ∃ r, result = some r ∧ Stable less data r ∧ ∀ r', Stable less data r' → r' = r

variable {less : T → T → Bool} {data : List T} {fuel : Nat}

theorem sortWith_stable {merge : List T → List T → Option (List T)} (hless : StrictWeak less)
    (hmerge : ∀ left right, merge left right = some (left.merge right fun a b => !less b a))
    (hfuel : data.length < fuel) : ∃ r, sortWith merge fuel data = some r ∧ Stable less data r := by
  induction fuel generalizing data with
  | zero => cases hfuel
  | succ fuel ih =>
    rw [sortWith]
    split_ifs with hsmall
    · exact ⟨data, by rw [take_eq, take_length], stable_small hsmall⟩
    · obtain ⟨left, hleft, hstable⟩ := ih (by rw [length_take]; omega : (data.take (data.length / 2)).length < fuel)
      obtain ⟨right, hright, hstable'⟩ := ih (by rw [length_drop]; omega : (data.drop (data.length / 2)).length < fuel)
      have hboth := hless.stable_merge hstable hstable'
      rw [take_append_drop] at hboth
      refine ⟨_, ?_, hboth⟩
      simp only [take_eq, drop_eq, bind_eq_bind, bind_some, hleft, hright, hmerge]

theorem sortWith_sorts {merge : List T → List T → Option (List T)} (hless : StrictWeak less)
    (hmerge : ∀ left right, merge left right = some (left.merge right fun a b => !less b a))
    (hfuel : data.length < fuel) : Sorts less data (sortWith merge fuel data) := by
  obtain ⟨r, hr, hstable⟩ := sortWith_stable hless hmerge hfuel
  exact ⟨r, hr, hstable, fun r' h' => hless.stable_unique hstable h'⟩

/-- The four sorts return the stable sort by their order, and one list where they compare alike. -/
theorem sorts_stable (le lt less : T → T → Bool) (ltKey lessKey : K → K → Bool) (projection : T → K)
    (data : List T) (fuel : Nat) (hfuel : data.length < fuel) :
    (StrictWeak lt → (∀ a b, le a b = !lt b a) → Sorts lt data (sorted fuel data le)) ∧
    (StrictWeak less → Sorts less data (sortedBy fuel data less)) ∧
    (StrictWeak ltKey → Sorts (fun a b => ltKey (projection a) (projection b)) data
      (sortedProjected fuel data ltKey projection)) ∧
    (StrictWeak lessKey → Sorts (fun a b => lessKey (projection a) (projection b)) data
      (sortedByProjected fuel data lessKey projection)) ∧
    ((∀ a b, le a b = !lt b a) → (∀ a b, less a b = lt a b) →
      (∀ a b, ltKey (projection a) (projection b) = lt a b) →
      (∀ a b, lessKey (projection a) (projection b) = lt a b) →
      sortedBy fuel data less = sorted fuel data le ∧
      sortedProjected fuel data ltKey projection = sorted fuel data le ∧
      sortedByProjected fuel data lessKey projection = sorted fuel data le) := by
  refine ⟨fun h hle => ?_, fun h => ?_, fun h => ?_, fun h => ?_, fun hle hless hlt hby => ?_⟩
  · refine sortWith_sorts h (fun left right => ?_) hfuel
    rw [mergeSortedRuns, mergeRuns_eq, funext fun a => funext fun b => hle a b]
  · exact sortWith_sorts h (fun left right => mergeRuns_eq) hfuel
  · exact sortWith_sorts (h.comap projection) (fun left right => mergeRuns_eq) hfuel
  · exact sortWith_sorts (h.comap projection) (fun left right => mergeRuns_eq) hfuel
  · obtain rfl := funext fun a => funext fun b => hle a b
    refine ⟨?_, ?_, ?_⟩
    · simp only [sortedBy, sorted, mergeSortedRunsBy, mergeSortedRuns, hless]
    · simp only [sortedProjected, sorted, mergeProjectedRuns, mergeSortedRuns, hlt]
    · simp only [sortedByProjected, sorted, mergeByProjectedRuns, mergeSortedRuns, hby]

theorem strictWeak_lt : StrictWeak fun a b : Nat => decide (a < b) where
  asymm h := decide_eq_false (not_lt.2 (le_of_lt (of_decide_eq_true h)))
  cut h h' := decide_eq_false (not_lt.2 ((not_lt.1 (of_decide_eq_false h')).trans (not_lt.1 (of_decide_eq_false h))))

theorem sorts_stable_pair :
    let le := fun a b : Nat => decide (a ≤ b)
    let lt := fun a b : Nat => decide (a < b)
    Sorts lt [2, 1] (sorted 3 [2, 1] le) ∧ Sorts lt [2, 1] (sortedBy 3 [2, 1] lt) ∧
    Sorts lt [2, 1] (sortedProjected 3 [2, 1] lt id) ∧ Sorts lt [2, 1] (sortedByProjected 3 [2, 1] lt id) ∧
    sortedBy 3 [2, 1] lt = sorted 3 [2, 1] le ∧ sortedProjected 3 [2, 1] lt id = sorted 3 [2, 1] le ∧
    sortedByProjected 3 [2, 1] lt id = sorted 3 [2, 1] le := by
  intro le lt
  have hle : ∀ a b, le a b = !lt b a := fun a b =>
    (decide_eq_decide.2 (@not_lt Nat _ b a).symm).trans decide_not
  obtain ⟨hsorted, hby, hprojected, hboth, hsame⟩ := sorts_stable le lt lt lt lt id [2, 1] 3 (by decide)
  exact ⟨hsorted strictWeak_lt hle, hby strictWeak_lt, hprojected strictWeak_lt, hboth strictWeak_lt,
    hsame hle (fun _ _ => rfl) (fun _ _ => rfl) (fun _ _ => rfl)⟩

/-- A sort of a list in two parts merges the sorts of its parts, and an ascending list is left as it is. -/
theorem sortedByProjected_append (less : K → K → Bool) (projection : T → K) (data data' : List T) (fuel : Nat)
    (hless : StrictWeak less) (hfuel : (data ++ data').length < fuel) :
    (∃ left right, sortedByProjected fuel data less projection = some left ∧
      sortedByProjected fuel data' less projection = some right ∧
      sortedByProjected fuel (data ++ data') less projection = mergeByProjectedRuns left right less projection ∧
      sortedByProjected fuel left less projection = some left) ∧
    ∀ ascending : List T, Ascending (keyed less projection) ascending → ascending.length < fuel →
      sortedByProjected fuel ascending less projection = some ascending := by
  have hkeys : StrictWeak (keyed less projection) := hless.comap projection
  rw [length_append] at hfuel
  have hsorts : ∀ l : List T, l.length < fuel → Sorts (keyed less projection) l (sortedByProjected fuel l less projection) :=
    fun l hl => sortWith_sorts hkeys (fun left right => mergeRuns_eq) hl
  have hkept : ∀ l : List T, Ascending (keyed less projection) l → l.length < fuel →
      sortedByProjected fuel l less projection = some l := by
    intro l hascending hl
    obtain ⟨sorted, hsorted, -, hunique⟩ := hsorts l hl
    rw [hsorted]
    exact congrArg some (hunique l ⟨List.Perm.refl _, hascending, fun _ => rfl⟩).symm
  refine ⟨?_, hkept⟩
  obtain ⟨left, hleft, hstable, -⟩ := hsorts data (by omega)
  obtain ⟨right, hright, hstable', -⟩ := hsorts data' (by omega)
  obtain ⟨whole, hwhole, -, hunique⟩ := hsorts (data ++ data') (by rw [length_append]; omega)
  refine ⟨left, right, hleft, hright, ?_, hkept left hstable.ascending ?_⟩
  · rw [hwhole, mergeByProjectedRuns, mergeRuns_eq]
    exact congrArg some (hunique _ (hkeys.stable_merge hstable hstable')).symm
  · rw [hstable.perm.length_eq]
    omega

theorem sortedByProjected_append_pair : (∃ left right,
    sortedByProjected 4 [2, 1] (fun a b : Nat => decide (a < b)) id = some left ∧
      sortedByProjected 4 [0] (fun a b : Nat => decide (a < b)) id = some right ∧
      sortedByProjected 4 [2, 1, 0] (fun a b : Nat => decide (a < b)) id =
        mergeByProjectedRuns left right (fun a b : Nat => decide (a < b)) id) ∧
    sortedByProjected 4 [0, 1, 1] (fun a b : Nat => decide (a < b)) id = some [0, 1, 1] := by
  obtain ⟨⟨left, right, hleft, hright, hwhole, -⟩, hkept⟩ :=
    sortedByProjected_append (fun a b : Nat => decide (a < b)) id [2, 1] [0] 4 strictWeak_lt (by decide)
  exact ⟨⟨left, right, hleft, hright, hwhole⟩, hkept [0, 1, 1] (by unfold Ascending keyed; decide) (by decide)⟩

end Mlang.MergeSorts
