import Mlang.ObservedRuns
import Mlang.OrderedMaps

namespace Mlang.FlatSets

open SortedLists

variable {T Query : Type} [LinearOrder T]

structure FlatSet (T : Type) where
  keys : List T
  deriving DecidableEq

namespace FlatSet

variable (self : FlatSet T) (key : T)

def len : Nat := self.keys.length

def isEmpty : Bool := self.keys.length = 0

def lowerBound : Nat := search (fun k => decide (k < key)) self.keys

def upperBound : Nat := search (fun k => !decide (key < k)) self.keys

def equalRange : Nat × Nat := (self.lowerBound key, self.upperBound key)

def contains : Bool :=
  match self.keys[self.lowerBound key]? with
  | none => false
  | some k => !decide (k < key) && !decide (key < k)

def keyAt (index : Nat) : Option T := self.keys[index]?

def new : FlatSet T := { keys := [] }

def insert (key : T) : FlatSet T × Bool :=
  let index := self.lowerBound key
  let inserted : FlatSet T := { keys := self.keys.take index ++ key :: self.keys.drop index }
  match self.keys[index]? with
  | none => (inserted, true)
  | some k => if !decide (k < key) && !decide (key < k) then (self, false) else (inserted, true)

/-- One pass of the loop of `insert_range`, with the number of keys that were new. -/
def rangeStep (s : FlatSet T × Nat) (key : T) : FlatSet T × Nat :=
  let r := s.1.insert key
  (r.1, if r.2 then s.2 + 1 else s.2)

def insertRange (range : List T) : FlatSet T × Nat := range.foldl rangeStep (self, 0)

def replace (keys : List T) : FlatSet T × Bool :=
  if !ascends keys then (self, false) else ({ keys := keys }, true)

def remove (key : T) : FlatSet T × Bool :=
  let index := self.lowerBound key
  match self.keys[index]? with
  | none => (self, false)
  | some k =>
    if k < key || key < k then (self, false)
    else ({ keys := self.keys.take index ++ self.keys.drop (index + 1) }, true)

def clear (_ : FlatSet T) : FlatSet T := { keys := [] }

variable (container : FlatSet T) (query : Query) (lessKeyQuery : T → Query → Bool)
  (lessQueryKey : Query → T → Bool)

def lowerBoundBy : Nat := search (fun k => lessKeyQuery k query) container.keys

def upperBoundBy : Nat := search (fun k => !lessQueryKey query k) container.keys

def equalRangeBy : Nat × Nat :=
  (container.lowerBoundBy query lessKeyQuery, container.upperBoundBy query lessQueryKey)

def containsBy : Bool :=
  match container.keys[container.lowerBoundBy query lessKeyQuery]? with
  | none => false
  | some k => !lessKeyQuery k query && !lessQueryKey query k

def removeBy : FlatSet T × Bool :=
  let index := container.lowerBoundBy query lessKeyQuery
  match container.keys[index]? with
  | none => (container, false)
  | some k =>
    if lessKeyQuery k query || lessQueryKey query k then (container, false)
    else ({ keys := container.keys.take index ++ container.keys.drop (index + 1) }, true)

def eraseIf (container : FlatSet T) (predicate : T → Bool) : FlatSet T × Nat :=
  let s := sieve predicate (· + 1) container.keys 0
  ({ keys := s.1 }, s.2)

def merge (destination source : FlatSet T) : FlatSet T × FlatSet T × Nat :=
  let r := mergeWalk id destination.keys source.keys
  ({ keys := r.1 }, { keys := r.2.1 }, r.2.2)

end FlatSet

end Mlang.FlatSets

namespace Mlang.FlatSetRefinement

open FlatSets ObservedRuns OrderedMaps SortedLists List

variable {T : Type} [LinearOrder T]

def apply (c : FlatSet T) : SetOperation T → FlatSet T × Answer T Unit
  | .len => (c, .index c.len)
  | .isEmpty => (c, .flag c.isEmpty)
  | .lowerBound key => (c, .index (c.lowerBound key))
  | .upperBound key => (c, .index (c.upperBound key))
  | .equalRange key => (c, .range (c.equalRange key).1 (c.equalRange key).2)
  | .contains key => (c, .flag (c.contains key))
  | .keyAt index => (c, .key (c.keyAt index))
  | .insert key => ((c.insert key).1, .flag (c.insert key).2)
  | .insertRange range => ((c.insertRange range).1, .index (c.insertRange range).2)
  | .replace keys => ((c.replace keys).1, .flag (c.replace keys).2)
  | .remove key => ((c.remove key).1, .flag (c.remove key).2)
  | .clear => (c.clear, .nothing)
  | .lowerBoundBy query less => (c, .index (c.lowerBoundBy query less.lessKeyQuery))
  | .upperBoundBy query less => (c, .index (c.upperBoundBy query less.lessQueryKey))
  | .equalRangeBy query less =>
    let r := c.equalRangeBy query less.lessKeyQuery less.lessQueryKey
    (c, .range r.1 r.2)
  | .containsBy query less => (c, .flag (c.containsBy query less.lessKeyQuery less.lessQueryKey))
  | .removeBy query less =>
    let r := c.removeBy query less.lessKeyQuery less.lessQueryKey
    (r.1, .flag r.2)
  | .eraseIf predicate => ((c.eraseIf predicate).1, .index (c.eraseIf predicate).2)

def merge (destination source : FlatSet T) : FlatSet T × FlatSet T × Answer T Unit :=
  let r := destination.merge source
  (r.1, r.2.1, .index r.2.2)

abbrev Refines (c : FlatSet T) (s : Finset T) : Prop := Keyed id c.keys s

variable {c : FlatSet T} {s : Finset T} {key : T}

theorem refines_of {keys : List T} (h : Increasing id keys) (hmem : ∀ k, k ∈ keys ↔ k ∈ s) :
    Refines { keys := keys } s :=
  ⟨h, fun k => by rw [map_id, hmem]⟩

theorem refines_new : Refines (FlatSet.new : FlatSet T) ∅ :=
  refines_of increasing_nil fun _ => iff_of_false not_mem_nil (Finset.notMem_empty _)

theorem mem_iff (h : Refines c s) : key ∈ c.keys ↔ key ∈ s := by
  rw [← h.mem_iff, map_id]

theorem refines_place (h : Refines c s) : Refines { keys := place id key c.keys } (insert key s) := by
  refine refines_of (increasing_place h.increasing) fun k => ?_
  rw [mem_place, Finset.mem_insert, mem_iff h]
  by_cases hk : k = key
  · exact iff_of_true (.inl hk) (.inl hk)
  · exact or_congr_right (and_iff_left hk)

theorem refines_without (h : Refines c s) :
    Refines { keys := c.keys.filter fun k => decide (k ≠ key) } (s.erase key) := by
  refine refines_of (h.increasing.filter _) fun k => ?_
  rw [mem_filter, mem_iff h, Finset.mem_erase, decide_eq_true_eq, and_comm]

section Places

variable {c : FlatSet T} {s : Finset T} (key : T)

theorem equivalent_iff {k : T} : (!decide (k < key) && !decide (key < k)) = decide (k = key) := by
  rw [Bool.eq_iff_iff, Bool.and_eq_true, Bool.not_eq_true', Bool.not_eq_true',
    decide_eq_false_iff_not, decide_eq_false_iff_not, decide_eq_true_eq, not_lt, not_lt]
  exact ⟨fun h => le_antisymm h.2 h.1, fun h => ⟨h.ge, h.le⟩⟩

theorem lower_cases (h : Refines c s) :
    (c.keys[c.lowerBound key]? = some key ∧ key ∈ s) ∨
      key ∉ s ∧ (∀ k ∈ c.keys, k ≠ key) ∧ ∀ k, c.keys[c.lowerBound key]? = some k → key < k := by
  rcases h.lower_cases key with ⟨k, hk, -, rfl, hmem⟩ | hnone
  · exact .inl ⟨hk, hmem⟩
  · exact .inr hnone

theorem contains_eq (h : Refines c s) : c.contains key = decide (key ∈ s) := by
  rw [FlatSet.contains]
  rcases lower_cases key h with ⟨hkey, hmem⟩ | ⟨hnone, -, hlater⟩
  · rw [hkey, decide_eq_true hmem]
    exact (equivalent_iff key).trans (decide_eq_true rfl)
  · rw [decide_eq_false hnone]
    split
    · rfl
    · rw [equivalent_iff]
      exact decide_eq_false (hlater _ ‹_›).ne'

theorem refines_insert (h : Refines c s) :
    Refines (c.insert key).1 (insert key s) ∧ (c.insert key).2 = decide (key ∉ s) := by
  rcases lower_cases key h with ⟨hkey, hmem⟩ | ⟨hnone, hne, hlater⟩
  · have hsame : c.insert key = (c, false) := by
      rw [FlatSet.insert, hkey]
      exact if_pos ((equivalent_iff key).trans (decide_eq_true rfl))
    rw [hsame, Finset.insert_eq_of_mem hmem, decide_eq_false (not_not.2 hmem)]
    exact ⟨h, rfl⟩
  · have hnew : c.insert key = ({ keys := place id key c.keys }, true) := by
      have hplaced : c.keys.take (c.lowerBound key) ++ key :: c.keys.drop (c.lowerBound key) =
        place id key c.keys := h.increasing.placed_eq (e := key) hne
      rw [FlatSet.insert, hplaced]
      split
      · rfl
      · rw [equivalent_iff, decide_eq_false (hlater _ ‹_›).ne']
        rfl
    rw [hnew, decide_eq_true hnone]
    exact ⟨refines_place h, rfl⟩

theorem refines_remove (h : Refines c s) :
    Refines (c.remove key).1 (s.erase key) ∧ (c.remove key).2 = decide (key ∈ s) := by
  rcases lower_cases key h with ⟨hkey, hmem⟩ | ⟨hnone, -, hlater⟩
  · have hgone : c.remove key = ({ keys := c.keys.filter fun k => decide (k ≠ key) }, true) := by
      have hwithout := h.increasing.without_eq hkey
      rw [FlatSet.remove, hkey, hwithout]
      exact if_neg (by rw [decide_eq_false (lt_irrefl key)]; decide)
    rw [hgone, decide_eq_true hmem]
    exact ⟨refines_without h, rfl⟩
  · have hsame : c.remove key = (c, false) := by
      rw [FlatSet.remove]
      split
      · rfl
      · exact if_pos (by rw [decide_eq_true (hlater _ ‹_›), Bool.or_true])
    rw [hsame, Finset.erase_eq_of_notMem hnone, decide_eq_false hnone]
    exact ⟨h, rfl⟩

theorem foldl_rangeStep (h : Refines c s) (range : List T) (count : Nat) :
    Refines (range.foldl FlatSet.rangeStep (c, count)).1 (range.toFinset ∪ s) ∧
      (range.foldl FlatSet.rangeStep (c, count)).2 = count + (range.toFinset \ s).card := by
  induction range generalizing c s count with
  | nil => exact ⟨by simpa using h, by simp⟩
  | cons key range ih =>
    obtain ⟨hrefines, hinserted⟩ := refines_insert key h
    obtain ⟨hrest, hcount⟩ := ih hrefines (if (c.insert key).2 then count + 1 else count)
    refine ⟨?_, hcount.trans ?_⟩
    · rwa [toFinset_cons, Finset.insert_union, ← Finset.union_insert]
    · rw [card_new_cons, hinserted]
      by_cases hmem : key ∈ s
      · rw [decide_eq_false (not_not.2 hmem), if_pos hmem, Nat.zero_add]
        rfl
      · rw [decide_eq_true hmem, if_neg hmem, if_pos rfl, Nat.add_assoc]

theorem refines_replace (h : Refines c s) (keys : List T) :
    let r := setApply s (.replace keys)
    Refines (c.replace keys).1 r.1 ∧ Answer.flag (c.replace keys).2 = r.2 := by
  by_cases hkeys : keys.Pairwise (· < ·)
  · have hcode : c.replace keys = ({ keys := keys }, true) := by
      rw [FlatSet.replace, ascends_iff.2 hkeys]
      rfl
    have hspec : setApply s (.replace keys) = (keys.toFinset, .flag true) := if_pos hkeys
    rw [hcode, hspec]
    exact ⟨refines_of hkeys fun k => List.mem_toFinset.symm, rfl⟩
  · have hfails : ascends keys = false := Bool.eq_false_iff.2 (mt ascends_iff.1 hkeys)
    have hcode : c.replace keys = (c, false) := by
      rw [FlatSet.replace, hfails]
      rfl
    have hspec : setApply s (.replace keys) = (s, .flag false) := if_neg hkeys
    rw [hcode, hspec]
    exact ⟨h, rfl⟩

end Places

variable {Query : Type} (query : Query) (less : Comparators T Query)

theorem containsBy_eq (h : Refines c s) :
    c.containsBy query less.lessKeyQuery less.lessQueryKey =
      decide (∃ k ∈ s, less.equivalent query k = true) := by
  rw [Bool.eq_iff_iff, decide_eq_true_eq, ← isSome_least_iff, ← Bool.eq_iff_iff, FlatSet.containsBy,
    FlatSet.lowerBoundBy]
  rcases h.found_cases query less with
    ⟨hnone, hother⟩ | ⟨k, hk, -, hequiv, hsome⟩
  · rw [hnone]
    split
    · rfl
    · exact hother _ ‹_›
  · simp only [id_eq] at hk
    rw [hk, hsome]
    exact hequiv

theorem refines_removeBy (h : Refines c s) :
    let r := c.removeBy query less.lessKeyQuery less.lessQueryKey
    let r' := setApply s (.removeBy query less)
    Refines r.1 r'.1 ∧ Answer.flag r.2 = r'.2 := by
  have hindex : c.lowerBoundBy query less.lessKeyQuery =
    search (fun k => less.lessKeyQuery (id k) query) c.keys := rfl
  rcases h.found_cases query less with
    ⟨hnone, hother⟩ | ⟨k, hk, hmem, hequiv, hsome⟩
  · have hcode : c.removeBy query less.lessKeyQuery less.lessQueryKey = (c, false) := by
      rw [FlatSet.removeBy, hindex]
      split
      · rfl
      · have hnot := hother _ ‹_›
        rw [← less.not_or_eq, Bool.not_eq_false'] at hnot
        exact if_pos hnot
    have hspec : setApply s (.removeBy query less) = (s, .flag false) := by
      rw [setApply, hnone]
    rw [hcode, hspec]
    exact ⟨h, rfl⟩
  · have hcode : c.removeBy query less.lessKeyQuery less.lessQueryKey =
        ({ keys := c.keys.filter fun a => decide (a ≠ k) }, true) := by
      have hwithout := h.increasing.without_eq hk
      rw [← less.not_or_eq, Bool.not_eq_true'] at hequiv
      rw [FlatSet.removeBy, hindex, hk, hwithout]
      exact if_neg (Bool.eq_false_iff.1 hequiv)
    have hspec : setApply s (.removeBy query less) = (s.erase k, .flag true) := by
      rw [setApply, hsome]
      rfl
    rw [hcode, hspec]
    exact ⟨refines_without h, rfl⟩

variable {source : FlatSet T} {sourceSet : Finset T}

theorem refines_eraseIf (h : Refines c s) (predicate : T → Bool) :
    Refines (c.eraseIf predicate).1 (s.filter fun k => !predicate k) ∧
      (c.eraseIf predicate).2 = amount s predicate := by
  rw [FlatSet.eraseIf, sieve_count, h.amount_eq, map_id]
  exact ⟨h.filter (p := fun k => !predicate k) fun k _ => rfl, rfl⟩

theorem refines_merge (c source : FlatSet T) (s sourceSet : Finset T) (h : Refines c s)
    (hs : Refines source sourceSet) :
    Refines (merge c source).1 (setMerge s sourceSet).1 ∧
      Refines (merge c source).2.1 (setMerge s sourceSet).2.1 ∧
      (merge c source).2.2 = (setMerge s sourceSet).2.2 :=
  ⟨h.merged hs, h.retained hs, congrArg Answer.index (h.transferred_eq hs)⟩

/-- One step for each operation: the answer is that of the finite set, and the set refines it. -/
theorem apply_refines (op : SetOperation T) (c : FlatSet T) (s : Finset T) (h : Refines c s) :
    Agrees Refines (apply c op) (setApply s op) := by
  have hbefore : ∀ {Query : Type} (query : Query) (less : Comparators T Query),
      c.lowerBoundBy query less.lessKeyQuery = _ := fun query less => h.before_eq
  have hafter : ∀ {Query : Type} (query : Query) (less : Comparators T Query),
      c.upperBoundBy query less.lessQueryKey = _ := fun query less => h.after_eq
  cases op with
  | len => exact ⟨h, congrArg Answer.index h.card_eq.symm⟩
  | isEmpty =>
    have hempty : c.isEmpty = decide (s = ∅) :=
      decide_eq_decide.2 (by rw [← Finset.card_eq_zero, h.card_eq])
    exact ⟨h, congrArg Answer.flag hempty⟩
  | lowerBound key => exact ⟨h, congrArg Answer.index h.lower_eq⟩
  | upperBound key => exact ⟨h, congrArg Answer.index h.upper_eq⟩
  | equalRange key => exact ⟨h, congrArg₂ Answer.range h.lower_eq h.upper_eq⟩
  | contains key => exact ⟨h, congrArg Answer.flag (contains_eq key h)⟩
  | keyAt index =>
    have hkey : c.keyAt index = s.sort[index]? := by
      rw [h.sort_eq, map_id]
      rfl
    exact ⟨h, congrArg Answer.key hkey⟩
  | insert key =>
    obtain ⟨hrefines, hanswer⟩ := refines_insert key h
    exact ⟨hrefines, congrArg Answer.flag hanswer⟩
  | insertRange range =>
    obtain ⟨hrefines, hanswer⟩ := foldl_rangeStep h range 0
    exact ⟨hrefines, congrArg Answer.index (hanswer.trans (Nat.zero_add _))⟩
  | replace keys =>
    obtain ⟨hrefines, hanswer⟩ := refines_replace h keys
    exact ⟨hrefines, hanswer⟩
  | remove key =>
    obtain ⟨hrefines, hanswer⟩ := refines_remove key h
    exact ⟨hrefines, congrArg Answer.flag hanswer⟩
  | clear => exact ⟨refines_new, rfl⟩
  | lowerBoundBy query less => exact ⟨h, congrArg Answer.index (hbefore query less)⟩
  | upperBoundBy query less => exact ⟨h, congrArg Answer.index (hafter query less)⟩
  | equalRangeBy query less =>
    exact ⟨h, congrArg₂ Answer.range (hbefore query less) (hafter query less)⟩
  | containsBy query less => exact ⟨h, congrArg Answer.flag (containsBy_eq query less h)⟩
  | removeBy query less =>
    obtain ⟨hrefines, hanswer⟩ := refines_removeBy query less h
    exact ⟨hrefines, hanswer⟩
  | eraseIf predicate =>
    obtain ⟨hrefines, hanswer⟩ := refines_eraseIf h predicate
    exact ⟨hrefines, congrArg Answer.index hanswer⟩

end Mlang.FlatSetRefinement
