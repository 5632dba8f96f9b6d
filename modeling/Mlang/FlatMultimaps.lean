import Mlang.MergeSorts
import Mlang.ObservedRuns
import Mlang.SortedLists

namespace Mlang.FlatMultimaps

open MergeSorts (mergeRuns mergeRuns_eq)
open ObservedRuns SortedLists StableSorts List Bool

variable {E K R G V T : Type}

variable (less : K → K → Bool) (key : E → K) (entries : List E) (k : K)

def lowerBound : Nat := search (fun e => less (key e) k) entries

def upperBound : Nat := search (fun e => !less k (key e)) entries

def equalRange : Nat × Nat := (lowerBound less key entries k, upperBound less key entries k)

def count : Int := upperBound less key entries k - lowerBound less key entries k

def contains : Bool := count less key entries k ≠ 0

/-- The key of the entry is equivalent to `k`. -/
def same (e : E) : Bool := !less (key e) k && !less k (key e)

def get : Option E :=
  match entries[lowerBound less key entries k]? with
  | none => none
  | some e => if same less key k e then some e else none

def insert (e : E) : List E :=
  let index := upperBound less key entries (key e)
  entries.take index ++ e :: entries.drop index

def insertRange (range : List E) : List E × Int := (range.foldl (insert less key) entries, range.length)

def rises : List K → Bool
  | a :: b :: keys => !less b a && rises (b :: keys)
  | _ => true

def replace (given : Option (List E)) : List E × Bool :=
  match given with
  | none => (entries, false)
  | some es => if rises less (es.map key) then (es, true) else (entries, false)

def remove : List E × Int :=
  let first := lowerBound less key entries k
  let last := upperBound less key entries k
  let removed : Int := last - first
  if removed = 0 then (entries, 0) else (entries.take first ++ entries.drop last, removed)

def eraseIf (predicate : E → Bool) : List E × Nat := sieve predicate (· + 1) entries 0

def merge (destination source : List E) : Option (List E × List E × Nat) := do
  let merged ← mergeRuns (fun d s => !less (key s) (key d)) destination source
  pure (merged, [], source.length)

abbrev FlatMultiMap (K V : Type) := List (K × V)

abbrev FlatMultiSet (T : Type) := List T

namespace FlatMultiMap

variable (less : K → K → Bool) (self : FlatMultiMap K V)

def equalRange : K → Nat × Nat := FlatMultimaps.equalRange less Prod.fst self

def count : K → Int := FlatMultimaps.count less Prod.fst self

def contains : K → Bool := FlatMultimaps.contains less Prod.fst self

def get (key : K) : Option V := (FlatMultimaps.get less Prod.fst self key).map Prod.snd

def insert (key : K) (value : V) : FlatMultiMap K V := FlatMultimaps.insert less Prod.fst self (key, value)

def insertRange : List (K × V) → FlatMultiMap K V × Int := FlatMultimaps.insertRange less Prod.fst self

def paired (keys : List K) (values : List V) : Option (List (K × V)) :=
  if values.length ≠ keys.length then none else some (keys.zip values)

def replace (keys : List K) (values : List V) : FlatMultiMap K V × Bool :=
  FlatMultimaps.replace less Prod.fst self (paired keys values)

def remove : K → FlatMultiMap K V × Int := FlatMultimaps.remove less Prod.fst self

def eraseIf (predicate : K → V → Bool) : FlatMultiMap K V × Nat :=
  FlatMultimaps.eraseIf self fun e => predicate e.1 e.2

def merge (source : FlatMultiMap K V) := FlatMultimaps.merge less Prod.fst self source

end FlatMultiMap

namespace FlatMultiSet

variable (less : T → T → Bool) (self : FlatMultiSet T)

def equalRange : T → Nat × Nat := FlatMultimaps.equalRange less id self

def count : T → Int := FlatMultimaps.count less id self

def contains : T → Bool := FlatMultimaps.contains less id self

def insert : T → FlatMultiSet T := FlatMultimaps.insert less id self

def insertRange : List T → FlatMultiSet T × Int := FlatMultimaps.insertRange less id self

def replace (keys : List T) : FlatMultiSet T × Bool := FlatMultimaps.replace less id self (some keys)

def remove : T → FlatMultiSet T × Int := FlatMultimaps.remove less id self

def eraseIf : (T → Bool) → FlatMultiSet T × Nat := FlatMultimaps.eraseIf self

def merge (source : FlatMultiSet T) := FlatMultimaps.merge less id self source

end FlatMultiSet

/-- The operations; `R` is what `replace` is given, and `G` the keys that `get` is given. -/
inductive Operation (E K R G : Type)
  | equalRange (k : K)
  | count (k : K)
  | contains (k : K)
  | get (g : G)
  | insert (e : E)
  | insertRange (range : List E)
  | replace (given : R)
  | remove (k : K)
  | eraseIf (predicate : E → Bool)
  | clear

inductive Answer (V : Type)
  | nothing
  | outOfBounds
  | flag (b : Bool)
  | number (n : Int)
  | range (first last : Nat)
  | value (v : Option V)

def FlatMultiMap.new : FlatMultiMap K V := []

def FlatMultiSet.new : FlatMultiSet T := []

abbrev MapOperation (K V : Type) := Operation (K × V) K (List K × List V) K

abbrev SetOperation (T : Type) := Operation T T (List T) Empty

def mapApply (less : K → K → Bool) (c : FlatMultiMap K V) : MapOperation K V → FlatMultiMap K V × Answer V
  | .equalRange k => (c, .range (c.equalRange less k).1 (c.equalRange less k).2)
  | .count k => (c, .number (c.count less k))
  | .contains k => (c, .flag (c.contains less k))
  | .get k => (c, .value (c.get less k))
  | .insert e => (c.insert less e.1 e.2, .nothing)
  | .insertRange range => ((c.insertRange less range).1, .number (c.insertRange less range).2)
  | .replace given => ((c.replace less given.1 given.2).1, .flag (c.replace less given.1 given.2).2)
  | .remove k => ((c.remove less k).1, .number (c.remove less k).2)
  | .eraseIf predicate =>
    ((c.eraseIf fun k v => predicate (k, v)).1, .number (c.eraseIf fun k v => predicate (k, v)).2)
  | .clear => ([], .nothing)

def setApply (less : T → T → Bool) (c : FlatMultiSet T) : SetOperation T → FlatMultiSet T × Answer T
  | .equalRange k => (c, .range (c.equalRange less k).1 (c.equalRange less k).2)
  | .count k => (c, .number (c.count less k))
  | .contains k => (c, .flag (c.contains less k))
  | .insert k => (c.insert less k, .nothing)
  | .insertRange range => ((c.insertRange less range).1, .number (c.insertRange less range).2)
  | .replace keys => ((c.replace less keys).1, .flag (c.replace less keys).2)
  | .remove k => ((c.remove less k).1, .number (c.remove less k).2)
  | .eraseIf predicate => ((c.eraseIf predicate).1, .number (c.eraseIf predicate).2)
  | .clear => ([], .nothing)

def merged (result : Option (List E × List E × Nat)) (destination source : List E) : List E × List E × Answer V :=
  match result with
  | none => (destination, source, .outOfBounds)
  | some r => (r.1, r.2.1, .number r.2.2)

variable (value : E → V) (entriesOf : R → Option (List E)) (asked : G → K)

/-- What the operations do to the list of what was inserted and not since removed, in the order of insertion. -/
def logApply (log : List E) : Operation E K R G → List E × Answer V
  | .equalRange k =>
    let first := log.countP fun e => less (key e) k
    (log, .range first (first + (log.filter (same less key k)).length))
  | .count k => (log, .number (log.filter (same less key k)).length)
  | .contains k => (log, .flag (log.any (same less key k)))
  | .get g => (log, .value ((log.filter (same less key (asked g))).head?.map value))
  | .insert e => (log ++ [e], .nothing)
  | .insertRange range => (log ++ range, .number range.length)
  | .replace given =>
    match entriesOf given with
    | none => (log, .flag false)
    | some es => if rises less (es.map key) then (es, .flag true) else (log, .flag false)
  | .remove k => (log.filter fun e => !same less key k e, .number (log.filter (same less key k)).length)
  | .eraseIf predicate => (log.filter fun e => !predicate e, .number (log.countP predicate))
  | .clear => ([], .nothing)

def logMerge (destination source : List E) : List E × List E × Answer V :=
  (destination ++ source, [], .number source.length)

section Refinement

/-- The entries are sorted, and of each key they are what the log has of it, in its order. -/
structure Holds (less : K → K → Bool) (key : E → K) (entries log : List E) : Prop where
  stable : Stable (keyed less key) log entries
  kept : ∀ k, entries.filter (same less key k) = log.filter (same less key k)

variable {less : K → K → Bool} {key : E → K} {entries log destination source : List E} {k : K} {e : E}

theorem same_iff : same less key k e = true ↔ less (key e) k = false ∧ less k (key e) = false := by
  rw [same, and_eq_true, not_eq_true', not_eq_true']

variable (hless : StrictWeak less)
include hless

theorem same_eq (h : same less key k e = true) : same less key k = alike (keyed less key) e := by
  obtain ⟨hek, hke⟩ := same_iff.1 h
  funext x
  refine Bool.eq_iff_iff.2 (same_iff.trans (Iff.trans ?_ alike_iff.symm))
  exact ⟨fun ⟨hxk, hkx⟩ => ⟨hless.cut hek hkx, hless.cut hxk hke⟩,
    fun ⟨hex, hxe⟩ => ⟨hless.cut hxe hek, hless.cut hke hex⟩⟩

theorem holds_of_stable (h : Stable (keyed less key) log entries) : Holds less key entries log where
  stable := h
  kept k := by
    by_cases hex : ∃ e ∈ log, same less key k e = true
    · obtain ⟨e, -, he⟩ := hex
      rw [same_eq hless he]
      exact h.kept e
    · have hnone : ∀ x ∈ log, ¬same less key k x = true := fun x hx hs => hex ⟨x, hx, hs⟩
      rw [filter_eq_nil_iff.2 hnone, filter_eq_nil_iff.2 fun x hx => hnone x (h.perm.mem_iff.1 hx)]

variable (h : Ascending (keyed less key) entries)
include h

theorem parted_lower (k : K) : Parted (fun e => less (key e) k) entries :=
  h.imp fun {a b} hba hb => by
    cases ha : less (key a) k with
    | true => exact ha
    | false => exact absurd ((hless.cut hba ha).symm.trans hb) false_ne_true

theorem parted_upper (k : K) : Parted (fun e => !less k (key e)) entries :=
  h.imp fun {a b} hba hb => by
    rw [not_eq_true'] at *
    exact hless.cut hb hba

theorem lowerBound_eq (k : K) : lowerBound less key entries k = entries.countP fun e => less (key e) k :=
  (parted_lower hless h k).search_eq

theorem upperBound_eq (k : K) : upperBound less key entries k = entries.countP fun e => !less k (key e) :=
  (parted_upper hless h k).search_eq

omit h in
/-- What is not above `k` is below it or the same. -/
theorem countP_upper (entries : List E) (k : K) : (entries.countP fun e => !less k (key e)) =
    (entries.countP fun e => less (key e) k) + (entries.filter (same less key k)).length := by
  induction entries with
  | nil => rfl
  | cons e entries ih =>
    rw [countP_cons, countP_cons, ih, filter_cons]
    unfold same
    cases hek : less (key e) k with
    | true => rw [hless.asymm hek]; simp [Nat.add_right_comm]
    | false => cases less k (key e) <;> simp [Nat.add_assoc]

theorem kept_eq (k : K) :
    entries.take (lowerBound less key entries k) ++ entries.drop (upperBound less key entries k) =
      entries.filter fun e => !same less key k e := by
  rw [lowerBound_eq hless h, upperBound_eq hless h, (parted_lower hless h k).take_countP,
    (parted_upper hless h k).drop_countP]
  conv_rhs => rw [← (parted_upper hless h k).filter_append, filter_append, filter_filter, filter_filter]
  refine congrArg₂ (· ++ ·) (filter_congr fun e _ => ?_) (filter_congr fun e _ => ?_)
  · unfold same
    cases hek : less (key e) k with
    | true => rw [hless.asymm hek]; rfl
    | false => cases less k (key e) <;> rfl
  · unfold same
    cases less k (key e) <;> cases less (key e) k <;> rfl

theorem get_eq (k : K) : get less key entries k = (entries.filter (same less key k)).head? := by
  have hlower := parted_lower hless h k
  have hdrop := hlower.drop_countP
  have hskip : (entries.filter fun e => !less (key e) k).filter (same less key k) =
      entries.filter (same less key k) := by
    rw [filter_filter]
    refine filter_congr fun e _ => ?_
    unfold same
    cases less (key e) k <;> cases less k (key e) <;> rfl
  rw [get, lowerBound_eq hless h, ← head?_drop, hdrop, ← hskip]
  have hsub : Ascending (keyed less key) (entries.filter fun e => !less (key e) k) := h.filter _
  have hbelow : ∀ e ∈ entries.filter (fun e => !less (key e) k), less (key e) k = false := fun e he => by
    have := (mem_filter.1 he).2
    rwa [not_eq_true'] at this
  generalize entries.filter (fun e => !less (key e) k) = l at hsub hbelow
  cases l with
  | nil => rfl
  | cons e rest =>
    rw [head?_cons]
    cases hs : same less key k e with
    | true => simp [hs]
    | false =>
      have hke : less k (key e) = true := by
        rw [same, hbelow e mem_cons_self] at hs
        simpa using hs
      have hnone : (e :: rest).filter (same less key k) = [] := by
        refine filter_eq_nil_iff.2 fun x hx hsx => ?_
        have hxe := (hless.comap key).head_le hsub hx
        exact false_ne_true ((hless.cut (same_iff.1 hsx).2 hxe).symm.trans hke)
      rw [hnone]
      simp [hs]

omit h in
theorem stable_insert (h : Stable (keyed less key) log entries) (e : E) :
    Stable (keyed less key) (log ++ [e]) (insert less key entries e) := by
  have hupper := parted_upper hless h.ascending (key e)
  have heq := upperBound_eq hless h.ascending (key e)
  refine (hless.comap key).stable_insert ?_ ?_ ?_
  · rwa [take_append_drop]
  · rw [heq, hupper.take_countP]
    intro x hx
    have hx' := (mem_filter.1 hx).2
    rwa [not_eq_true'] at hx'
  · rw [heq, hupper.drop_countP]
    intro x hx
    have hx' := (mem_filter.1 hx).2
    rwa [Bool.not_not] at hx'

omit h in
theorem stable_insertRange (range : List E) (h : Stable (keyed less key) log entries) :
    Stable (keyed less key) (log ++ range) (range.foldl (insert less key) entries) := by
  induction range generalizing entries log with
  | nil => rwa [append_nil]
  | cons e range ih =>
    have hrest := ih (stable_insert hless h e)
    rwa [append_assoc] at hrest

omit h in
theorem ascending_of_rises {es : List E} (h : rises less (es.map key) = true) : Ascending (keyed less key) es := by
  induction es with
  | nil => exact List.Pairwise.nil
  | cons a es ih =>
    cases es with
    | nil => exact pairwise_singleton _ a
    | cons b es =>
      obtain ⟨hab, hrest⟩ := (and_eq_true _ _).mp h
      have hasc := ih hrest
      refine pairwise_cons.2 ⟨fun x hx => ?_, hasc⟩
      rw [not_eq_true'] at hab
      exact hless.cut ((hless.comap key).head_le hasc hx) hab

omit h

/-- The operations as the generic functions do them, for a multimap and for a multiset alike. -/
def entryApply (less : K → K → Bool) (key : E → K) (value : E → V) (entriesOf : R → Option (List E)) (asked : G → K)
    (c : List E) : Operation E K R G → List E × Answer V
  | .equalRange k => (c, .range (equalRange less key c k).1 (equalRange less key c k).2)
  | .count k => (c, .number (count less key c k))
  | .contains k => (c, .flag (contains less key c k))
  | .get g => (c, .value ((get less key c (asked g)).map value))
  | .insert e => (insert less key c e, .nothing)
  | .insertRange range => ((insertRange less key c range).1, .number (insertRange less key c range).2)
  | .replace given => ((replace less key c (entriesOf given)).1, .flag (replace less key c (entriesOf given)).2)
  | .remove k => ((remove less key c k).1, .number (remove less key c k).2)
  | .eraseIf predicate => ((eraseIf c predicate).1, .number (eraseIf c predicate).2)
  | .clear => ([], .nothing)

theorem count_eq (h : Holds less key entries log) (k : K) :
    count less key entries k = (log.filter (same less key k)).length := by
  rw [count, upperBound_eq hless h.stable.ascending, lowerBound_eq hless h.stable.ascending,
    countP_upper hless, h.kept]
  omega

theorem remove_eq (h : Holds less key entries log) (k : K) : remove less key entries k =
    (entries.filter fun e => !same less key k e, ((log.filter (same less key k)).length : Int)) := by
  have hremoved := count_eq hless h k
  unfold count at hremoved
  simp only [remove, hremoved]
  split_ifs with hzero
  · have hnone : entries.filter (same less key k) = [] := by
      rw [h.kept]
      exact eq_nil_of_length_eq_zero (Int.ofNat_eq_zero.1 hzero)
    rw [hzero, filter_eq_self.2 fun e he => by simpa using filter_eq_nil_iff.1 hnone e he]
  · rw [kept_eq hless h.stable.ascending]

theorem entryApply_agrees (op : Operation E K R G) (h : Holds less key entries log)
    (entriesOf : R → Option (List E)) (value : E → V) (asked : G → K) :
    Agrees (Holds less key) (entryApply less key value entriesOf asked entries op)
      (logApply less key value entriesOf asked log op) := by
  have hasc := h.stable.ascending
  have hcount := count_eq hless h
  cases op with
  | equalRange k =>
    refine ⟨h, ?_⟩
    rw [entryApply, equalRange, upperBound_eq hless hasc, lowerBound_eq hless hasc, countP_upper hless, h.kept,
      h.stable.perm.countP_eq]
    rfl
  | count k => exact ⟨h, congrArg Answer.number (hcount k)⟩
  | contains k =>
    refine ⟨h, congrArg Answer.flag ?_⟩
    rw [contains, hcount]
    cases hsame : log.filter (same less key k) with
    | nil => exact (any_eq_false.2 (filter_eq_nil_iff.1 hsame)).symm
    | cons e rest =>
      have he : e ∈ log.filter (same less key k) := by rw [hsame]; exact mem_cons_self
      rw [any_eq_true.2 ⟨e, mem_filter.1 he⟩]
      exact decide_eq_true (by rw [length_cons]; omega)
  | get g => exact ⟨h, congrArg (fun e => Answer.value (Option.map value e)) ((get_eq hless hasc _).trans (congrArg _ (h.kept _)))⟩
  | insert e => exact ⟨holds_of_stable hless (stable_insert hless h.stable e), rfl⟩
  | insertRange range => exact ⟨holds_of_stable hless (stable_insertRange hless range h.stable), rfl⟩
  | replace given =>
    cases hgiven : entriesOf given with
    | none =>
      simp only [entryApply, logApply, replace, hgiven]
      exact ⟨h, rfl⟩
    | some es =>
      simp only [entryApply, logApply, replace, hgiven]
      split_ifs with hrises
      · exact ⟨holds_of_stable hless ⟨List.Perm.refl _, ascending_of_rises hless hrises, fun _ => rfl⟩, rfl⟩
      · exact ⟨h, rfl⟩
  | remove k =>
    rw [entryApply, remove_eq hless h]
    exact ⟨holds_of_stable hless (stable_filter h.stable _), rfl⟩
  | eraseIf predicate =>
    rw [entryApply, eraseIf, sieve_count]
    exact ⟨holds_of_stable hless (stable_filter h.stable _), congrArg Answer.number (congrArg _ (h.stable.perm.countP_eq _))⟩
  | clear => exact ⟨holds_of_stable hless ⟨List.Perm.refl _, List.Pairwise.nil, fun _ => rfl⟩, rfl⟩

theorem merge_agrees (h : Holds less key destination log) {log' : List E} (h' : Holds less key source log') :
    Holds less key (merged (V := V) (merge less key destination source) destination source).1
        (logMerge (V := V) log log').1 ∧
      Holds less key (merged (V := V) (merge less key destination source) destination source).2.1
        (logMerge (V := V) log log').2.1 ∧
      (merged (V := V) (merge less key destination source) destination source).2.2 = (logMerge log log').2.2 := by
  rw [merge, mergeRuns_eq]
  refine ⟨holds_of_stable hless ((hless.comap key).stable_merge h.stable h'.stable), ?_, ?_⟩
  · exact holds_of_stable hless ⟨List.Perm.refl _, List.Pairwise.nil, fun _ => rfl⟩
  · exact congrArg (fun n : Nat => Answer.number n) h'.stable.perm.length_eq

theorem mapApply_agrees (op : MapOperation K V) {c log : FlatMultiMap K V} (h : Holds less Prod.fst c log) :
    Agrees (Holds less Prod.fst) (mapApply less c op)
      (logApply less Prod.fst Prod.snd (fun g => FlatMultiMap.paired g.1 g.2) id log op) := by
  have hone := entryApply_agrees (V := V) hless op h (fun g => FlatMultiMap.paired g.1 g.2) Prod.snd id
  cases op <;> exact hone

theorem setApply_agrees (op : SetOperation K) {c log : FlatMultiSet K} (h : Holds less id c log) :
    Agrees (Holds less id) (setApply less c op) (logApply less id id some Empty.elim log op) := by
  have hone := entryApply_agrees (V := K) hless op h some id Empty.elim
  cases op with
  | get g => cases g
  | _ => exact hone

end Refinement

variable {I : Type} [DecidableEq I]

def mapStep (less : K → K → Bool) : Action I (MapOperation K V) → (I → FlatMultiMap K V) → (I → FlatMultiMap K V) × Answer V :=
  familyStep (mapApply less) fun c c' => merged (c.merge less c') c c'

def mapLog (less : K → K → Bool) : Action I (MapOperation K V) → (I → List (K × V)) → (I → List (K × V)) × Answer V :=
  familyStep (logApply less Prod.fst Prod.snd (fun g => FlatMultiMap.paired g.1 g.2) id) logMerge

def setStep (less : T → T → Bool) : Action I (SetOperation T) → (I → FlatMultiSet T) → (I → FlatMultiSet T) × Answer T :=
  familyStep (setApply less) fun c c' => merged (c.merge less c') c c'

def setLog (less : T → T → Bool) : Action I (SetOperation T) → (I → List T) → (I → List T) × Answer T :=
  familyStep (logApply less id id some Empty.elim) logMerge

theorem holds_new {less : K → K → Bool} {key : E → K} : Holds less key [] [] :=
  ⟨⟨List.Perm.refl _, List.Pairwise.nil, fun _ => rfl⟩, fun _ => rfl⟩

/-- Whatever is done to multimaps and multisets, they answer from what was inserted and not since
removed, and hold it in the order of the keys, and in that of insertion where these are equivalent. -/
theorem flatMultimaps_hold (less : K → K → Bool) (hless : StrictWeak less) :
    (∀ actions : List (Action I (MapOperation K V)),
      let flat := runs (mapStep less) actions fun _ => FlatMultiMap.new
      let logs := runs (mapLog less) actions fun _ => []
      flat.2 = logs.2 ∧ ∀ i, Holds less Prod.fst (flat.1 i) (logs.1 i)) ∧
    ∀ actions : List (Action I (SetOperation K)),
      let flat := runs (setStep less) actions fun _ => FlatMultiSet.new
      let logs := runs (setLog less) actions fun _ => []
      flat.2 = logs.2 ∧ ∀ i, Holds less id (flat.1 i) (logs.1 i) := by
  refine ⟨fun actions => ?_, fun actions => ?_⟩
  · have hagrees := runs_agree (familyStep_agrees (fun op _ _ h => mapApply_agrees hless op h)
      fun _ _ _ _ h h' => merge_agrees hless h h') (fun _ : I => holds_new) actions
    exact ⟨hagrees.answer, hagrees.related⟩
  · have hagrees := runs_agree (familyStep_agrees (fun op _ _ h => setApply_agrees hless op h)
      fun _ _ _ _ h h' => merge_agrees hless h h') (fun _ : I => holds_new) actions
    exact ⟨hagrees.answer, hagrees.related⟩

/-- Two entries of one key, to which a merge adds a third. -/
theorem flatMultimaps_hold_pair :
    let actions : List (Action Nat (MapOperation Nat Nat)) := [.on 0 (.insert (1, 5)), .on 0 (.insert (1, 6)),
      .on 1 (.insert (1, 7)), .both 0 1 (by decide), .on 0 (.count 1)]
    let flat := runs (mapStep fun a b => decide (a < b)) actions fun _ => FlatMultiMap.new
    let logs := runs (mapLog fun a b => decide (a < b)) actions fun _ => []
    flat.2 = logs.2 ∧ ∀ i, Holds (fun a b => decide (a < b)) Prod.fst (flat.1 i) (logs.1 i) :=
  (flatMultimaps_hold (fun a b : Nat => decide (a < b)) MergeSorts.strictWeak_lt).1 _

section Agreement

variable {less : K → K → Bool} {key : E → K} (hless : StrictWeak less) {destination source : List E}
include hless

theorem merge_eq_insertRange (h : Ascending (keyed less key) destination) (h' : Ascending (keyed less key) source) :
    merge less key destination source = some ((insertRange less key destination source).1, [], source.length) := by
  have hstable : ∀ {l}, Ascending (keyed less key) l → Stable (keyed less key) l l :=
    fun h => ⟨List.Perm.refl _, h, fun _ => rfl⟩
  have hmerged := (hless.comap key).stable_merge (hstable h) (hstable h')
  have hinserted := stable_insertRange hless source (hstable h)
  rw [merge, mergeRuns_eq, insertRange, (hless.comap key).stable_unique hmerged hinserted]
  rfl

theorem insertRange_eq_sort (range : List E) {fuel : Nat} (hfuel : range.length < fuel) :
    MergeSorts.sortedByProjected fuel range less key = some (insertRange less key [] range).1 := by
  have hinserted := @stable_insertRange _ _ _ key _ _ hless range ⟨List.Perm.refl [], List.Pairwise.nil, fun _ => rfl⟩
  obtain ⟨sorted, hsorted, -, hunique⟩ := MergeSorts.sortWith_sorts (hless.comap key)
    (fun left right => mergeRuns_eq) hfuel
  rw [MergeSorts.sortedByProjected]
  exact hsorted.trans (congrArg some (hunique _ hinserted).symm)

end Agreement

/-- A merge does what inserting the other's entries does, and a range put into a new multimap is sorted as
the merge sort does it. -/
theorem multimaps_insertions (less : K → K → Bool) (hless : StrictWeak less) (actions : List (Action I (MapOperation K V)))
    (range : List (K × V)) (fuel : Nat) (hfuel : range.length < fuel) :
    (∀ i j, let c := (runs (mapStep less) actions fun _ => FlatMultiMap.new).1
      (c i).merge less (c j) = some (((c i).insertRange less (c j)).1, [], (c j).length)) ∧
    MergeSorts.sortedByProjected fuel range less Prod.fst = some (FlatMultiMap.new.insertRange less range).1 := by
  refine ⟨fun i j => ?_, insertRange_eq_sort hless range hfuel⟩
  have hagrees := runs_agree (familyStep_agrees (fun op _ _ h => mapApply_agrees hless op h)
    fun _ _ _ _ h h' => merge_agrees hless h h') (fun _ : I => holds_new) actions
  exact merge_eq_insertRange hless (hagrees.related i).stable.ascending (hagrees.related j).stable.ascending

theorem multimaps_insertions_pair :
    let c := (runs (mapStep fun a b => decide (a < b)) ([.on 0 (.insert (1, 'a')), .on 1 (.insert (1, 'b'))] :
      List (Action Nat (MapOperation Nat Char))) fun _ => FlatMultiMap.new).1
    (c 0).merge (fun a b => decide (a < b)) (c 1) =
        some (((c 0).insertRange (fun a b => decide (a < b)) (c 1)).1, [], (c 1).length) ∧
      MergeSorts.sortedByProjected 4 [(2, 'c'), (1, 'a'), (1, 'b')] (fun a b : Nat => decide (a < b)) Prod.fst =
        some (FlatMultiMap.new.insertRange (fun a b : Nat => decide (a < b)) [(2, 'c'), (1, 'a'), (1, 'b')]).1 := by
  obtain ⟨hmerge, hsort⟩ := multimaps_insertions (fun a b : Nat => decide (a < b)) MergeSorts.strictWeak_lt
    [.on 0 (.insert (1, 'a')), .on 1 (.insert (1, 'b'))] [(2, 'c'), (1, 'a'), (1, 'b')] 4 (by decide)
  exact ⟨hmerge 0 1, hsort⟩

end Mlang.FlatMultimaps
