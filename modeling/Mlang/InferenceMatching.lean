import Mlang.TypeInference

namespace Mlang.InferenceMatching

open TypeKinds TypeInference List
open Mangling (Name TypeNode)
open Option (bind_some)

def canonicalKind : TypeKind → TypeKind
  | .int => .i32
  | .string => .str8
  | kind => kind

/-- A type in which the names of instances are replaced by the instances, `depth` times over. -/
def resolve (instanceOf : InstanceTable) : Nat → TypeNode → TypeNode
  | 0 => mapLeaves .structRef canonicalKind
  | depth + 1 =>
    mapLeaves (fun n =>
      match instanceOf n with
      | none => .structRef n
      | some (genericName, typeArgs) =>
        .genericStruct genericName (typeArgs.map (resolve instanceOf depth))) canonicalKind

/-- The instances a compiler has made. -/
structure Instances where
  instanceOf : InstanceTable
  depth : Nat
  nested : ∀ n genericName typeArgs, instanceOf n = some (genericName, typeArgs) →
    ∀ t ∈ typeArgs, resolve instanceOf (depth + 1) t = resolve instanceOf depth t

variable (I : Instances)

def Instances.meaning (t : TypeNode) : TypeNode := resolve I.instanceOf (I.depth + 1) t

def Same (t t' : TypeNode) : Prop := I.meaning t = I.meaning t'

theorem mapAllLeaves_eq_map (f : Name → TypeNode) (g : TypeKind → TypeKind) (ts : List TypeNode) :
    mapAllLeaves f g ts = ts.map (mapLeaves f g) := by
  induction ts with
  | nil => rfl
  | cons t ts ih => rw [mapAllLeaves, ih, map_cons]

theorem meaning_genericStruct (n : Name) (ts : List TypeNode) :
    I.meaning (.genericStruct n ts) = .genericStruct n (ts.map I.meaning) :=
  congrArg (TypeNode.genericStruct n) (mapAllLeaves_eq_map _ _ ts)

theorem meaning_tuple (ts : List TypeNode) : I.meaning (.tuple ts) = .tuple (ts.map I.meaning) :=
  congrArg TypeNode.tuple (mapAllLeaves_eq_map _ _ ts)

theorem meaning_function (ts : List TypeNode) (t : TypeNode) :
    I.meaning (.function ts t) = .function (ts.map I.meaning) (I.meaning t) :=
  congrArg (TypeNode.function · (I.meaning t)) (mapAllLeaves_eq_map _ _ ts)

theorem meaning_structRef_eq (n : Name) :
    I.meaning (.structRef n) = match I.instanceOf n with
      | none => .structRef n
      | some (genericName, typeArgs) =>
        .genericStruct genericName (typeArgs.map (resolve I.instanceOf I.depth)) := rfl

theorem meaning_structRef_some {n genericName : Name} {typeArgs : List TypeNode}
    (h : I.instanceOf n = some (genericName, typeArgs)) :
    I.meaning (.structRef n) = .genericStruct genericName (typeArgs.map I.meaning) := by
  rw [meaning_structRef_eq, h]
  exact congrArg _ (map_congr_left fun t ht => (I.nested n genericName typeArgs h t ht).symm)

theorem meaning_structRef_none {n : Name} (h : I.instanceOf n = none) :
    I.meaning (.structRef n) = .structRef n := by
  rw [meaning_structRef_eq, h]

theorem meaning_structRef (n : Name) :
    I.meaning (.structRef n) = .structRef n ∨
      ∃ genericName typeArgs, I.meaning (.structRef n) = .genericStruct genericName typeArgs := by
  cases h : I.instanceOf n with
  | none => exact .inl (meaning_structRef_none I h)
  | some i => exact .inr ⟨_, _, meaning_structRef_some I h⟩

theorem asList_meaning (c : TypeNode) : asList (I.meaning c) = (asList c).map I.meaning := by
  cases c with
  | structRef n => rcases meaning_structRef I n with h | ⟨_, _, h⟩ <;> rw [h] <;> rfl
  | _ => rfl

theorem asArray_meaning (c : TypeNode) :
    asArray (I.meaning c) = (asArray c).map fun x => (I.meaning x.1, x.2) := by
  cases c with
  | structRef n => rcases meaning_structRef I n with h | ⟨_, _, h⟩ <;> rw [h] <;> rfl
  | _ => rfl

theorem asMultiArray_meaning (c : TypeNode) :
    asMultiArray (I.meaning c) = (asMultiArray c).map fun x => (I.meaning x.1, x.2) := by
  cases c with
  | structRef n => rcases meaning_structRef I n with h | ⟨_, _, h⟩ <;> rw [h] <;> rfl
  | _ => rfl

theorem asMap_meaning (c : TypeNode) :
    asMap (I.meaning c) = (asMap c).map fun x => (I.meaning x.1, I.meaning x.2) := by
  cases c with
  | structRef n => rcases meaning_structRef I n with h | ⟨_, _, h⟩ <;> rw [h] <;> rfl
  | _ => rfl

theorem asTuple_meaning (c : TypeNode) :
    asTuple (I.meaning c) = (asTuple c).map fun ts => ts.map I.meaning := by
  cases c with
  | structRef n => rcases meaning_structRef I n with h | ⟨_, _, h⟩ <;> rw [h] <;> rfl
  | tuple ts => rw [meaning_tuple]; rfl
  | _ => rfl

theorem asPointer_meaning (c : TypeNode) : asPointer (I.meaning c) = (asPointer c).map I.meaning := by
  cases c with
  | structRef n => rcases meaning_structRef I n with h | ⟨_, _, h⟩ <;> rw [h] <;> rfl
  | _ => rfl

theorem asFunction_meaning (c : TypeNode) :
    asFunction (I.meaning c) = (asFunction c).map fun x => (x.1.map I.meaning, I.meaning x.2) := by
  cases c with
  | structRef n => rcases meaning_structRef I n with h | ⟨_, _, h⟩ <;> rw [h] <;> rfl
  | function ts t => rw [meaning_function]; rfl
  | _ => rfl

theorem asInstance_meaning (c : TypeNode) :
    asInstance (fun _ => none) (I.meaning c) =
      (asInstance I.instanceOf c).map fun x => (x.1, x.2.map I.meaning) := by
  cases c with
  | structRef n =>
    cases h : I.instanceOf n with
    | none => rw [meaning_structRef_none I h, asInstance, asInstance, h]; rfl
    | some i => rw [meaning_structRef_some I h, asInstance, asInstance, h]; rfl
  | genericStruct n ts => rw [meaning_genericStruct]; rfl
  | _ => rfl

mutual

/-- An argument type the way a parameter type looks at it. -/
def seenAs : TypeNode → TypeNode → TypeNode
  | .reference elementType isMutable, c => .reference (seenAs elementType (referenced c)) isMutable
  | .function parameterTypes returnType, c =>
    match asFunction c with
    | none => c
    | some (parameters, result) =>
      .function (allSeenAs parameterTypes parameters) (seenAs returnType result)
  | .multiArray elementType _ _, c =>
    match asMultiArray c with
    | none => c
    | some (element, capacity, elementsMutable) =>
      .multiArray (seenAs elementType element) capacity elementsMutable
  | .array elementType _, c =>
    match asArray c with
    | none => c
    | some (element, capacity) => .array (seenAs elementType element) capacity
  | .genericList elementType, c =>
    match asList c with
    | none => c
    | some element => .genericList (seenAs elementType element)
  | .map keyType valueType, c =>
    match asMap c with
    | none => c
    | some (key, value) => .map (seenAs keyType key) (seenAs valueType value)
  | .tuple elementTypes, c =>
    match asTuple c with
    | none => c
    | some elements => .tuple (allSeenAs elementTypes elements)
  | .pointer elementType, c =>
    match asPointer c with
    | none => c
    | some element => .pointer (seenAs elementType element)
  | .genericStruct _ typeArgs, c =>
    match asInstance I.instanceOf c with
    | none => c
    | some (genericName, args) => .genericStruct genericName (allSeenAs typeArgs args)
  | .structRef _, c => c
  | .scalar _, c => c
  | .traitObject _, c => c

def allSeenAs : List TypeNode → List TypeNode → List TypeNode
  | p :: ps, c :: cs => seenAs p c :: allSeenAs ps cs
  | _, cs => cs

end

variable (typeParams : List Name)

inductive Demand
  | key (pattern concrete : TypeNode)
  | param (name : Name) (concrete : TypeNode)

mutual

def demands : TypeNode → TypeNode → Option (List Demand)
  | .reference elementType _, c => demands elementType (referenced c)
  | .function parameterTypes returnType, c =>
    match asFunction c with
    | none => none
    | some (parameters, result) =>
      match allDemands parameterTypes parameters, demands returnType result with
      | some ds, some ds' => some (ds ++ ds')
      | _, _ => none
  | .structRef n, c => some [if n ∈ typeParams then .param n c else .key (.structRef n) c]
  | .multiArray elementType capacity elementsMutable, c =>
    match asMultiArray c with
    | none => none
    | some (element, capacity', elementsMutable') =>
      if capacity = capacity' ∧ elementsMutable = elementsMutable' then demands elementType element
      else none
  | .array elementType capacity, c =>
    match asArray c with
    | none => none
    | some (element, capacity') => if capacity = capacity' then demands elementType element else none
  | .genericList elementType, c =>
    match asList c with
    | none => none
    | some element => demands elementType element
  | .map keyType valueType, c =>
    match asMap c with
    | none => none
    | some (key, value) =>
      match demands keyType key, demands valueType value with
      | some ds, some ds' => some (ds ++ ds')
      | _, _ => none
  | .tuple elementTypes, c =>
    match asTuple c with
    | none => none
    | some elements => allDemands elementTypes elements
  | .pointer elementType, c =>
    match asPointer c with
    | none => none
    | some element => demands elementType element
  | .genericStruct structName typeArgs, c =>
    match asInstance I.instanceOf c with
    | none => none
    | some (genericName, args) => if structName = genericName then allDemands typeArgs args else none
  | .scalar kind, c => some [.key (.scalar kind) c]
  | .traitObject traitName, c => some [.key (.traitObject traitName) c]

def allDemands : List TypeNode → List TypeNode → Option (List Demand)
  | [], [] => some []
  | p :: ps, c :: cs =>
    match demands p c, allDemands ps cs with
    | some ds, some ds' => some (ds ++ ds')
    | _, _ => none
  | _, _ => none

end

def settleOne : Demand → Bindings → Option Bindings
  | .key pattern concrete, bindings => compareKeys pattern concrete bindings
  | .param n concrete, bindings =>
    match bindings n with
    | none => some (Function.update bindings n (some concrete))
    | some found => if typeMangle found = typeMangle concrete then some bindings else none

def settle : List Demand → Bindings → Option Bindings
  | [], bindings => some bindings
  | d :: ds, bindings => (settleOne d bindings).bind (settle ds)

theorem settle_append (ds ds' : List Demand) (b : Bindings) :
    settle (ds ++ ds') b = (settle ds b).bind (settle ds') := by
  induction ds generalizing b with
  | nil => rfl
  | cons d ds ih =>
    rw [cons_append, settle, settle, Option.bind_assoc]
    exact congrArg _ (funext ih)

mutual

theorem bindType_eq_settle : ∀ (p c : TypeNode) (b : Bindings),
    bindType I.instanceOf typeParams p c b = (demands I typeParams p c).bind (settle · b)
  | .reference e _, c, b => by
    rw [bindType, demands]
    exact bindType_eq_settle e (referenced c) b
  | .function ps r, c, b => by
    rw [bindType, demands]
    cases asFunction c with
    | none => rfl
    | some cs =>
      simp only [bindTypes_eq_settle ps cs.1 b]
      cases allDemands I typeParams ps cs.1 with
      | none => rfl
      | some ds =>
        have hresult := fun b => bindType_eq_settle r cs.2 b
        cases hds : settle ds b with
        | none => cases demands I typeParams r cs.2 <;> simp [hds, settle_append]
        | some b' =>
          simp only [bind_some, hds, hresult]
          cases demands I typeParams r cs.2 <;> simp [hds, settle_append]
  | .structRef n, c, b => by
    rw [bindType, demands]
    by_cases hn : n ∈ typeParams
    · simp only [hn, if_true, bind_some, settle, settleOne]
      cases b n with
      | none => rfl
      | some found => by_cases hkey : typeMangle found = typeMangle c <;> simp [hkey]
    · simp only [hn, if_false, bind_some, settle, settleOne]
      by_cases hkey : typeMangle (.structRef n) = typeMangle c <;> simp [compareKeys, hkey]
  | .multiArray e k m, c, b => by
    rw [bindType, demands]
    cases asMultiArray c with
    | none => rfl
    | some ce =>
      simp only [bindType_eq_settle e ce.1 b]
      split <;> rfl
  | .array e k, c, b => by
    rw [bindType, demands]
    cases asArray c with
    | none => rfl
    | some ce =>
      simp only [bindType_eq_settle e ce.1 b]
      split <;> rfl
  | .genericList e, c, b => by
    rw [bindType, demands]
    cases asList c with
    | none => rfl
    | some ce => exact bindType_eq_settle e ce b
  | .map k v, c, b => by
    rw [bindType, demands]
    cases asMap c with
    | none => rfl
    | some ce =>
      simp only [bindType_eq_settle k ce.1 b]
      cases demands I typeParams k ce.1 with
      | none => rfl
      | some ds =>
        have hvalue := fun b => bindType_eq_settle v ce.2 b
        cases hds : settle ds b with
        | none => cases demands I typeParams v ce.2 <;> simp [hds, settle_append]
        | some b' =>
          simp only [bind_some, hds, hvalue]
          cases demands I typeParams v ce.2 <;> simp [hds, settle_append]
  | .tuple ps, c, b => by
    rw [bindType, demands]
    cases asTuple c with
    | none => rfl
    | some cs => exact bindTypes_eq_settle ps cs b
  | .pointer e, c, b => by
    rw [bindType, demands]
    cases asPointer c with
    | none => rfl
    | some ce => exact bindType_eq_settle e ce b
  | .genericStruct n ps, c, b => by
    rw [bindType, demands]
    cases asInstance I.instanceOf c with
    | none => rfl
    | some ce =>
      simp only [bindTypes_eq_settle ps ce.2 b]
      split <;> rfl
  | .scalar kind, c, b => by
    rw [bindType, demands]
    simp only [bind_some, settle, settleOne, Option.bind_fun_some]
  | .traitObject n, c, b => by
    rw [bindType, demands]
    simp only [bind_some, settle, settleOne, Option.bind_fun_some]

theorem bindTypes_eq_settle : ∀ (ps cs : List TypeNode) (b : Bindings),
    bindTypes I.instanceOf typeParams ps cs b = (allDemands I typeParams ps cs).bind (settle · b)
  | [], [], _ => rfl
  | [], _ :: _, _ => rfl
  | _ :: _, [], _ => rfl
  | p :: ps, c :: cs, b => by
    rw [bindTypes, allDemands, bindType_eq_settle p c b]
    cases demands I typeParams p c with
    | none => rfl
    | some ds =>
      have hrest := fun b => bindTypes_eq_settle ps cs b
      cases hds : settle ds b with
      | none => cases allDemands I typeParams ps cs <;> simp [hds, settle_append]
      | some b' =>
        simp only [bind_some, hds, hrest]
        cases allDemands I typeParams ps cs <;> simp [hds, settle_append]

end

variable {ds : List Demand} {R : TypeNode → TypeNode → Prop}

def first (n : Name) : List Demand → Option TypeNode
  | [] => none
  | .param n' c :: ds => if n' = n then some c else first n ds
  | .key _ _ :: ds => first n ds

def boundBy (b : Bindings) (ds : List Demand) : Bindings := fun n => (b n).or (first n ds)

def Agrees (R : TypeNode → TypeNode → Prop) (b : Bindings) : Demand → Prop
  | .key p c => R p c
  | .param n c => ∃ t, b n = some t ∧ R t c

def SameKey (t t' : TypeNode) : Prop := typeMangle t = typeMangle t'

theorem settle_eq_some_iff (ds : List Demand) (b b' : Bindings) :
    settle ds b = some b' ↔ b' = boundBy b ds ∧ ∀ d ∈ ds, Agrees SameKey (boundBy b ds) d := by
  induction ds generalizing b with
  | nil =>
    have hbound : boundBy b [] = b := by
      funext n
      simp [boundBy, first]
    simp [settle, hbound, eq_comm]
  | cons d ds ih =>
    rw [settle, forall_mem_cons]
    cases d with
    | key p c =>
      have hbound : boundBy b (.key p c :: ds) = boundBy b ds := rfl
      rw [hbound]
      by_cases hkey : typeMangle p = typeMangle c
      · simp [settleOne, compareKeys, hkey, ih, Agrees, SameKey]
      · simp [settleOne, compareKeys, hkey, Agrees, SameKey]
    | param n c =>
      cases hn : b n with
      | none =>
        have hbound : boundBy b (.param n c :: ds) =
            boundBy (Function.update b n (some c)) ds := by
          funext m
          by_cases hm : m = n
          · subst hm
            simp [boundBy, first, hn]
          · simp [boundBy, first, hm, Ne.symm hm]
        have hagrees : Agrees SameKey (boundBy (Function.update b n (some c)) ds) (.param n c) :=
          ⟨c, by simp [boundBy], rfl⟩
        rw [hbound]
        simp [settleOne, hn, ih, hagrees]
      | some t =>
        have hbound : boundBy b (.param n c :: ds) = boundBy b ds := by
          funext m
          by_cases hm : m = n
          · subst hm
            simp [boundBy, hn]
          · simp [boundBy, first, Ne.symm hm]
        have hagrees : Agrees SameKey (boundBy b ds) (.param n c) ↔ typeMangle t = typeMangle c := by
          simp [Agrees, boundBy, hn, SameKey]
        rw [hbound, hagrees]
        by_cases hkey : typeMangle t = typeMangle c
        · simp [settleOne, hn, hkey, ih]
        · simp [settleOne, hn, hkey]

def Consistent (R : TypeNode → TypeNode → Prop) (ds : List Demand) : Prop :=
  (∀ p c, .key p c ∈ ds → R p c) ∧ ∀ n c c', .param n c ∈ ds → .param n c' ∈ ds → R c c'

variable {n : Name} {t : TypeNode}

theorem param_of_first (h : first n ds = some t) : .param n t ∈ ds := by
  induction ds with
  | nil => cases h
  | cons d ds ih =>
    cases d with
    | key p c => exact mem_cons_of_mem _ (ih h)
    | param n' c =>
      rw [first] at h
      split at h
      · rename_i hn
        obtain rfl := hn
        cases h
        exact mem_cons_self
      · exact mem_cons_of_mem _ (ih h)

theorem first_of_param (h : .param n t ∈ ds) : ∃ t', first n ds = some t' := by
  induction ds with
  | nil => cases h
  | cons d ds ih =>
    cases d with
    | key p c =>
      rcases mem_cons.1 h with h | h
      · cases h
      · exact ih h
    | param n' c =>
      by_cases hn : n' = n
      · exact ⟨c, if_pos hn⟩
      · rcases mem_cons.1 h with h | h
        · cases h
          exact absurd rfl hn
        · obtain ⟨t', ht'⟩ := ih h
          exact ⟨t', (if_neg hn).trans ht'⟩

theorem agrees_iff_consistent (hR : Equivalence R) (ds : List Demand) :
    (∀ d ∈ ds, Agrees R (boundBy (fun _ => none) ds) d) ↔ Consistent R ds := by
  constructor
  · intro h
    refine ⟨fun p c hmem => h _ hmem, fun n c c' hmem hmem' => ?_⟩
    obtain ⟨t, ht, hc⟩ := h _ hmem
    obtain ⟨t', ht', hc'⟩ := h _ hmem'
    obtain rfl := Option.some.inj (ht.symm.trans ht')
    exact hR.trans (hR.symm hc) hc'
  · rintro ⟨hkeys, hparams⟩ d hmem
    cases d with
    | key p c => exact hkeys p c hmem
    | param n c =>
      obtain ⟨t, ht⟩ := first_of_param hmem
      exact ⟨t, ht, hparams n t c (param_of_first ht) hmem⟩

theorem sameKey_equivalence : Equivalence SameKey :=
  ⟨fun _ => rfl, Eq.symm, Eq.trans⟩

variable (σ : Name → TypeNode)

def instantiate : TypeNode → TypeNode := substituteTypeParams typeParams (typeParams.map σ)

theorem lookup_zip_map (n : Name) :
    (typeParams.zip (typeParams.map σ)).lookup n = if n ∈ typeParams then some (σ n) else none := by
  induction typeParams with
  | nil => rfl
  | cons m ms ih =>
    rw [map_cons, zip_cons_cons, lookup_cons]
    by_cases hn : n = m
    · subst hn
      simp
    · simp [hn, beq_false_of_ne hn, ih]

theorem instantiate_structRef (n : Name) :
    instantiate typeParams σ (.structRef n) = if n ∈ typeParams then σ n else .structRef n := by
  rw [instantiate, substituteTypeParams, mapLeaves, lookup_zip_map]
  split <;> rfl

theorem instantiate_genericStruct (n : Name) (ts : List TypeNode) :
    instantiate typeParams σ (.genericStruct n ts) =
      .genericStruct n (ts.map (instantiate typeParams σ)) := by
  rw [instantiate, substituteTypeParams, mapLeaves, mapAllLeaves_eq_map]

theorem instantiate_tuple (ts : List TypeNode) :
    instantiate typeParams σ (.tuple ts) = .tuple (ts.map (instantiate typeParams σ)) := by
  rw [instantiate, substituteTypeParams, mapLeaves, mapAllLeaves_eq_map]

theorem instantiate_function (ts : List TypeNode) (t : TypeNode) :
    instantiate typeParams σ (.function ts t) =
      .function (ts.map (instantiate typeParams σ)) (instantiate typeParams σ t) := by
  rw [instantiate, substituteTypeParams, mapLeaves, mapAllLeaves_eq_map]

def Demand.Holds : Demand → Prop
  | .key p c => Same I p c
  | .param n c => Same I (σ n) c

def Fits (p c : TypeNode) : Prop := Same I (instantiate typeParams σ p) (seenAs I p c)

def Met (ds : Option (List Demand)) : Prop := ∃ ds', ds = some ds' ∧ ∀ d ∈ ds', d.Holds I σ

theorem met_append {ds ds' : Option (List Demand)} :
    Met I σ (match ds, ds' with
      | some ds, some ds' => some (ds ++ ds')
      | _, _ => none) ↔ Met I σ ds ∧ Met I σ ds' := by
  cases ds with
  | none => simp [Met]
  | some ds => cases ds' <;> simp [Met, or_imp, forall_and]

theorem not_met_none : ¬Met I σ none := by
  simp [Met]

theorem ne_meaning {α : Type} {cast : TypeNode → Option α} {found : Option α} {g : α → α}
    {p c : TypeNode} (h : p = I.meaning c) (hmeaning : cast (I.meaning c) = found.map g)
    (hfound : found = none) : cast p = none := by
  rw [h, hmeaning, hfound]
  rfl

mutual

theorem fits_iff_met : ∀ p c : TypeNode, Fits I typeParams σ p c ↔ Met I σ (demands I typeParams p c)
  | .reference e m, c => by
    rw [demands, ← fits_iff_met e (referenced c)]
    have hfits : Fits I typeParams σ (.reference e m) c ↔
        TypeNode.reference (I.meaning (instantiate typeParams σ e)) m =
          .reference (I.meaning (seenAs I e (referenced c))) m := Iff.rfl
    rw [hfits, TypeNode.reference.injEq, and_iff_left rfl]
    rfl
  | .function ps r, c => by
    rw [Fits, Same, instantiate_function, meaning_function, seenAs, demands]
    cases hc : asFunction c with
    | none =>
      refine iff_of_false (fun h => ?_) (not_met_none I σ)
      cases ne_meaning I h (asFunction_meaning I c) hc
    | some cs =>
      simp only [meaning_function, TypeNode.function.injEq]
      rw [met_append, ← allFit_iff_met ps cs.1, ← fits_iff_met r cs.2]
      rfl
  | .structRef n, c => by
    rw [Fits, instantiate_structRef, demands]
    by_cases hn : n ∈ typeParams <;> simp [hn, Met, Demand.Holds, seenAs]
  | .multiArray e k m, c => by
    rw [demands]
    cases hc : asMultiArray c with
    | none =>
      refine iff_of_false (fun h => ?_) (not_met_none I σ)
      rw [Fits, seenAs, hc] at h
      cases ne_meaning I h (asMultiArray_meaning I c) hc
    | some ce =>
      have hfits : Fits I typeParams σ (.multiArray e k m) c ↔
          TypeNode.multiArray (I.meaning (instantiate typeParams σ e)) k m =
            .multiArray (I.meaning (seenAs I e ce.1)) ce.2.1 ce.2.2 := by
        rw [Fits, seenAs, hc]
        rfl
      rw [hfits, TypeNode.multiArray.injEq]
      dsimp only
      split
      · rename_i hcapacity
        rw [and_iff_left hcapacity, ← fits_iff_met e ce.1]
        rfl
      · rename_i hcapacity
        exact iff_of_false (fun h => hcapacity h.2) (not_met_none I σ)
  | .array e k, c => by
    rw [demands]
    cases hc : asArray c with
    | none =>
      refine iff_of_false (fun h => ?_) (not_met_none I σ)
      rw [Fits, seenAs, hc] at h
      cases ne_meaning I h (asArray_meaning I c) hc
    | some ce =>
      have hfits : Fits I typeParams σ (.array e k) c ↔
          TypeNode.array (I.meaning (instantiate typeParams σ e)) k =
            .array (I.meaning (seenAs I e ce.1)) ce.2 := by
        rw [Fits, seenAs, hc]
        rfl
      rw [hfits, TypeNode.array.injEq]
      dsimp only
      split
      · rename_i hcapacity
        rw [and_iff_left hcapacity, ← fits_iff_met e ce.1]
        rfl
      · rename_i hcapacity
        exact iff_of_false (fun h => hcapacity h.2) (not_met_none I σ)
  | .genericList e, c => by
    rw [demands]
    cases hc : asList c with
    | none =>
      refine iff_of_false (fun h => ?_) (not_met_none I σ)
      rw [Fits, seenAs, hc] at h
      cases ne_meaning I h (asList_meaning I c) hc
    | some ce =>
      have hfits : Fits I typeParams σ (.genericList e) c ↔
          TypeNode.genericList (I.meaning (instantiate typeParams σ e)) =
            .genericList (I.meaning (seenAs I e ce)) := by
        rw [Fits, seenAs, hc]
        rfl
      rw [hfits, TypeNode.genericList.injEq, ← fits_iff_met e ce]
      rfl
  | .map k v, c => by
    rw [demands]
    cases hc : asMap c with
    | none =>
      refine iff_of_false (fun h => ?_) (not_met_none I σ)
      rw [Fits, seenAs, hc] at h
      cases ne_meaning I h (asMap_meaning I c) hc
    | some ce =>
      have hfits : Fits I typeParams σ (.map k v) c ↔
          TypeNode.map (I.meaning (instantiate typeParams σ k))
              (I.meaning (instantiate typeParams σ v)) =
            .map (I.meaning (seenAs I k ce.1)) (I.meaning (seenAs I v ce.2)) := by
        rw [Fits, seenAs, hc]
        rfl
      rw [hfits, TypeNode.map.injEq]
      dsimp only
      rw [met_append, ← fits_iff_met k ce.1, ← fits_iff_met v ce.2]
      rfl
  | .tuple ps, c => by
    rw [Fits, Same, instantiate_tuple, meaning_tuple, seenAs, demands]
    cases hc : asTuple c with
    | none =>
      refine iff_of_false (fun h => ?_) (not_met_none I σ)
      cases ne_meaning I h (asTuple_meaning I c) hc
    | some cs =>
      simp only [meaning_tuple, TypeNode.tuple.injEq]
      exact allFit_iff_met ps cs
  | .pointer e, c => by
    rw [demands]
    cases hc : asPointer c with
    | none =>
      refine iff_of_false (fun h => ?_) (not_met_none I σ)
      rw [Fits, seenAs, hc] at h
      cases ne_meaning I h (asPointer_meaning I c) hc
    | some ce =>
      have hfits : Fits I typeParams σ (.pointer e) c ↔
          TypeNode.pointer (I.meaning (instantiate typeParams σ e)) =
            .pointer (I.meaning (seenAs I e ce)) := by
        rw [Fits, seenAs, hc]
        rfl
      rw [hfits, TypeNode.pointer.injEq, ← fits_iff_met e ce]
      rfl
  | .genericStruct n ps, c => by
    rw [Fits, Same, instantiate_genericStruct, meaning_genericStruct, seenAs, demands]
    cases hc : asInstance I.instanceOf c with
    | none =>
      refine iff_of_false (fun h => ?_) (not_met_none I σ)
      cases ne_meaning I h (asInstance_meaning I c) hc
    | some ce =>
      simp only [meaning_genericStruct, TypeNode.genericStruct.injEq]
      split
      · rename_i hname
        rw [and_iff_right hname]
        exact allFit_iff_met ps ce.2
      · rename_i hname
        exact iff_of_false (fun h => hname h.1) (not_met_none I σ)
  | .scalar kind, c => by
    rw [demands, Met]
    simp [Demand.Holds, Fits, seenAs, instantiate, substituteTypeParams, mapLeaves]
  | .traitObject n, c => by
    rw [demands, Met]
    simp [Demand.Holds, Fits, seenAs, instantiate, substituteTypeParams, mapLeaves]

theorem allFit_iff_met : ∀ ps cs : List TypeNode,
    (ps.map (instantiate typeParams σ)).map I.meaning = (allSeenAs I ps cs).map I.meaning ↔
      Met I σ (allDemands I typeParams ps cs)
  | [], [] => by simp [allSeenAs, allDemands, Met]
  | [], _ :: _ => by simp [allSeenAs, allDemands, Met]
  | _ :: _, [] => by simp [allSeenAs, allDemands, Met]
  | p :: ps, c :: cs => by
    rw [allDemands, met_append, ← fits_iff_met p c, ← allFit_iff_met ps cs, allSeenAs]
    simp only [map_cons, List.cons.injEq]
    rfl

end

variable {ds' : List Demand}

mutual

def typeNames : TypeNode → List Name
  | .reference e _ | .pointer e | .genericList e | .array e _ | .multiArray e _ _ => typeNames e
  | .structRef n => [n]
  | .genericStruct _ ts | .tuple ts => allTypeNames ts
  | .map k v => typeNames k ++ typeNames v
  | .function ts t => allTypeNames ts ++ typeNames t
  | .scalar _ | .traitObject _ => []

def allTypeNames : List TypeNode → List Name
  | [] => []
  | t :: ts => typeNames t ++ allTypeNames ts

end

theorem some_append {as bs : Option (List Demand)} {cs : List Demand}
    (h : (match as, bs with
      | some ds, some ds' => some (ds ++ ds')
      | _, _ => none) = some cs) : ∃ as' bs', as = some as' ∧ bs = some bs' ∧ cs = as' ++ bs' := by
  cases as with
  | none => cases h
  | some as =>
    cases bs with
    | none => cases h
    | some bs => exact ⟨as, bs, rfl, rfl, (Option.some.inj h).symm⟩

theorem exists_param_append {n : Name} {ns ns' : List Name} (h : n ∈ ns → ∃ t, .param n t ∈ ds)
    (h' : n ∈ ns' → ∃ t, .param n t ∈ ds') (hn : n ∈ ns ++ ns') : ∃ t, Demand.param n t ∈ ds ++ ds' := by
  rcases mem_append.1 hn with hn | hn
  · obtain ⟨t, ht⟩ := h hn
    exact ⟨t, mem_append_left _ ht⟩
  · obtain ⟨t, ht⟩ := h' hn
    exact ⟨t, mem_append_right _ ht⟩

mutual

theorem exists_param {n : Name} (hn : n ∈ typeParams) : ∀ (p c : TypeNode) {ds : List Demand},
    demands I typeParams p c = some ds → n ∈ typeNames p → ∃ t, .param n t ∈ ds
  | .reference e _, c, ds, h, hmem => exists_param hn e (referenced c) h hmem
  | .function ps r, c, ds, h, hmem => by
    rw [demands] at h
    split at h
    · cases h
    · obtain ⟨ds₁, ds₂, h₁, h₂, rfl⟩ := some_append h
      exact exists_param_append (exists_param_all hn ps _ h₁) (exists_param hn r _ h₂) hmem
  | .structRef m, c, ds, h, hmem => by
    obtain rfl := mem_singleton.1 hmem
    rw [demands, if_pos hn] at h
    cases h
    exact ⟨c, mem_cons_self⟩
  | .multiArray e _ _, c, ds, h, hmem => by
    rw [demands] at h
    split at h
    · cases h
    · split at h
      · exact exists_param hn e _ h hmem
      · cases h
  | .array e _, c, ds, h, hmem => by
    rw [demands] at h
    split at h
    · cases h
    · split at h
      · exact exists_param hn e _ h hmem
      · cases h
  | .genericList e, c, ds, h, hmem => by
    rw [demands] at h
    split at h
    · cases h
    · exact exists_param hn e _ h hmem
  | .map k v, c, ds, h, hmem => by
    rw [demands] at h
    split at h
    · cases h
    · obtain ⟨ds₁, ds₂, h₁, h₂, rfl⟩ := some_append h
      exact exists_param_append (exists_param hn k _ h₁) (exists_param hn v _ h₂) hmem
  | .tuple ps, c, ds, h, hmem => by
    rw [demands] at h
    split at h
    · cases h
    · exact exists_param_all hn ps _ h hmem
  | .pointer e, c, ds, h, hmem => by
    rw [demands] at h
    split at h
    · cases h
    · exact exists_param hn e _ h hmem
  | .genericStruct _ ps, c, ds, h, hmem => by
    rw [demands] at h
    split at h
    · cases h
    · split at h
      · exact exists_param_all hn ps _ h hmem
      · cases h
  | .scalar _, _, _, _, hmem => nomatch hmem
  | .traitObject _, _, _, _, hmem => nomatch hmem

theorem exists_param_all {n : Name} (hn : n ∈ typeParams) :
    ∀ (ps cs : List TypeNode) {ds : List Demand}, allDemands I typeParams ps cs = some ds →
      n ∈ allTypeNames ps → ∃ t, .param n t ∈ ds
  | [], _, _, _, hmem => nomatch hmem
  | _ :: _, [], _, h, _ => nomatch h
  | p :: ps, c :: cs, ds, h, hmem => by
    obtain ⟨ds₁, ds₂, h₁, h₂, rfl⟩ := some_append h
    exact exists_param_append (exists_param hn p c h₁) (exists_param_all hn ps cs h₂) hmem

end

def callDemands : List (TypeNode × Argument) → Option (List Demand)
  | [] => some []
  | x :: xs =>
    match (concreteType x.1 x.2).bind (demands I typeParams x.1), callDemands xs with
    | some ds, some ds' => some (ds ++ ds')
    | _, _ => none

theorem bindArguments_eq_settle (xs : List (TypeNode × Argument)) (b : Bindings) :
    bindArguments I.instanceOf typeParams xs b = (callDemands I typeParams xs).bind (settle · b) := by
  induction xs generalizing b with
  | nil => rfl
  | cons x xs ih =>
    rw [bindArguments, callDemands]
    cases concreteType x.1 x.2 with
    | none => rfl
    | some c =>
      simp only [bindType_eq_settle, bind_some]
      cases demands I typeParams x.1 c with
      | none => rfl
      | some ds =>
        cases hds : settle ds b with
        | none => cases callDemands I typeParams xs <;> simp [hds, settle_append]
        | some b' =>
          simp only [bind_some, hds, ih]
          cases callDemands I typeParams xs <;> simp [hds, settle_append]

def FitsCall (σ : Name → TypeNode) (xs : List (TypeNode × Argument)) : Prop :=
  ∀ x ∈ xs, ∃ c, concreteType x.1 x.2 = some c ∧ Fits I typeParams σ x.1 c

theorem fitsCall_iff_met (σ : Name → TypeNode) (xs : List (TypeNode × Argument)) :
    FitsCall I typeParams σ xs ↔ Met I σ (callDemands I typeParams xs) := by
  induction xs with
  | nil => simp [FitsCall, callDemands, Met]
  | cons x xs ih =>
    rw [callDemands, met_append, ← ih, FitsCall, forall_mem_cons]
    refine and_congr_left fun _ => ?_
    cases concreteType x.1 x.2 with
    | none => simp [Met]
    | some c =>
      rw [bind_some, ← fits_iff_met]
      simp

theorem exists_holds_iff (ds : List Demand) :
    (∃ σ : Name → TypeNode, ∀ d ∈ ds, d.Holds I σ) ↔ Consistent (Same I) ds := by
  constructor
  · rintro ⟨σ, hσ⟩
    refine ⟨fun p c hmem => hσ _ hmem, fun n c c' hmem hmem' => ?_⟩
    have hc : Same I (σ n) c := hσ _ hmem
    have hc' : Same I (σ n) c' := hσ _ hmem'
    exact hc.symm.trans hc'
  · rintro ⟨hkeys, hparams⟩
    refine ⟨fun n => (first n ds).getD (.structRef n), fun d hmem => ?_⟩
    cases d with
    | key p c => exact hkeys p c hmem
    | param n c =>
      obtain ⟨t, ht⟩ := first_of_param hmem
      simp only [Demand.Holds, ht, Option.getD_some]
      exact hparams n t c (param_of_first ht) hmem

variable {xs : List (TypeNode × Argument)}

theorem holds_iff_first (h : Consistent (Same I) ds) (σ : Name → TypeNode) :
    (∀ d ∈ ds, d.Holds I σ) ↔ ∀ n t, first n ds = some t → Same I (σ n) t := by
  constructor
  · intro hholds n t ht
    exact hholds _ (param_of_first ht)
  · intro hfirst d hmem
    cases d with
    | key p c => exact h.1 p c hmem
    | param n c =>
      obtain ⟨t, ht⟩ := first_of_param hmem
      exact (hfirst n t ht).trans (h.2 n t c (param_of_first ht) hmem)

theorem callDemands_perm {ys : List (TypeNode × Argument)} (h : xs.Perm ys)
    (hds : callDemands I typeParams xs = some ds) :
    ∃ ds', callDemands I typeParams ys = some ds' ∧ ∀ d, d ∈ ds' ↔ d ∈ ds := by
  induction h generalizing ds with
  | nil => exact ⟨ds, hds, fun _ => Iff.rfl⟩
  | cons x _ ih =>
    obtain ⟨ds₁, ds₂, h₁, h₂, rfl⟩ := some_append hds
    obtain ⟨ds', h', hmem⟩ := ih h₂
    refine ⟨ds₁ ++ ds', ?_, fun d => ?_⟩
    · rw [callDemands, h₁, h']
    · rw [mem_append, mem_append, hmem]
  | swap x y xs =>
    obtain ⟨ds₁, ds₂, h₁, h₂, rfl⟩ := some_append hds
    obtain ⟨ds₃, ds₄, h₃, h₄, rfl⟩ := some_append h₂
    refine ⟨ds₃ ++ (ds₁ ++ ds₄), ?_, fun d => ?_⟩
    · rw [callDemands, h₃, callDemands, h₁, h₄]
    · simp only [mem_append]
      tauto
  | trans _ _ ih ih' =>
    obtain ⟨ds₁, h₁, hmem₁⟩ := ih hds
    obtain ⟨ds₂, h₂, hmem₂⟩ := ih' h₁
    exact ⟨ds₂, h₂, fun d => (hmem₂ d).trans (hmem₁ d)⟩

theorem Consistent.of_mem_iff (h : Consistent R ds) (hmem : ∀ d, d ∈ ds' ↔ d ∈ ds) : Consistent R ds' :=
  ⟨fun p c hkey => h.1 p c ((hmem _).1 hkey),
    fun n c c' hc hc' => h.2 n c c' ((hmem _).1 hc) ((hmem _).1 hc')⟩

theorem infer_eq_some_iff {parameters : List TypeNode} {arguments : List Argument}
    (hlength : parameters.length = arguments.length) (b : Bindings) :
    inferGenericFunctionTypeBindings I.instanceOf typeParams parameters arguments = some b ↔
      ∃ ds, callDemands I typeParams (parameters.zip arguments) = some ds ∧
        b = boundBy (fun _ => none) ds ∧ Consistent SameKey ds := by
  rw [inferGenericFunctionTypeBindings, if_pos hlength, bindArguments_eq_settle]
  cases callDemands I typeParams (parameters.zip arguments) with
  | none => simp
  | some ds => simp [settle_eq_some_iff, agrees_iff_consistent sameKey_equivalence]

def FitsArguments (σ : Name → TypeNode) (parameters : List TypeNode) (arguments : List Argument) :
    Prop :=
  parameters.length = arguments.length ∧ FitsCall I typeParams σ (parameters.zip arguments)

/-- Inference is matching: it finds the substitution that there is, and no other. -/
structure InfersSubstitution (parameters : List TypeNode) (arguments : List Argument) : Prop where
  accepts : (∃ b, inferGenericFunctionTypeBindings I.instanceOf typeParams parameters arguments =
    some b) ↔ ∃ σ, FitsArguments I typeParams σ parameters arguments
  bound : ∀ b, inferGenericFunctionTypeBindings I.instanceOf typeParams parameters arguments = some b →
    ∀ n ∈ typeParams, ∃ t, b n = some t
  unique : ∀ b, inferGenericFunctionTypeBindings I.instanceOf typeParams parameters arguments = some b →
    ∀ σ, FitsArguments I typeParams σ parameters arguments ↔
      ∀ n t, b n = some t → Same I (σ n) t
  order : ∀ b, inferGenericFunctionTypeBindings I.instanceOf typeParams parameters arguments = some b →
    ∀ parameters' arguments', parameters'.length = arguments'.length →
      (parameters.zip arguments).Perm (parameters'.zip arguments') →
      ∃ b', inferGenericFunctionTypeBindings I.instanceOf typeParams parameters' arguments' = some b' ∧
        ∀ n t, b n = some t → ∃ t', b' n = some t' ∧ Same I t t'
  distinct : ∀ b, inferGenericFunctionTypeBindings I.instanceOf typeParams parameters arguments = some b →
    ∀ ds, callDemands I typeParams (parameters.zip arguments) = some ds →
      ∀ n t t', .param n t ∈ ds → .param n t' ∈ ds → Same I t t'

/-- The types that are compared by their keys agree in them where they are the same, and only
there. -/
def KeysTellApart (parameters : List TypeNode) (arguments : List Argument) : Prop :=
  ∀ ds, callDemands I typeParams (parameters.zip arguments) = some ds →
    (Consistent SameKey ds ↔ Consistent (Same I) ds)

theorem exists_param_call {n : Name} (hn : n ∈ typeParams) (hds : callDemands I typeParams xs = some ds)
    (hmem : ∃ x ∈ xs, n ∈ typeNames x.1) : ∃ t, .param n t ∈ ds := by
  induction xs generalizing ds with
  | nil =>
    obtain ⟨x, hx, -⟩ := hmem
    cases hx
  | cons x xs ih =>
    obtain ⟨ds₁, ds₂, h₁, h₂, rfl⟩ := some_append hds
    obtain ⟨y, hy, hny⟩ := hmem
    rcases mem_cons.1 hy with rfl | hy
    · obtain ⟨c, -, hc⟩ := Option.bind_eq_some_iff.1 h₁
      obtain ⟨t, ht⟩ := exists_param I typeParams hn y.1 c hc hny
      exact ⟨t, mem_append_left _ ht⟩
    · obtain ⟨t, ht⟩ := ih h₂ ⟨y, hy, hny⟩
      exact ⟨t, mem_append_right _ ht⟩

/-- Inference is matching exactly where the keys of the types it compares tell them apart. -/
theorem infersSubstitution_iff_keysTellApart {parameters : List TypeNode} {arguments : List Argument}
    (hoccur : ∀ n ∈ typeParams, ∃ p ∈ parameters, n ∈ typeNames p) :
    InfersSubstitution I typeParams parameters arguments ↔
      (parameters.length = arguments.length → KeysTellApart I typeParams parameters arguments) := by
  have hmet : ∀ {ds}, callDemands I typeParams (parameters.zip arguments) = some ds →
      ∀ σ, FitsCall I typeParams σ (parameters.zip arguments) ↔ ∀ d ∈ ds, d.Holds I σ := by
    intro ds hds σ
    rw [fitsCall_iff_met, hds]
    simp [Met]
  constructor
  · intro h hlength ds hds
    rw [← exists_holds_iff]
    constructor
    · intro hkeys
      obtain ⟨σ, -, hσ⟩ := h.accepts.1 ⟨_, (infer_eq_some_iff I typeParams hlength _).2 ⟨ds, hds, rfl, hkeys⟩⟩
      exact ⟨σ, (hmet hds σ).1 hσ⟩
    · rintro ⟨σ, hσ⟩
      obtain ⟨b, hb⟩ := h.accepts.2 ⟨σ, hlength, (hmet hds σ).2 hσ⟩
      obtain ⟨ds', hds', -, hkeys⟩ := (infer_eq_some_iff I typeParams hlength b).1 hb
      obtain rfl := Option.some.inj (hds.symm.trans hds')
      exact hkeys
  · intro h
    have hsome : ∀ b, inferGenericFunctionTypeBindings I.instanceOf typeParams parameters arguments =
        some b → parameters.length = arguments.length ∧
          ∃ ds, callDemands I typeParams (parameters.zip arguments) = some ds ∧
            b = boundBy (fun _ => none) ds ∧ Consistent SameKey ds ∧ Consistent (Same I) ds := by
      intro b hb
      have hlength : parameters.length = arguments.length := by
        by_contra hne
        rw [inferGenericFunctionTypeBindings, if_neg hne] at hb
        cases hb
      obtain ⟨ds, hds, hbound, hkeys⟩ := (infer_eq_some_iff I typeParams hlength b).1 hb
      exact ⟨hlength, ds, hds, hbound, hkeys, (h hlength ds hds).1 hkeys⟩
    constructor
    · constructor
      · rintro ⟨b, hb⟩
        obtain ⟨hlength, ds, hds, -, -, hsame⟩ := hsome b hb
        obtain ⟨σ, hσ⟩ := (exists_holds_iff I ds).2 hsame
        exact ⟨σ, hlength, (hmet hds σ).2 hσ⟩
      · rintro ⟨σ, hlength, hσ⟩
        obtain ⟨ds, hds, hholds⟩ := (fitsCall_iff_met I typeParams σ _).1 hσ
        have hkeys := (h hlength ds hds).2 ((exists_holds_iff I ds).1 ⟨σ, hholds⟩)
        exact ⟨_, (infer_eq_some_iff I typeParams hlength _).2 ⟨ds, hds, rfl, hkeys⟩⟩
    · intro b hb n hn
      obtain ⟨hlength, ds, hds, rfl, -, -⟩ := hsome b hb
      obtain ⟨p, hp, hnp⟩ := hoccur n hn
      obtain ⟨a, ha⟩ : ∃ a, (p, a) ∈ parameters.zip arguments := by
        rw [← map_fst_zip hlength.le] at hp
        obtain ⟨x, hx, rfl⟩ := mem_map.1 hp
        exact ⟨x.2, hx⟩
      obtain ⟨t, ht⟩ := exists_param_call I typeParams hn hds ⟨(p, a), ha, hnp⟩
      exact first_of_param ht
    · intro b hb σ
      obtain ⟨hlength, ds, hds, rfl, -, hsame⟩ := hsome b hb
      rw [FitsArguments, and_iff_right hlength, hmet hds, holds_iff_first I hsame]
      rfl
    · intro b hb parameters' arguments' hlength' hperm
      obtain ⟨hlength, ds, hds, rfl, hkeys, hsame⟩ := hsome b hb
      obtain ⟨ds', hds', hmem⟩ := callDemands_perm I typeParams hperm hds
      refine ⟨_, (infer_eq_some_iff I typeParams hlength' _).2
        ⟨ds', hds', rfl, hkeys.of_mem_iff hmem⟩, fun n t ht => ?_⟩
      have hparam : .param n t ∈ ds' := (hmem _).2 (param_of_first ht)
      obtain ⟨t', ht'⟩ := first_of_param hparam
      exact ⟨t', ht', (hsame.of_mem_iff hmem).2 n t t' hparam (param_of_first ht')⟩
    · intro b hb ds hds n t t' ht ht'
      obtain ⟨-, ds', hds', -, -, hsame⟩ := hsome b hb
      obtain rfl := Option.some.inj (hds.symm.trans hds')
      exact hsame.2 n t t' ht ht'

def noInstances : Instances := ⟨fun _ => none, 0, fun _ _ _ h => nomatch h⟩

/-- `fn f(xs: list<T>, x: T)` is called with a `list<i32>` and an `i32`. -/
theorem listAndElement_infer :
    InfersSubstitution noInstances [['T']] [.genericList (.structRef ['T']), .structRef ['T']]
      [⟨.genericList (.scalar .i32), none⟩, ⟨.scalar .i32, none⟩] := by
  refine (infersSubstitution_iff_keysTellApart noInstances [['T']] ?_).2 fun _ ds hds => ?_
  · intro n hn
    exact ⟨.structRef ['T'], by simp, hn⟩
  · have hdemands : callDemands noInstances [['T']]
        [(.genericList (.structRef ['T']), ⟨.genericList (.scalar .i32), none⟩),
          (.structRef ['T'], ⟨.scalar .i32, none⟩)] =
        some [.param ['T'] (.scalar .i32), .param ['T'] (.scalar .i32)] := rfl
    obtain rfl := Option.some.inj (hds.symm.trans hdemands)
    have hall : ∀ R : TypeNode → TypeNode → Prop, R (.scalar .i32) (.scalar .i32) →
        Consistent R [.param ['T'] (.scalar .i32), .param ['T'] (.scalar .i32)] := by
      intro R hR
      refine ⟨by simp, fun n c c' hc hc' => ?_⟩
      simp only [mem_cons, Demand.param.injEq, not_mem_nil, or_false, or_self] at hc hc'
      rw [hc.2, hc'.2]
      exact hR
    exact iff_of_true (hall _ rfl) (hall _ rfl)

/-- An array is taken for a `list<T>`, which no type for `T` makes it. -/
theorem arrayArgument_inferred :
    (inferGenericFunctionTypeBindings noInstances.instanceOf [['T']] [.genericList (.structRef ['T'])]
        [⟨.array (.scalar .i32) 4, none⟩]).isSome = true ∧
      ∀ σ : Name → TypeNode, ¬Same noInstances
        (instantiate [['T']] σ (.genericList (.structRef ['T']))) (.array (.scalar .i32) 4) :=
  ⟨rfl, fun _ h => nomatch h⟩

end Mlang.InferenceMatching
