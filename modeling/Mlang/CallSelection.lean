import Mlang.CallResolution

namespace Mlang.CallSelection

open TypeKinds List Option
open Mangling (Name TypeNode)
open Concepts (Path moreConstrained)
open TypeInference (typeMangle)
open OverloadResolution (getLLVMType)
open DisjunctiveTerms (undominated)
open BestCandidates CallResolution
open ConstraintRanking (moreConstrained_strictlyOrders)

variable {known : Option TypeNode} {A : Type} {expected param type : TypeNode}

section Types

variable (E : TypeTables A)

def KnownAs (known : Option TypeNode) (type : TypeNode) : Prop :=
  known = some type ∨ (known = none ∧ isCallableOrTraitObject type = false)

/-- The compiler knows an argument by its type: its value has the machine type of that, and so has
whatever it is compared with. -/
def IsKnown (a : Argument A) : Prop :=
  match a.kind with
  | .plain type =>
    (∀ elementType isMutable, type ≠ .reference elementType isMutable) ∧
      a.valueType = getLLVMTypeFromNode E type ∧
      match a.functionType with
      | some f => f = type ∧ ∃ parameterTypes returnType, type = .function parameterTypes returnType
      | none => KnownAs a.semanticType type
  | .address type isMutable operandType =>
    a.functionType = none ∧ KnownAs operandType type ∧
      (a.valueType = .pointer ∨ isMutable = false ∧ a.valueType = getLLVMTypeFromNode E type)
  | .closure _ | .functionItem _ => True

/-- The type of a parameter is the type of the argument. -/
def HasType (a : Argument A) (param : TypeNode) : Prop :=
  match a.kind with
  | .plain type => param = type
  | .address type isMutable _ => param = .reference type isMutable
  | .closure parameters => ∃ parameterTypes returnType,
      param = .function parameterTypes returnType ∧ closureMatches parameters parameterTypes = true
  | .functionItem types => ∃ parameterTypes returnType,
      param = .function parameterTypes returnType ∧
        types.countP (itemMatches parameterTypes returnType) = 1

theorem traitNamesEquivalent_refl (name : Name) : traitNamesEquivalent name name = true := by
  simp [traitNamesEquivalent]

variable {E}
variable {a : Argument A}

theorem suits_of_knownAs (h : KnownAs known type) (hfunction : a.functionType = none)
    (hkind : (∃ type', a.kind = .plain type') ∨ a.isAddress = true) : suits E type known a = true := by
  rcases h with rfl | ⟨rfl, hcallable⟩
  · cases type with
    | function parameterTypes returnType =>
      have hactual : actualFunction parameterTypes returnType
          (some (.function parameterTypes returnType)) a =
            some (.function parameterTypes returnType) := by
        unfold actualFunction
        rcases hkind with ⟨_, hkind⟩ | hkind
        · simp [hkind, hfunction, asFunction]
        · unfold Argument.isAddress at hkind
          split at hkind
          · rename_i hkind'
            simp [hkind', hfunction, asFunction]
          · cases hkind
      simp [suits, hactual]
    | traitObject name => simp [suits, traitNamesEquivalent_refl]
    | _ => simp [suits]
  · cases type with
    | function parameterTypes returnType => cases hcallable
    | traitObject name => cases hcallable
    | _ => rfl

theorem suits_of_actualFunction {parameterTypes : List TypeNode} {returnType : TypeNode}
    (h : actualFunction parameterTypes returnType known a = some (.function parameterTypes returnType)) :
    suits E (.function parameterTypes returnType) known a = true := by
  simp [suits, h]

theorem passCost_of_suits (h : suits E expected known a = true) :
    passCost E expected known a (some 0) = some 0 := by
  unfold passCost
  rw [if_pos h, ite_self]

variable [DecidableEq A]

theorem canConvertType_self (type : MachineType A) : canConvertType type type = some 0 :=
  if_pos rfl

theorem argumentCost_of_hasType (hknown : IsKnown E a) (h : HasType a param) :
    argumentCost E param a = some 0 := by
  unfold HasType at h
  unfold IsKnown at hknown
  split at h
  · rename_i type hkind
    subst h
    rw [hkind] at hknown
    obtain ⟨href, hvalue, hknown⟩ := hknown
    have hsuits : suits E param a.semanticType a = true := by
      split at hknown
      · rename_i f hf
        obtain ⟨rfl, parameterTypes, returnType, rfl⟩ := hknown
        apply suits_of_actualFunction
        simp [actualFunction, hkind, hf]
      · rename_i hnone
        exact suits_of_knownAs hknown hnone (.inl ⟨_, hkind⟩)
    have hparam : parameterLLVMType E param = getLLVMTypeFromNode E param := by
      cases param with
      | reference elementType isMutable => exact absurd rfl (href elementType isMutable)
      | _ => rfl
    cases param with
    | reference elementType isMutable => exact absurd rfl (href elementType isMutable)
    | _ =>
      simp only [argumentCost, hparam, hvalue, canConvertType_self]
      exact passCost_of_suits hsuits
  · rename_i elementType isMutable operandType hkind
    subst h
    rw [hkind] at hknown
    obtain ⟨hfunction, hknown, hvalue⟩ := hknown
    cases isMutable with
    | true =>
      have hpointer : a.valueType = .pointer := by simpa using hvalue
      have hoperand : operandSuits elementType operandType = true := by
        rcases hknown with rfl | ⟨rfl, -⟩ <;> simp [operandSuits]
      simp [argumentCost, hkind, hoperand, hpointer, canConvertType_self]
    | false =>
      have hsuits : suits E elementType a.referredType a = true := by
        have hreferred : a.referredType = operandType := by simp [Argument.referredType, hkind]
        rw [hreferred]
        exact suits_of_knownAs hknown hfunction (.inr (by simp [Argument.isAddress, hkind]))
      dsimp only [argumentCost]
      rcases hvalue with hvalue | ⟨-, hvalue⟩
      · rw [if_pos ⟨by simp [Argument.isAddress, hkind], hvalue, rfl⟩]
        exact passCost_of_suits hsuits
      · have hcost : canConvertType a.valueType
            (parameterLLVMType E (.reference elementType false)) = some 0 := by
          rw [hvalue]
          exact canConvertType_self _
        rw [hcost, ite_self]
        exact passCost_of_suits hsuits
  · rename_i parameters hkind
    obtain ⟨parameterTypes, returnType, rfl, hmatches⟩ := h
    have hsuits : suits E (.function parameterTypes returnType) a.semanticType a = true := by
      apply suits_of_actualFunction
      simp [actualFunction, hkind, hmatches]
    simp [argumentCost, passCost, hsuits, isCallableOrTraitObject]
  · rename_i types hkind
    obtain ⟨parameterTypes, returnType, rfl, hcount⟩ := h
    have hsuits : suits E (.function parameterTypes returnType) a.semanticType a = true := by
      apply suits_of_actualFunction
      simp [actualFunction, hkind, hcount]
    simp [argumentCost, passCost, hsuits, isCallableOrTraitObject]

end Types

variable {x : FunctionOverloadInfo} {xs : List FunctionOverloadInfo}

variable [DecidableEq A] (E : TypeTables A) (currentModule : Path) (arguments : List (Argument A))
  (overloads : List FunctionOverloadInfo)

structure Exact (info : FunctionOverloadInfo) : Prop where
  visible : isOverloadVisible currentModule info = true
  types : List.Forall₂ HasType arguments info.parameters

def bestOverloads : List FunctionOverloadInfo :=
  best (candidateCost E currentModule arguments) stronger overloads

def Viable (info : FunctionOverloadInfo) : Prop :=
  (candidateCost E currentModule arguments info).isSome = true

structure SelectsBest : Prop where
  order : ∀ overloads', overloads.Perm overloads' →
    resolveCall E currentModule overloads' arguments = resolveCall E currentModule overloads arguments
  exact : ∀ e ∈ overloads, Exact currentModule arguments e →
    (∀ o ∈ overloads, Exact currentModule arguments o → o = e) →
      resolveCall E currentModule overloads arguments = .selected e
  strict : ∀ s, resolveCall E currentModule overloads arguments = .selected s →
    s ∈ overloads ∧ ∀ o ∈ overloads, Viable E currentModule arguments o → o ≠ s →
      beats (candidateCost E currentModule arguments) stronger s o = true
  refMut : ∀ u ∈ overloads, expectsRefMut u arguments = true →
    (∃ a ∈ overloads, Viable E currentModule arguments a ∧ expectsRefMut a arguments = false) →
      u ∉ bestOverloads E currentModule arguments overloads

def AsIs (param : TypeNode) (a : Argument A) : Prop :=
  match param with
  | .reference elementType true =>
    match a.kind with
    | .address _ true operandType => operandSuits elementType operandType = true ∧
        ∃ cost, canConvertType a.valueType (.pointer : MachineType A) = some cost
    | _ => True
  | .reference elementType false => suits E elementType a.referredType a = true ∧
      (isCallableOrTraitObject elementType = true ∨ (a.isAddress = true ∧ a.valueType = .pointer) ∨
        a.valueType = getLLVMTypeFromNode E elementType)
  | type => suits E type a.semanticType a = true ∧
      (isCallableOrTraitObject type = true ∨ a.valueType = getLLVMTypeFromNode E type)

structure TakesAsIs (info : FunctionOverloadInfo) : Prop where
  visible : isOverloadVisible currentModule info = true
  arity : if info.isVarArg then info.parameters.length ≤ arguments.length
    else info.parameters.length = arguments.length
  types : ∀ p ∈ info.parameters.zip arguments, AsIs E p.1 p.2

section Costs

variable {E currentModule arguments}

theorem canConvertType_eq_zero {actual expected : MachineType A} :
    canConvertType actual expected = some 0 ↔ actual = expected := by
  constructor
  · intro h
    unfold canConvertType at h
    split at h
    · assumption
    · split at h
      · rename_i hne actual expected
        unfold OverloadResolution.canConvertType at h
        split at h
        · rename_i heq
          rw [heq]
        · split_ifs at h <;> simp at h
      · cases h
  · rintro rfl
    exact canConvertType_self _

variable {a : Argument A} {info : FunctionOverloadInfo}

omit [DecidableEq A] in
theorem passCost_eq_zero {cost : Option Nat} : passCost E expected known a cost = some 0 ↔
    suits E expected known a = true ∧ (isCallableOrTraitObject expected = true ∨ cost = some 0) := by
  unfold passCost
  cases suits E expected known a <;> cases isCallableOrTraitObject expected <;> simp

theorem argumentCost_eq_zero : argumentCost E param a = some 0 ↔ AsIs E param a := by
  cases param with
  | reference elementType isMutable =>
    cases isMutable with
    | true =>
      obtain ⟨kind, semanticType, functionType, valueType⟩ := a
      rcases kind with _ | ⟨type, isMutable, operandType⟩ | _ | _
      · exact iff_of_true rfl trivial
      · cases isMutable with
        | false => exact iff_of_true rfl trivial
        | true =>
          dsimp only [argumentCost, AsIs]
          split_ifs with hsuits
          · simp [hsuits, map_eq_some_iff]
          · simp [hsuits]
      · exact iff_of_true rfl trivial
      · exact iff_of_true rfl trivial
    | false =>
      dsimp only [argumentCost, AsIs]
      rw [passCost_eq_zero]
      apply and_congr_right
      intro _
      apply or_congr_right
      split_ifs with haddress
      · exact iff_of_true rfl (.inl ⟨haddress.1, haddress.2.1⟩)
      · rw [canConvertType_eq_zero]
        constructor
        · exact .inr
        · rintro (h | h)
          · exact absurd ⟨h.1, h.2, rfl⟩ haddress
          · exact h
  | _ => simp only [argumentCost, AsIs, passCost_eq_zero, canConvertType_eq_zero, parameterLLVMType]

theorem totalCost_eq_zero {params : List TypeNode} {args : List (Argument A)} :
    totalCost E params args = some 0 ↔
      params.length ≤ args.length ∧ ∀ p ∈ params.zip args, AsIs E p.1 p.2 := by
  induction params generalizing args with
  | nil => simp [totalCost]
  | cons param params ih =>
    cases args with
    | nil => simp [totalCost]
    | cons a args =>
      rw [zip_cons_cons, forall_mem_cons, ← argumentCost_eq_zero, length_cons,
        length_cons, Nat.add_le_add_iff_right, and_left_comm, ← ih, totalCost]
      cases argumentCost E param a <;> cases totalCost E params args <;> simp

theorem candidateCost_eq_zero : candidateCost E currentModule arguments info = some 0 ↔
    TakesAsIs E currentModule arguments info := by
  unfold candidateCost
  constructor
  · intro h
    split_ifs at h with hvisible harity hvar
    have htotal := totalCost_eq_zero.1 h
    refine ⟨by simpa using hvisible, ?_, htotal.2⟩
    split
    · exact htotal.1
    · rename_i hno
      simpa [hno] using harity
  · rintro ⟨hvisible, harity, htypes⟩
    cases hvar : info.isVarArg with
    | true =>
      rw [hvar, if_pos rfl] at harity
      simpa [hvisible, hvar, harity] using totalCost_eq_zero.2 ⟨harity, htypes⟩
    | false =>
      rw [hvar, if_neg Bool.false_ne_true] at harity
      simpa [hvisible, hvar, harity] using totalCost_eq_zero.2 ⟨harity.le, htypes⟩

/-- Arguments that are known by their types need no conversion where these are declared. -/
theorem Exact.takesAsIs (h : Exact currentModule arguments info)
    (hknown : ∀ a ∈ arguments, IsKnown E a) : TakesAsIs E currentModule arguments info := by
  have hlength := h.types.length_eq
  refine ⟨h.visible, ?_, fun p hp => ?_⟩
  · split
    · exact hlength.ge
    · exact hlength.symm
  · rw [← argumentCost_eq_zero]
    have hflip := List.forall₂_iff_zip.1 h.types.flip
    exact argumentCost_of_hasType (hknown _ (of_mem_zip hp).2) (hflip.2 hp)

end Costs

/-- What sets `e` apart: without a conversion, that it is more constrained than whatever else takes
the arguments as they are; with one, that it is the better conversion. -/
def StandsOut (e : FunctionOverloadInfo) : Prop :=
  (TakesAsIs E currentModule arguments e ∧
    ∀ o ∈ overloads, o ≠ e → TakesAsIs E currentModule arguments o → stronger e o = true) ∨
  (¬ TakesAsIs E currentModule arguments e ∧ Viable E currentModule arguments e ∧
    ∀ o ∈ overloads, o ≠ e → Viable E currentModule arguments o →
      beats (candidateCost E currentModule arguments) stronger e o = true)

structure TellsApart : Prop where
  exact : ∀ e ∈ overloads, Exact currentModule arguments e →
    (∀ o ∈ overloads, Exact currentModule arguments o → o = e) →
      StandsOut E currentModule arguments overloads e
  refMut : ∀ u ∈ overloads, expectsRefMut u arguments = true → Viable E currentModule arguments u →
    (∃ a ∈ overloads, Viable E currentModule arguments a ∧ expectsRefMut a arguments = false) →
      ∃ a ∈ overloads, expectsRefMut a arguments = false ∧
        beats (candidateCost E currentModule arguments) stronger a u = true

section Outcomes

variable {E currentModule arguments overloads}

theorem stronger_irrefl (x : FunctionOverloadInfo) : stronger x x = false :=
  moreConstrained_strictlyOrders.irrefl _

theorem stronger_trans (x y z : FunctionOverloadInfo) (h : stronger x y = true)
    (h' : stronger y z = true) : stronger x z = true :=
  moreConstrained_strictlyOrders.trans _ _ _ h h'

def outcomeOf : List FunctionOverloadInfo → Outcome
  | [] => .noMatch
  | [x] => .selected x
  | _ => .ambiguous

theorem outcomeOf_eq_selected : outcomeOf xs = .selected x ↔ xs = [x] := by
  rcases xs with _ | ⟨y, _ | ⟨z, zs⟩⟩ <;> simp [outcomeOf]

theorem outcomeOf_perm {ys : List FunctionOverloadInfo} (h : xs.Perm ys) : outcomeOf xs = outcomeOf ys := by
  rcases xs with _ | ⟨x, _ | ⟨x', xs⟩⟩
  · rw [nil_perm.1 h]
  · rw [singleton_perm.1 h]
  · have hlength := h.length_eq
    rcases ys with _ | ⟨y, _ | ⟨y', ys⟩⟩
    · cases hlength
    · simp at hlength
    · rfl

theorem resolveCall_eq : resolveCall E currentModule overloads arguments =
    outcomeOf (bestOverloads E currentModule arguments overloads) := by
  have hleast := @cheapest_hasLeast _ (candidateCost E currentModule arguments) overloads
  have hnonempty : (cheapest (candidateCost E currentModule arguments) overloads).equallyGood ≠ [] →
      bestOverloads E currentModule arguments overloads ≠ [] := by
    intro hgood
    obtain ⟨x, hx⟩ := exists_mem_of_ne_nil _ hgood
    rw [hleast.equallyGood, mem_filter, Bool.and_eq_true] at hx
    by_cases hmem : x ∈ bestOverloads E currentModule arguments overloads
    · exact ne_nil_of_mem hmem
    · obtain ⟨y, hy, -⟩ := exists_best_beats stronger_irrefl stronger_trans hx.1 hx.2.1 hmem
      exact ne_nil_of_mem hy
  unfold bestOverloads best at *
  unfold resolveCall
  generalize (cheapest (candidateCost E currentModule arguments) overloads).equallyGood = good at *
  rcases good with _ | ⟨x, _ | ⟨y, zs⟩⟩
  · rfl
  · simp [undominated, stronger_irrefl, outcomeOf]
  · rw [if_pos (by simp)]
    have hne := hnonempty (cons_ne_nil _ _)
    revert hne
    rcases undominated stronger (x :: y :: zs) with _ | ⟨u, _ | ⟨v, vs⟩⟩ <;> intro hne
    · exact (hne rfl).elim
    · rfl
    · rfl

theorem bestOverloads_sublist :
    List.Sublist (bestOverloads E currentModule arguments overloads) overloads := by
  rw [bestOverloads, best_eq_filter]
  exact filter_sublist

theorem beats_of_selected {s : FunctionOverloadInfo}
    (h : resolveCall E currentModule overloads arguments = .selected s) {o : FunctionOverloadInfo}
    (ho : o ∈ overloads) (hviable : Viable E currentModule arguments o) (hne : o ≠ s) :
    beats (candidateCost E currentModule arguments) stronger s o = true := by
  rw [resolveCall_eq, outcomeOf_eq_selected] at h
  have hnot : o ∉ bestOverloads E currentModule arguments overloads := by
    rw [h, mem_singleton]
    exact hne
  obtain ⟨y, hy, hbeats⟩ := exists_best_beats stronger_irrefl stronger_trans ho hviable hnot
  rw [show best (candidateCost E currentModule arguments) stronger overloads = [s] from h,
    mem_singleton] at hy
  rwa [hy] at hbeats

theorem selected_of_beats (hnodup : overloads.Nodup) {e : FunctionOverloadInfo} (he : e ∈ overloads)
    (hviable : Viable E currentModule arguments e)
    (hbeats : ∀ o ∈ overloads, o ≠ e → Viable E currentModule arguments o →
      beats (candidateCost E currentModule arguments) stronger e o = true) :
    resolveCall E currentModule overloads arguments = .selected e := by
  have honly : ∀ x ∈ bestOverloads E currentModule arguments overloads, x = e := by
    intro x hx
    obtain ⟨hx, hxviable, hno⟩ := mem_best.1 hx
    by_contra hne
    exact Bool.false_ne_true ((hno e he).symm.trans (hbeats x hx hne hxviable))
  have hmem : e ∈ bestOverloads E currentModule arguments overloads := by
    by_contra hnot
    obtain ⟨y, hy, hbeaten⟩ := exists_best_beats stronger_irrefl stronger_trans he hviable hnot
    rw [← honly y hy] at hnot
    exact hnot hy
  rw [resolveCall_eq, outcomeOf_eq_selected]
  exact eq_singleton_of_nodup (bestOverloads_sublist.nodup hnodup) hmem honly

theorem beats_of_takesAsIs {e o : FunctionOverloadInfo} (he : TakesAsIs E currentModule arguments e)
    (ho : Viable E currentModule arguments o)
    (hstronger : TakesAsIs E currentModule arguments o → stronger e o = true) :
    beats (candidateCost E currentModule arguments) stronger e o = true := by
  have hzero := candidateCost_eq_zero.2 he
  obtain ⟨c, hc⟩ := isSome_iff_exists.1 ho
  rw [beats_iff]
  rcases Nat.eq_zero_or_pos c with rfl | hpos
  · exact ⟨0, 0, hzero, hc, .inr ⟨rfl, hstronger (candidateCost_eq_zero.1 hc)⟩⟩
  · exact ⟨0, c, hzero, hc, .inl hpos⟩

theorem stronger_of_beats {e o : FunctionOverloadInfo} (ho : TakesAsIs E currentModule arguments o)
    (h : beats (candidateCost E currentModule arguments) stronger e o = true) :
    stronger e o = true := by
  obtain ⟨c, d, hc, hd, hlt | ⟨-, hbetter⟩⟩ := beats_iff.1 h
  · obtain rfl := some.inj ((candidateCost_eq_zero.2 ho).symm.trans hd)
    exact absurd hlt (Nat.not_lt_zero c)
  · exact hbetter

theorem viable_of_takesAsIs {o : FunctionOverloadInfo} (ho : TakesAsIs E currentModule arguments o) :
    Viable E currentModule arguments o := by
  rw [Viable, candidateCost_eq_zero.2 ho]
  rfl

theorem viable_of_selected {s : FunctionOverloadInfo}
    (h : resolveCall E currentModule overloads arguments = .selected s) :
    Viable E currentModule arguments s := by
  have hbest : bestOverloads E currentModule arguments overloads = [s] :=
    outcomeOf_eq_selected.1 (resolveCall_eq.symm.trans h)
  have hmem : s ∈ bestOverloads E currentModule arguments overloads := by
    rw [hbest]
    exact mem_cons_self
  exact (mem_best.1 hmem).2.1

end Outcomes

def tables : TypeTables Unit := ⟨fun _ _ => .aggregate (), fun _ => (), fun _ _ => false⟩

def overload (type : TypeNode) : FunctionOverloadInfo := ⟨[type], false, true, [], false, []⟩

def localOf (kind : TypeKind) : Argument Unit :=
  ⟨.plain (.scalar kind), some (.scalar kind), none, .scalar (getLLVMType kind)⟩

variable {kind : TypeKind}

theorem exact_overload (h : Exact [] [localOf kind] (overload type)) : type = .scalar kind := by
  obtain ⟨-, h | ⟨h, -⟩⟩ := h
  exact h

theorem isKnown_localOf : IsKnown tables (localOf kind) :=
  ⟨fun _ _ h => (nomatch h), rfl, .inl rfl⟩

end Mlang.CallSelection
