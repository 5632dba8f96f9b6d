import Mlang.ConstraintSubsumption

namespace Mlang.ConstraintRanking

open Mangling (Name TypeNode)
open DisjunctiveTerms Concepts ConstraintSubsumption List

section Ranking

variable {α : Type} [DecidableEq α]

theorem implies_iff_refines (left right : Terms α) : implies left right = true ↔ Refines left right := by
  simp only [implies, Refines, all_eq_true, any_eq_true, decide_eq_true_eq, subset_def]

theorem moreConstrained_iff_stronger (left right : Candidate α) :
    moreConstrained left right = true ↔
      Stronger (left.genericOrigin, left.terms) (right.genericOrigin, right.terms) := by
  unfold moreConstrained Stronger
  rw [← implies_iff_refines, ← implies_iff_refines]
  cases left.genericOrigin <;> cases right.genericOrigin <;> simp

theorem implies_refl (terms : Terms α) : implies terms terms = true :=
  (implies_iff_refines terms terms).2 (refines_refl terms)

theorem implies_trans {left middle right : Terms α} (h : implies left middle = true)
    (h' : implies middle right = true) : implies left right = true :=
  (implies_iff_refines left right).2
    (((implies_iff_refines left middle).1 h).trans ((implies_iff_refines middle right).1 h'))

structure StrictlyOrders (better : Candidate α → Candidate α → Bool) : Prop where
  irrefl : ∀ a, better a a = false
  asymm : ∀ a b, better a b = true → better b a = false
  trans : ∀ a b c, better a b = true → better b c = true → better a c = true

theorem moreConstrained_strictlyOrders : StrictlyOrders (moreConstrained (α := α)) where
  irrefl a := by
    rw [← Bool.not_eq_true, moreConstrained_iff_stronger]
    exact stronger_irrefl _
  asymm a b h := by
    rw [← Bool.not_eq_true, moreConstrained_iff_stronger]
    exact ((moreConstrained_iff_stronger a b).1 h).asymm
  trans a b c h h' := by
    rw [moreConstrained_iff_stronger] at h h' ⊢
    exact h.trans h'

end Ranking

variable {C : Compiler} {f g : FunctionDef} {bindings bindings' : Types}

def BoundHasValue (C : Compiler) (f : FunctionDef) (bindings : Types) (type : TypeNode)
    (name : Path) : Prop :=
  ∀ definition, findConcept C name f.scope f.sourceModule = some definition →
    ∃ b isBool, evalDefinition C (outerContext C f bindings) definition [type] =
      some (.truth b isBool)

structure HaveValues (C : Compiler) (f : FunctionDef) (bindings : Types) : Prop where
  bounds : ∀ bound ∈ f.typeParamTraitBounds, ∀ type, bindings.lookup bound.1 = some type →
    ∀ name ∈ bound.2, BoundHasValue C f bindings type name
  clause : ∀ clause, f.requiresClause = some clause →
    ∃ b, evalExpression C 65 (outerContext C f bindings) clause = some (.truth b true)

theorem constraintsHold_of_noneFails (h : NoneFails C f bindings) (hvalues : HaveValues C f bindings) :
    ConstraintsHold C f bindings := by
  constructor
  · intro bound hbound type htype name hname
    have hno := h.bounds bound hbound type htype name hname
    have hvalue := hvalues.bounds bound hbound type htype name hname
    unfold BoundHolds
    unfold BoundFails at hno
    cases hfind : findConcept C name f.scope f.sourceModule with
    | some definition =>
      simp only [hfind] at hno ⊢
      obtain ⟨b, isBool, heval⟩ := hvalue definition hfind
      obtain rfl := evalDefinition_isBool heval
      cases b with
      | true => exact heval
      | false => exact absurd ⟨true, heval⟩ hno
    | none =>
      simp only [hfind] at hno ⊢
      exact eq_true_of_ne_false hno
  · intro clause hclause
    obtain ⟨b, heval⟩ := hvalues.clause clause hclause
    cases b with
    | true => exact heval
    | false => exact absurd heval (h.clause clause hclause true)

/-- Where names keep their meanings and keys tell truth values apart, the normal form of satisfied
constraints is true, and what it implies are constraints that hold too. -/
theorem satisfiesFunctionConstraints_subsumption_sound (hf : NamesKeepMeaning C f bindings)
    (hg : NamesKeepMeaning C g bindings')
    (hkeys : KeysDetermine (functionReadings C f bindings ++ functionReadings C g bindings')) :
    (∀ t, satisfiesFunctionConstraints C f bindings = some t →
      normalForm C f bindings = some t ∧ (∃ v, Reads v (functionReadings C f bindings)) ∧
      ∀ v, Reads v (functionReadings C f bindings) →
        Holds v t ∧ (Holds v t ↔ ConstraintsHold C f bindings)) ∧
    (∀ l r, satisfiesFunctionConstraints C f bindings = some l →
      normalForm C g bindings' = some r → implies l r = true → HaveValues C g bindings' →
        ConstraintsHold C g bindings') ∧ (∀ terms : Terms Atom, implies terms terms = true) ∧
    (∀ a b c : Terms Atom, implies a b = true → implies b c = true → implies a c = true) ∧
    StrictlyOrders (moreConstrained (α := Atom)) ∧
    ∀ cs cs' : List (Candidate Atom), cs.Perm cs' →
      (undominated moreConstrained cs).Perm (undominated moreConstrained cs') := by
  obtain ⟨v₀, hv₀⟩ := exists_reads hkeys
  rw [reads_append] at hv₀
  refine ⟨fun t ht => ?_, fun l r hl hr himplies hvalues => ?_, implies_refl,
    fun _ _ _ h h' => implies_trans h h', moreConstrained_strictlyOrders,
    fun _ _ h => undominated_perm moreConstrained h⟩
  · obtain ⟨hholds, hnormal⟩ := satisfiesFunctionConstraints_eq_some hf.bounds ht
    refine ⟨hnormal, ⟨v₀, hv₀.1⟩, fun v hv => ?_⟩
    have htrue := (holds_normalForm hf hv hnormal).1 hholds
    exact ⟨htrue, fun _ => hholds, fun _ => htrue⟩
  · obtain ⟨hholds, hnormal⟩ := satisfiesFunctionConstraints_eq_some hf.bounds hl
    have hleft := (holds_normalForm hf hv₀.1 hnormal).1 hholds
    have hright := ((implies_iff_refines l r).1 himplies).holds hleft
    exact constraintsHold_of_noneFails ((holds_normalForm hg hv₀.2 hr).2 hright) hvalues

def int : TypeNode := .scalar .int

def types : Types := [(['T'], int)]

/-- A program with a concept that all types fulfil, and a module with one of the same name that none
does. -/
def twoConcepts : Compiler where
  conceptDefinitions name :=
    if name = [['C']] then some ⟨[['C']], [['T']], .other 1, true, []⟩ else none
  moduleConcepts name :=
    if name = [['m']] then some [⟨[['C']], [['T']], .other 2, true, [['m']]⟩] else none
  resolveTypeAlias type := type
  isKnownRequirementType _ := true
  canonicalConstexprTypeName _ := ['i']
  typeFromText _ := int
  evalOther id _ _ := some (.truth (id != 2) true)
  validateTraitBound _ _ := false

/-- `where T: C && …` -/
def boundedTwice : FunctionDef := ⟨[['f']], [], [(['T'], [[['C']]])], some (.other 3)⟩

/-- `where T: C` -/
def bounded : FunctionDef := ⟨[['f']], [], [(['T'], [[['C']]])], none⟩

/-- `where T: m::C` -/
def boundedElsewhere : FunctionDef := ⟨[['f']], [], [(['T'], [[['m'], ['C']]])], none⟩

theorem twoConcepts_namesKeepMeaning {f : FunctionDef} (hscope : f.scope = [])
    (hmodule : f.sourceModule = []) (hbounds : f.typeParamTraitBounds = [(['T'], [[['C']]])]) :
    NamesKeepMeaning twoConcepts f types := by
  have hlookup : SameLookup twoConcepts f.sourceModule :=
    hmodule ▸ sameLookup_of_inTable fun ds hds => nomatch hds
  refine ⟨?_, fun clause _ => hlookup.keepsMeaning _ _ _ _⟩
  rw [hbounds]
  intro bound hbound type htype name hname
  refine ⟨fun definition hd => ?_, fun definition _ => hlookup.keepsMeaning _ _ _ _⟩
  obtain rfl := mem_singleton.1 hbound
  obtain rfl := mem_singleton.1 hname
  rw [hscope, hmodule] at hd ⊢
  cases hd
  rfl

theorem bounded_of_boundedTwice : ConstraintsHold twoConcepts bounded types := by
  have hreadings : functionReadings twoConcepts boundedTwice types ++
      functionReadings twoConcepts bounded types =
        [(.node 1 [(['T'], ['i'])], true), (.node 3 [(['T'], ['i'])], true),
          (.node 1 [(['T'], ['i'])], true)] := by decide
  have hkeys : KeysDetermine (functionReadings twoConcepts boundedTwice types ++
      functionReadings twoConcepts bounded types) := by
    rw [hreadings]
    intro a b b' h h'
    simp only [mem_cons, Prod.mk.injEq, not_mem_nil, or_false] at h h'
    rcases h with ⟨-, rfl⟩ | ⟨-, rfl⟩ | ⟨-, rfl⟩ <;> rcases h' with ⟨-, rfl⟩ | ⟨-, rfl⟩ | ⟨-, rfl⟩ <;>
      rfl
  refine (satisfiesFunctionConstraints_subsumption_sound
    (twoConcepts_namesKeepMeaning rfl rfl rfl) (twoConcepts_namesKeepMeaning rfl rfl rfl)
    hkeys).2.1 [[.node 1 [(['T'], ['i'])], .node 3 [(['T'], ['i'])]]] [[.node 1 [(['T'], ['i'])]]]
    (by decide) (by decide) (by decide) ⟨?_, fun clause h => nomatch h⟩
  intro bound hbound type htype name hname definition hd
  obtain rfl := mem_singleton.1 hbound
  obtain rfl := mem_singleton.1 hname
  cases hd
  exact ⟨true, true, rfl⟩

theorem boundedElsewhere_satisfied :
    satisfiesFunctionConstraints twoConcepts boundedElsewhere types =
        some [[.node 1 [(['T'], ['i'])]]] ∧ ¬ConstraintsHold twoConcepts boundedElsewhere types := by
  refine ⟨by decide, fun h => ?_⟩
  have hholds := h.bounds _ mem_cons_self int rfl _ mem_cons_self
  have hfalse : evalDefinition twoConcepts (outerContext twoConcepts boundedElsewhere types)
      ⟨[['C']], [['T']], .other 2, true, [['m']]⟩ [int] = some (.truth false true) := by decide
  exact absurd (hfalse.symm.trans hholds) (by decide)

end Mlang.ConstraintRanking
