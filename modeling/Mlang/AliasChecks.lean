import Mlang.AliasExpansion

namespace Mlang.AliasChecks

open Mangling Monomorphization Expansions TypeTraversals TypeAliases AliasScopes AliasExpansion List
open BracketedText (Text)
open Relation (ReflTransGen)
open Reporting

/-! The checks of trait bounds in an expansion. The pass resolves an argument once more before it
looks at a bound, with no alias being expanded. Where a cycle left an alias in the argument, that
leads back into the expansion of the alias. -/

section Checks

variable (unsatisfied : Name → Name → Text → TypeNode → TypeNode → Option Text) (ctx : Context)

structure Applies (n : Name) (args : List TypeNode) (d : Declaration) : Prop where
  reading : ctx.reading n = .alias d
  generic : d.info.typeParams ≠ []
  length : args.length = d.info.typeParams.length

/-- No alias is left to be expanded: one that is named is not applied as it is declared, or a bound
is missed. -/
structure AtRest (t : TypeNode) : Prop where
  name : ∀ n d, Within (.structRef n) t → ctx.reading n = .alias d → d.info.typeParams ≠ []
  application : ∀ n args d, Within (.genericStruct n args) t → Applies ctx n args d →
    boundsHold unsatisfied ctx d.info n d.info.typeParams args = false

variable (info : TypeAliasInfo) (ownerName : Name)

/-- The argument `a` for `p` is checked against `bound`. -/
def Checks (p : Name) (a : TypeNode) (bound : Text) : Prop :=
  info.typeParamTraitBounds.lookup p = some bound ∧
    ¬(bound = [] ∨ containsScopedTypeParam ctx.kept a)

/- What the check of an argument that is not at rest comes to is left open: it may pass and miss. -/
def Passes (p : Name) (a : TypeNode) : Prop :=
  ∀ bound, Checks ctx info p a bound → AtRest unsatisfied ctx a →
    unsatisfied ownerName p bound a a = none

def Misses (p : Name) (a : TypeNode) : Prop :=
  ∃ bound, Checks ctx info p a bound ∧
    (AtRest unsatisfied ctx a → unsatisfied ownerName p bound a a ≠ none)

/-- The verdict on the arguments of an alias. -/
inductive Judged : List Name → List TypeNode → Bool → Prop
  | done {args : List TypeNode} : Judged [] args true
  | short {params : List Name} : Judged params [] true
  | pass {p : Name} {params : List Name} {a : TypeNode} {args : List TypeNode} {valid : Bool}
      (hpass : Passes unsatisfied ctx info ownerName p a) (hrest : Judged params args valid) :
      Judged (p :: params) (a :: args) valid
  | miss {p : Name} {params : List Name} {a : TypeNode} {args : List TypeNode}
      (hmiss : Misses unsatisfied ctx info ownerName p a) : Judged (p :: params) (a :: args) false

/-- The check of the arguments comes to `b`. -/
inductive Checked (b : TypeNode) : List Name → List TypeNode → Prop
  | here {p : Name} {params : List Name} {args : List TypeNode} {bound : Text}
      (hcheck : Checks ctx info p b bound) : Checked b (p :: params) (b :: args)
  | later {p : Name} {params : List Name} {a : TypeNode} {args : List TypeNode}
      (hpass : Passes unsatisfied ctx info ownerName p a) (hrest : Checked b params args) :
      Checked b (p :: params) (a :: args)

mutual

/-- What a type expands to below the aliases of `path`. These are left as they are, and so is an
alias that is not applied as it is declared, or against a bound. -/
inductive ExpandsTo : List Declaration → TypeNode → TypeNode → Prop
  | name {path : List Declaration} {n : Name}
      (hleft : ∀ d, ctx.reading n = .alias d → d.info.typeParams = [] → d ∈ path) :
      ExpandsTo path (.structRef n) (.structRef n)
  | definition {path : List Declaration} {n : Name} {d : Declaration} {r : TypeNode}
      (hread : ctx.reading n = .alias d) (hparams : d.info.typeParams = []) (hpath : d ∉ path)
      (hbody : ExpandsTo (d :: path) d.info.aliasedType r) : ExpandsTo path (.structRef n) r
  | generic {path : List Declaration} {n : Name} {ts rs : List TypeNode}
      (hargs : ExpandAll path ts rs)
      (hleft : ∀ d, Applies ctx n rs d →
        Judged unsatisfied ctx d.info n d.info.typeParams rs false ∨ d ∈ path) :
      ExpandsTo path (.genericStruct n ts) (.genericStruct n rs)
  | application {path : List Declaration} {n : Name} {ts rs : List TypeNode} {d : Declaration}
      {r : TypeNode} (hargs : ExpandAll path ts rs) (happlies : Applies ctx n rs d)
      (hholds : Judged unsatisfied ctx d.info n d.info.typeParams rs true) (hpath : d ∉ path)
      (hbody : ExpandsTo (d :: path)
        (substituteTypeParams d.info.typeParams rs d.info.aliasedType) r) :
      ExpandsTo path (.genericStruct n ts) r
  | node {path : List Declaration} {t : TypeNode} {rs : List TypeNode} (hnode : IsNode t)
      (hchildren : ExpandAll path (children t) rs) : ExpandsTo path t (withChildren t rs)

inductive ExpandAll : List Declaration → List TypeNode → List TypeNode → Prop
  | nil {path : List Declaration} : ExpandAll path [] []
  | cons {path : List Declaration} {t r : TypeNode} {ts rs : List TypeNode}
      (hhead : ExpandsTo path t r) (htail : ExpandAll path ts rs) :
      ExpandAll path (t :: ts) (r :: rs)

end

/-- The expansion of a type, below the aliases of a path, goes on with another. -/
inductive Leads : List Declaration × TypeNode → List Declaration × TypeNode → Prop
  | child {path : List Declaration} {t c : TypeNode} (hc : c ∈ children t) :
      Leads (path, t) (path, c)
  | definition {path : List Declaration} {n : Name} {d : Declaration}
      (hread : ctx.reading n = .alias d) (hparams : d.info.typeParams = []) (hpath : d ∉ path) :
      Leads (path, .structRef n) (d :: path, d.info.aliasedType)
  | application {path : List Declaration} {n : Name} {ts rs : List TypeNode} {d : Declaration}
      (hargs : ExpandAll unsatisfied ctx path ts rs) (happlies : Applies ctx n rs d)
      (hholds : Judged unsatisfied ctx d.info n d.info.typeParams rs true) (hpath : d ∉ path) :
      Leads (path, .genericStruct n ts)
        (d :: path, substituteTypeParams d.info.typeParams rs d.info.aliasedType)

variable (s : List Declaration × TypeNode)

/-- The expansion comes to `n<ts>`, an application of `d`, and `ts` expand to `rs`. -/
structure Reaches (path : List Declaration) (n : Name) (ts rs : List TypeNode) (d : Declaration) :
    Prop where
  leads : ReflTransGen (Leads unsatisfied ctx) s (path, .genericStruct n ts)
  args : ExpandAll unsatisfied ctx path ts rs
  applies : Applies ctx n rs d

/-- In the expansion, the argument `a` is resolved once more for a bound. -/
def Rechecks (a : TypeNode) : Prop :=
  ∃ path n ts rs d, Reaches unsatisfied ctx s path n ts rs d ∧
    Checked unsatisfied ctx d.info n a d.info.typeParams rs

def Circular (path : List Declaration) (t : TypeNode) : Prop :=
  ∃ d, Uses ctx [] t d ∧ Repeats BodyUses path d

/-- Where an application misses a bound, and the alias would have come to a cycle, an argument of
it comes to one. -/
def Shows : Prop :=
  ∀ path n ts rs d, Reaches unsatisfied ctx s path n ts rs d →
    Judged unsatisfied ctx d.info n d.info.typeParams rs false → Repeats BodyUses path d →
      ∃ t ∈ ts, Circular ctx path t

/-- No chain of arguments, each of them checked in the expansion of the one before, is endless, and
no bound that is missed hides a cycle. -/
structure BoundsEnd (t : TypeNode) : Prop where
  ends : Acc (fun a t => Rechecks unsatisfied ctx ([], t) a) t
  shows : Shows unsatisfied ctx ([], t)

def BoundsApart (t : TypeNode) : Prop := CyclicExpansion ctx t → BoundsEnd unsatisfied ctx t

end Checks

variable {unsatisfied : Name → Name → Text → TypeNode → TypeNode → Option Text}
  {ctx place : Context} {path : List Declaration} {params : List Name} {args : List TypeNode}
  {fuel : Nat} {stack : List Name} {t r a c : TypeNode} {ts rs : List TypeNode}
  {reports reports' : List Report} {n p : Name} {d e : Declaration} {info : TypeAliasInfo}
  {ownerName : Name} {bound : Text} {valid : Bool} {s : List Declaration × TypeNode}

theorem AtRest.child (h : AtRest unsatisfied ctx t) (hc : c ∈ children t) :
    AtRest unsatisfied ctx c where
  name n d hin := h.name n d (.inside hc hin)
  application n args d hin := h.application n args d (.inside hc hin)

theorem settled_of_atRest (h : AtRest unsatisfied ctx t) : Settled unsatisfied ctx t := by
  induction t using induction_children with
  | name n => exact settled_structRef fun d hd => h.name n d .here hd
  | generic n ts ih =>
    refine settled_genericStruct (fun a ha => ih a ha (h.child (t := .genericStruct n ts) ha)) ?_
    exact fun d hread hparams hlen => h.application n ts d .here ⟨hread, hparams, hlen⟩
  | node t ht ih => exact settled_node ht fun c hc => ih c hc (h.child hc)

/-- What is resolved once more stays as it is, where it is at rest. -/
theorem passes_of_resolved (hr : (resolveIn unsatisfied ctx fuel stack a).Returns r reports)
    (hcheck : Checks ctx info p a bound)
    (hok : containsScopedTypeParam ctx.kept r = false → unsatisfied ownerName p bound a r = none) :
    Passes unsatisfied ctx info ownerName p a := by
  rintro bound' ⟨hbound', hnot⟩ hrest
  obtain rfl := Option.some.inj (hcheck.1.symm.trans hbound')
  obtain ⟨rfl, -⟩ := (settled_of_atRest hrest).eq hr
  exact hok (Bool.eq_false_iff.2 (not_or.1 hnot).2)

theorem misses_of_resolved (hr : (resolveIn unsatisfied ctx fuel stack a).Returns r reports)
    (hcheck : Checks ctx info p a bound) (hmiss : unsatisfied ownerName p bound a r ≠ none) :
    Misses unsatisfied ctx info ownerName p a := by
  refine ⟨bound, hcheck, fun hrest => ?_⟩
  obtain ⟨rfl, -⟩ := (settled_of_atRest hrest).eq hr
  exact hmiss

theorem passes_of_unchecked (h : ∀ bound, ¬Checks ctx info p a bound) :
    Passes unsatisfied ctx info ownerName p a := fun bound hcheck => absurd hcheck (h bound)

/-- One round of the loop of checks. -/
theorem validateBounds_cons {resolve : TypeNode → Reporting Report TypeNode} {ps : List Name}
    {as : List TypeNode} (hcheck : Checks ctx info p a bound) :
    validateBounds ctx.kept unsatisfied resolve info.typeParamTraitBounds ownerName (p :: ps)
      (a :: as) = resolve a >>= fun r =>
        if containsScopedTypeParam ctx.kept r then
          validateBounds ctx.kept unsatisfied resolve info.typeParamTraitBounds ownerName ps as
        else
          match unsatisfied ownerName p bound a r with
          | some message => Reporting.report (.boundNotSatisfied message) >>= fun _ => pure false
          | none =>
            validateBounds ctx.kept unsatisfied resolve info.typeParamTraitBounds ownerName ps as := by
  rw [validateBounds, hcheck.1]
  exact if_neg hcheck.2

theorem validateBounds_unchecked {resolve : TypeNode → Reporting Report TypeNode} {ps : List Name}
    {as : List TypeNode} (h : ∀ bound, ¬Checks ctx info p a bound) :
    validateBounds ctx.kept unsatisfied resolve info.typeParamTraitBounds ownerName (p :: ps)
      (a :: as) =
        validateBounds ctx.kept unsatisfied resolve info.typeParamTraitBounds ownerName ps as := by
  rw [validateBounds]
  rcases hb : info.typeParamTraitBounds.lookup p with _ | bound
  · rfl
  · exact if_pos (not_not.1 fun hnot => h bound ⟨hb, hnot⟩)

theorem judged_of_returns {ps : List Name} {as : List TypeNode}
    (h : (validateBounds ctx.kept unsatisfied (resolveIn unsatisfied ctx fuel [])
      info.typeParamTraitBounds ownerName ps as).Returns valid reports) :
    Judged unsatisfied ctx info ownerName ps as valid := by
  induction ps generalizing as reports with
  | nil =>
    obtain ⟨rfl, -⟩ := returns_pure.1 h
    exact .done
  | cons p ps ih =>
    rcases as with _ | ⟨a, as⟩
    · obtain ⟨rfl, -⟩ := returns_pure.1 h
      exact .short
    · by_cases hcheck : ∃ bound, Checks ctx info p a bound
      · obtain ⟨bound, hcheck⟩ := hcheck
        rw [validateBounds_cons hcheck] at h
        obtain ⟨r, r₁, r₂, hr, hrest, -⟩ := returns_bind.1 h
        split at hrest
        next hscoped =>
          exact .pass (passes_of_resolved hr hcheck fun hnot => absurd hscoped
            (Bool.eq_false_iff.1 hnot)) (ih hrest)
        next =>
          rcases hunsat : unsatisfied ownerName p bound a r with _ | message
          · rw [hunsat] at hrest
            exact .pass (passes_of_resolved hr hcheck fun _ => hunsat) (ih hrest)
          · rw [hunsat] at hrest
            obtain ⟨rfl, -⟩ := returns_reported.1 hrest
            exact .miss (misses_of_resolved hr hcheck (hunsat ▸ Option.some_ne_none message))
      · rw [not_exists] at hcheck
        rw [validateBounds_unchecked hcheck] at h
        exact .pass (passes_of_unchecked hcheck) (ih h)

theorem expandAll_of_each
    (h : ∀ t ∈ ts, ∀ r reports, (resolveIn unsatisfied ctx fuel stack t).Returns r reports →
      ExpandsTo unsatisfied ctx path t r)
    (hrs : (each (resolveIn unsatisfied ctx fuel stack) ts).Returns rs reports) :
    ExpandAll unsatisfied ctx path ts rs := by
  induction ts generalizing rs reports with
  | nil =>
    obtain ⟨rfl, -⟩ := returns_pure.1 hrs
    exact .nil
  | cons t ts ih =>
    obtain ⟨hhead, htail⟩ := forall_mem_cons.1 h
    obtain ⟨r, r₁, _, hr, hrest, -⟩ := returns_bind.1 hrs
    obtain ⟨rs, r₂, _, hlater, hdone, -⟩ := returns_bind.1 hrest
    obtain ⟨rfl, -⟩ := returns_pure.1 hdone
    exact .cons (hhead r r₁ hr) (ih htail hlater)

/-- What the pass returns is what the type expands to. -/
theorem expandsTo_of_returns (hpath : ∀ d ∈ path, ctx.env.lookup d.name = some d)
    (h : (resolveIn unsatisfied ctx fuel (path.map Declaration.name) t).Returns r reports) :
    ExpandsTo unsatisfied ctx path t r := by
  induction fuel generalizing path t r reports with
  | zero => cases h
  | succ fuel ih =>
  induction t using induction_children generalizing r reports with
  | name n =>
    rw [resolveIn, resolveTypeAliasNode, rebuild] at h
    rcases hread : ctx.reading n with e | d
    · rw [resolveStructRef_entity hread] at h
      obtain ⟨rfl, -⟩ := returns_pure.1 h
      exact .name fun d hd => Reading.noConfusion (hread.symm.trans hd)
    · by_cases hparams : d.info.typeParams = []
      · rw [resolveStructRef_alias hread hparams] at h
        split at h
        next hstack =>
          obtain ⟨rfl, -⟩ := returns_reported.1 h
          refine .name fun d' hd' _ => ?_
          obtain rfl := Reading.alias.inj (hread.symm.trans hd')
          exact (name_mem_path_iff hpath hread).1 hstack
        next hstack =>
          exact .definition hread hparams (fun hmem => hstack ((name_mem_path_iff hpath hread).2 hmem))
            (ih (path_lookup hpath hread) h)
      · rw [resolveStructRef_generic hread hparams] at h
        obtain ⟨rfl, -⟩ := returns_reported.1 h
        refine .name fun d' hd' hparams' => absurd hparams' ?_
        rwa [← Reading.alias.inj (hread.symm.trans hd')]
  | generic n ts iht =>
    rw [resolveIn_genericStruct] at h
    obtain ⟨rs, r₁, r₂, hrs, hr, -⟩ := returns_bind.1 h
    have hargs : ExpandAll unsatisfied ctx path ts rs := expandAll_of_each iht hrs
    rcases hread : ctx.reading n with e | d
    · rw [resolveGenericStruct_entity hread] at hr
      obtain ⟨rfl, -⟩ := returns_pure.1 hr
      exact .generic hargs fun d happlies => Reading.noConfusion (hread.symm.trans happlies.reading)
    have honly : ∀ d', Applies ctx n rs d' → d' = d := fun d' happlies =>
      (Reading.alias.inj (hread.symm.trans happlies.reading)).symm
    by_cases hparams : d.info.typeParams = []
    · rw [resolveGenericStruct_plain hread hparams] at hr
      obtain ⟨rfl, -⟩ := returns_reported.1 hr
      exact .generic hargs fun d' happlies => absurd (honly d' happlies ▸ hparams) happlies.generic
    by_cases hlen : rs.length = d.info.typeParams.length
    · have happlies : Applies ctx n rs d := ⟨hread, hparams, hlen⟩
      rw [resolveGenericStruct_alias hread hparams hlen] at hr
      obtain ⟨valid, r₃, r₄, hvalid, hrest, -⟩ := returns_bind.1 hr
      have hjudged := judged_of_returns hvalid
      split at hrest
      next hfalse =>
        obtain ⟨rfl, -⟩ := returns_pure.1 hrest
        refine .generic hargs fun d' happlies' => .inl ?_
        obtain rfl := honly d' happlies'
        exact hfalse ▸ hjudged
      next htrue =>
        rw [Bool.not_eq_false] at htrue
        split at hrest
        next hstack =>
          obtain ⟨rfl, -⟩ := returns_reported.1 hrest
          refine .generic hargs fun d' happlies' => .inr ?_
          obtain rfl := honly d' happlies'
          exact (name_mem_path_iff hpath hread).1 hstack
        next hstack =>
          have hnot : d ∉ path := fun hmem => hstack ((name_mem_path_iff hpath hread).2 hmem)
          exact .application hargs happlies (htrue ▸ hjudged) hnot (ih (path_lookup hpath hread) hrest)
    · rw [resolveGenericStruct_length hread hparams hlen] at hr
      obtain ⟨rfl, -⟩ := returns_reported.1 hr
      exact .generic hargs fun d' happlies => absurd (honly d' happlies ▸ happlies.length) hlen
  | node t ht iht =>
    rw [resolveIn_node ht] at h
    obtain ⟨rs, r₁, r₂, hrs, hr, -⟩ := returns_bind.1 h
    obtain ⟨rfl, -⟩ := returns_pure.1 hr
    exact .node ht (expandAll_of_each iht hrs)

def remaining (ctx : Context) (stack : List Name) : Nat := (ctx.env.table.keys \ stack.toFinset).card

theorem remaining_lt (hread : ctx.reading n = .alias d) (hstack : d.name ∉ stack) :
    remaining ctx (d.name :: stack) < remaining ctx stack := by
  have hkey : d.name ∈ ctx.env.table.keys := by
    rw [Finmap.mem_keys, Finmap.mem_iff]
    refine ⟨d.info, ?_⟩
    rw [lookup_table, lookup_of_reading hread, Option.map_some]
  refine Finset.card_lt_card (Finset.ssubset_iff_of_subset ?_ |>.2 ⟨d.name, ?_, ?_⟩)
  · refine Finset.sdiff_subset_sdiff le_rfl fun x hx => ?_
    rw [mem_toFinset] at hx ⊢
    exact mem_cons_of_mem _ hx
  · rw [Finset.mem_sdiff, mem_toFinset]
    exact ⟨hkey, hstack⟩
  · rw [Finset.mem_sdiff, mem_toFinset]
    exact fun h => h.2 mem_cons_self

theorem exists_each_resolved
    (h : ∀ t ∈ ts, ∃ fuel r reports, (resolveIn unsatisfied ctx fuel stack t).Returns r reports) :
    ∃ fuel rs reports, (each (resolveIn unsatisfied ctx fuel stack) ts).Returns rs reports := by
  induction ts with
  | nil => exact ⟨0, [], [], rfl⟩
  | cons t ts ih =>
    obtain ⟨⟨fuel₁, r, r₁, hr⟩, hts⟩ := forall_mem_cons.1 h
    obtain ⟨fuel₂, rs, r₂, hrs⟩ := ih hts
    refine ⟨max fuel₁ fuel₂, r :: rs, r₁ ++ (r₂ ++ []), ?_⟩
    refine (resolveTypeAliasNode_below (le_max_left _ _) stack t r r₁ hr).bind ?_
    refine Returns.bind ?_ (returns_pure.2 ⟨rfl, rfl⟩)
    exact each_below (fun t _ => resolveTypeAliasNode_below (le_max_right _ _) stack t) rs r₂ hrs

theorem exists_generic (hargs : (each (resolveIn unsatisfied ctx fuel stack) ts).Returns rs reports)
    {fuel' : Nat} (h : (resolveGenericStruct unsatisfied ctx.env.table ctx.kept
      (resolveIn unsatisfied ctx fuel') stack n rs).Returns r reports') :
    ∃ fuel, (resolveIn unsatisfied ctx fuel stack (.genericStruct n ts)).Returns r
      (reports ++ reports') := by
  refine ⟨max fuel fuel' + 1, ?_⟩
  rw [resolveIn_genericStruct]
  refine Returns.bind (each_below (fun t _ =>
    resolveTypeAliasNode_below (by omega) stack t) rs reports hargs) ?_
  exact resolveGenericStruct_below (resolveTypeAliasNode_below (le_max_right fuel fuel')) stack n rs
    r reports' h

theorem exists_node (ht : IsNode t)
    (h : (each (resolveIn unsatisfied ctx fuel stack) (children t)).Returns rs reports) :
    ∃ fuel, (resolveIn unsatisfied ctx fuel stack t).Returns (withChildren t rs) reports := by
  refine ⟨fuel + 1, ?_⟩
  rw [resolveIn_node ht, ← append_nil reports]
  refine Returns.bind (each_below (fun t _ =>
    resolveTypeAliasNode_below (Nat.le_succ fuel) stack t) rs reports h) (returns_pure.2 ⟨rfl, rfl⟩)

/-- The checks of bounds return, where what they resolve once more is resolved. -/
theorem exists_validated {ps : List Name} {as : List TypeNode}
    (h : ∀ a, Checked unsatisfied ctx info ownerName a ps as →
      ∃ fuel r reports, (resolveIn unsatisfied ctx fuel [] a).Returns r reports) :
    ∃ fuel valid reports, (validateBounds ctx.kept unsatisfied (resolveIn unsatisfied ctx fuel [])
      info.typeParamTraitBounds ownerName ps as).Returns valid reports := by
  induction ps generalizing as with
  | nil => exact ⟨0, true, [], rfl⟩
  | cons p ps ih =>
  rcases as with _ | ⟨a, as⟩
  · exact ⟨0, true, [], rfl⟩
  have hlater : Passes unsatisfied ctx info ownerName p a → ∃ fuel valid reports,
      (validateBounds ctx.kept unsatisfied (resolveIn unsatisfied ctx fuel [])
        info.typeParamTraitBounds ownerName ps as).Returns valid reports := fun hpass =>
    ih fun b hb => h b (.later hpass hb)
  by_cases hcheck : ∃ bound, Checks ctx info p a bound
  · obtain ⟨bound, hcheck⟩ := hcheck
    obtain ⟨fuel₁, r, r₁, hr⟩ := h a (.here hcheck)
    by_cases hpass : containsScopedTypeParam ctx.kept r = false → unsatisfied ownerName p bound a r = none
    · obtain ⟨fuel₂, valid, r₂, hrest⟩ := hlater (passes_of_resolved hr hcheck hpass)
      refine ⟨max fuel₁ fuel₂, valid, r₁ ++ r₂, ?_⟩
      rw [validateBounds_cons hcheck]
      refine (resolveTypeAliasNode_below (le_max_left _ _) [] a r r₁ hr).bind ?_
      have hrest' := validateBounds_below (resolveTypeAliasNode_below (le_max_right fuel₁ fuel₂) [])
        info.typeParamTraitBounds ownerName ps as valid r₂ hrest
      split
      next => exact hrest'
      next hscoped =>
        rw [hpass (Bool.eq_false_iff.2 hscoped)]
        exact hrest'
    · obtain ⟨hscoped, hunsat⟩ := Classical.not_imp.1 hpass
      obtain ⟨message, hmessage⟩ := Option.ne_none_iff_exists'.1 hunsat
      refine ⟨fuel₁, false, r₁ ++ [.boundNotSatisfied message], ?_⟩
      rw [validateBounds_cons hcheck]
      refine hr.bind ?_
      rw [if_neg (Bool.eq_false_iff.1 hscoped), hmessage]
      exact returns_reported.2 ⟨rfl, rfl⟩
  · rw [not_exists] at hcheck
    obtain ⟨fuel, valid, reports, hrest⟩ := hlater (passes_of_unchecked hcheck)
    refine ⟨fuel, valid, reports, ?_⟩
    rwa [validateBounds_unchecked hcheck]

theorem Reaches.of_leads {s' : List Declaration × TypeNode} (hs : Leads unsatisfied ctx s s')
    (h : Reaches unsatisfied ctx s' path n ts rs d) : Reaches unsatisfied ctx s path n ts rs d :=
  ⟨h.leads.head hs, h.args, h.applies⟩

theorem Rechecks.of_leads {s' : List Declaration × TypeNode} (hs : Leads unsatisfied ctx s s')
    (h : Rechecks unsatisfied ctx s' a) : Rechecks unsatisfied ctx s a := by
  obtain ⟨path, n, ts, rs, d, hreaches, hchecked⟩ := h
  exact ⟨path, n, ts, rs, d, hreaches.of_leads hs, hchecked⟩

theorem Shows.of_leads {s' : List Declaration × TypeNode} (hs : Leads unsatisfied ctx s s')
    (h : Shows unsatisfied ctx s) : Shows unsatisfied ctx s' :=
  fun path n ts rs d hreaches => h path n ts rs d (hreaches.of_leads hs)

/-- A type is resolved, where the arguments that are checked on the way are. -/
theorem exists_resolved_of_rechecks (hpath : ∀ d ∈ path, ctx.env.lookup d.name = some d)
    (h : ∀ a, Rechecks unsatisfied ctx (path, t) a →
      ∃ fuel r reports, (resolveIn unsatisfied ctx fuel [] a).Returns r reports) :
    ∃ fuel r reports,
      (resolveIn unsatisfied ctx fuel (path.map Declaration.name) t).Returns r reports := by
  induction hk : remaining ctx (path.map Declaration.name) using Nat.strong_induction_on
    generalizing path t with
  | _ k ihk =>
  induction t using induction_children with
  | name n =>
    rcases hread : ctx.reading n with e | d
    · refine ⟨1, .structRef n, [], ?_⟩
      rw [resolveIn, resolveTypeAliasNode, rebuild, resolveStructRef_entity hread]
      exact returns_pure.2 ⟨rfl, rfl⟩
    by_cases hparams : d.info.typeParams = []
    · by_cases hstack : d.name ∈ path.map Declaration.name
      · refine ⟨1, .structRef n, [.cyclic n], ?_⟩
        rw [resolveIn, resolveTypeAliasNode, rebuild, resolveStructRef_alias hread hparams,
          if_pos hstack]
        exact returns_reported.2 ⟨rfl, rfl⟩
      · have hnot : d ∉ path := fun hmem => hstack ((name_mem_path_iff hpath hread).2 hmem)
        obtain ⟨fuel, r, reports, hr⟩ := ihk _ (hk ▸ remaining_lt hread hstack) (path_lookup hpath hread)
          (fun a ha => h a (ha.of_leads (.definition hread hparams hnot))) rfl
        refine ⟨fuel + 1, r, reports, ?_⟩
        rw [resolveIn, resolveTypeAliasNode, rebuild, resolveStructRef_alias hread hparams,
          if_neg hstack]
        exact hr
    · refine ⟨1, .structRef n, [.requiresTypeArguments n], ?_⟩
      rw [resolveIn, resolveTypeAliasNode, rebuild, resolveStructRef_generic hread hparams]
      exact returns_reported.2 ⟨rfl, rfl⟩
  | generic n ts ih =>
    obtain ⟨fuel, rs, reports, hrs⟩ := exists_each_resolved fun t ht => ih t ht fun a ha =>
      h a (ha.of_leads (.child (t := .genericStruct n ts) ht))
    have hargs : ExpandAll unsatisfied ctx path ts rs :=
      expandAll_of_each (fun t _ r reports hr => expandsTo_of_returns hpath hr) hrs
    suffices happly : ∃ fuel r reports, (resolveGenericStruct unsatisfied ctx.env.table ctx.kept
        (resolveIn unsatisfied ctx fuel) (path.map Declaration.name) n rs).Returns r reports by
      obtain ⟨fuel', r, reports', happly⟩ := happly
      obtain ⟨fuel, hr⟩ := exists_generic hrs happly
      exact ⟨fuel, r, _, hr⟩
    rcases hread : ctx.reading n with e | d
    · refine ⟨0, .genericStruct n rs, [], ?_⟩
      rw [resolveGenericStruct_entity hread]
      exact returns_pure.2 ⟨rfl, rfl⟩
    by_cases hparams : d.info.typeParams = []
    · refine ⟨0, .genericStruct n rs, [.takesNoTypeArguments n], ?_⟩
      rw [resolveGenericStruct_plain hread hparams]
      exact returns_reported.2 ⟨rfl, rfl⟩
    by_cases hlen : rs.length = d.info.typeParams.length
    · have happlies : Applies ctx n rs d := ⟨hread, hparams, hlen⟩
      obtain ⟨fuel₁, valid, r₁, hvalid⟩ := exists_validated fun a ha =>
        h a ⟨path, n, ts, rs, d, ⟨.refl, hargs, happlies⟩, ha⟩
      cases valid with
      | false =>
        refine ⟨fuel₁, .genericStruct n rs, r₁ ++ [], ?_⟩
        rw [resolveGenericStruct_alias hread hparams hlen]
        exact hvalid.bind (returns_pure.2 ⟨rfl, rfl⟩)
      | true =>
        by_cases hstack : d.name ∈ path.map Declaration.name
        · refine ⟨fuel₁, .genericStruct n rs, r₁ ++ [.cyclic n], ?_⟩
          rw [resolveGenericStruct_alias hread hparams hlen]
          refine hvalid.bind ?_
          rw [if_neg Bool.noConfusion, if_pos hstack]
          exact returns_reported.2 ⟨rfl, rfl⟩
        · have hnot : d ∉ path := fun hmem => hstack ((name_mem_path_iff hpath hread).2 hmem)
          obtain ⟨fuel₂, r, r₂, hr⟩ := ihk _ (hk ▸ remaining_lt hread hstack) (path_lookup hpath hread)
            (fun a ha => h a
              (ha.of_leads (.application hargs happlies (judged_of_returns hvalid) hnot))) rfl
          refine ⟨max fuel₁ fuel₂, r, r₁ ++ r₂, ?_⟩
          rw [resolveGenericStruct_alias hread hparams hlen]
          refine (validateBounds_below (resolveTypeAliasNode_below (le_max_left fuel₁ fuel₂) [])
            _ n _ rs true r₁ hvalid).bind ?_
          rw [if_neg Bool.noConfusion, if_neg hstack]
          exact resolveTypeAliasNode_below (le_max_right fuel₁ fuel₂) _ _ r r₂ hr
    · refine ⟨0, .genericStruct n rs, [.wrongNumber n d.info.typeParams.length rs.length], ?_⟩
      rw [resolveGenericStruct_length hread hparams hlen]
      exact returns_reported.2 ⟨rfl, rfl⟩
  | node t ht ih =>
    obtain ⟨fuel, rs, reports, hrs⟩ := exists_each_resolved fun c hc => ih c hc fun a ha =>
      h a (ha.of_leads (.child hc))
    obtain ⟨fuel, hr⟩ := exists_node ht hrs
    exact ⟨fuel, _, reports, hr⟩

/-- By induction on the chain of checks. -/
theorem exists_resolved_of_acc (h : Acc (fun a t => Rechecks unsatisfied ctx ([], t) a) t) :
    ∃ fuel r reports, (resolveIn unsatisfied ctx fuel [] t).Returns r reports := by
  induction h with
  | intro t _ ih =>
    have hpath : ∀ d ∈ ([] : List Declaration), ctx.env.lookup d.name = some d := fun d hd => nomatch hd
    exact exists_resolved_of_rechecks hpath ih

theorem ExpandAll.length (h : ExpandAll unsatisfied ctx path ts rs) : rs.length = ts.length := by
  induction ts generalizing rs with
  | nil =>
    cases h
    rfl
  | cons t ts ih =>
    cases h with
    | cons _ htail => rw [length_cons, length_cons, ih htail]

theorem expands_child (hc : c ∈ children t) (h : Expands ctx c d) : Expands ctx t d := by
  obtain ⟨e, he, hreach⟩ := h
  exact ⟨e, he.child hc, hreach⟩

theorem NoCapture.child (h : NoCapture ctx t) (hc : c ∈ children t) : NoCapture ctx c :=
  fun d hd => h d (expands_child hc hd)

theorem expands_node (ht : IsNode t) (h : Expands ctx t d) : ∃ c ∈ children t, Expands ctx c d := by
  obtain ⟨e, he, hreach⟩ := h
  obtain ⟨c, hc, he⟩ := (uses_node ht).1 he
  exact ⟨c, hc, e, he, hreach⟩

theorem Uses.substituted (hlen : args.length = params.length)
    (hreads : ∀ n, Mentions params t n → ctx.reading n = place.reading n)
    (h : Uses place params t d) : Uses ctx [] (substituteTypeParams params args t) d := by
  induction t using induction_children with
  | name n =>
    obtain ⟨hn, hread, hparams⟩ := uses_structRef.1 h
    rw [substituteTypeParams, (lookupTypeParam_eq_none_iff hlen).2 hn, Option.getD_none]
    exact uses_structRef.2 ⟨not_mem_nil, (hreads n (.inl ⟨.here, hn⟩)).trans hread, hparams⟩
  | generic n ts ih =>
    rw [substituteTypeParams_genericStruct]
    rcases uses_genericStruct.1 h with ⟨hread, hparams, hlen'⟩ | ⟨t, ht, h⟩
    · refine uses_genericStruct.2 (.inl ⟨?_, hparams, (length_map _).trans hlen'⟩)
      exact (hreads n (.inr ⟨ts, .here⟩)).trans hread
    · refine uses_genericStruct.2 (.inr ⟨_, mem_map_of_mem ht, ih t ht (fun n hn => ?_) h⟩)
      exact hreads n (hn.child (t := .genericStruct _ ts) ht)
  | node t ht ih =>
    have hlen' : ((children t).map (substituteTypeParams params args)).length =
        (children t).length := length_map _
    obtain ⟨c, hc, h⟩ := (uses_node ht).1 h
    rw [substituteTypeParams_node ht]
    refine (uses_node (isNode_withChildren ht hlen')).2 ⟨substituteTypeParams params args c, ?_,
      ih c hc (fun n hn => hreads n (hn.child hc)) h⟩
    rw [children_withChildren hlen']
    exact mem_map_of_mem hc

theorem uses_substitute (hlen : args.length = params.length)
    (hreads : ∀ n, Mentions params t n → ctx.reading n = place.reading n)
    (h : Uses ctx [] (substituteTypeParams params args t) d) :
    Uses place params t d ∨ ∃ a ∈ args, Uses ctx [] a d := by
  induction t using induction_children with
  | name n =>
    rw [substituteTypeParams] at h
    rcases hlookup : lookupTypeParam n params args with _ | a
    · rw [hlookup, Option.getD_none] at h
      have hn : n ∉ params := (lookupTypeParam_eq_none_iff hlen).1 hlookup
      obtain ⟨-, hread, hparams⟩ := uses_structRef.1 h
      rw [hreads n (.inl ⟨.here, hn⟩)] at hread
      exact .inl (uses_structRef.2 ⟨hn, hread, hparams⟩)
    · rw [hlookup] at h
      exact .inr ⟨a, mem_of_lookupTypeParam hlookup, h⟩
  | generic n ts ih =>
    rw [substituteTypeParams_genericStruct] at h
    rcases uses_genericStruct.1 h with ⟨hread, hparams, hlen'⟩ | ⟨u, hu, h⟩
    · rw [hreads n (.inr ⟨ts, .here⟩)] at hread
      rw [length_map] at hlen'
      exact .inl (uses_genericStruct.2 (.inl ⟨hread, hparams, hlen'⟩))
    · obtain ⟨t, ht, rfl⟩ := mem_map.1 hu
      have hchild : ∀ n, Mentions params t n → ctx.reading n = place.reading n := fun n hn =>
        hreads n (hn.child (t := .genericStruct _ ts) ht)
      exact (ih t ht hchild h).imp_left fun h => uses_genericStruct.2 (.inr ⟨t, ht, h⟩)
  | node t ht ih =>
    have hlen' : ((children t).map (substituteTypeParams params args)).length =
        (children t).length := length_map _
    rw [substituteTypeParams_node ht] at h
    obtain ⟨u, hu, h⟩ := (uses_node (isNode_withChildren ht hlen')).1 h
    rw [children_withChildren hlen'] at hu
    obtain ⟨c, hc, rfl⟩ := mem_map.1 hu
    have hchild : ∀ n, Mentions params c n → ctx.reading n = place.reading n := fun n hn =>
      hreads n (hn.child hc)
    exact (ih c hc hchild h).imp_left fun h => h.child hc

theorem expands_body (hlen : args.length = d.info.typeParams.length) (hreads : ReadsAlike ctx d)
    (h : Expands ctx (substituteTypeParams d.info.typeParams args d.info.aliasedType) e) :
    ReflTransGen BodyUses d e ∨ ∃ a ∈ args, Expands ctx a e := by
  obtain ⟨f, hf, hreach⟩ := h
  rcases uses_substitute hlen hreads hf with hf | ⟨a, ha, hf⟩
  · exact .inl (hreach.head hf)
  · exact .inr ⟨a, ha, f, hf, hreach⟩

theorem expands_definition (hcapture : NoCapture ctx (.structRef n)) (hread : ctx.reading n = .alias d)
    (hparams : d.info.typeParams = []) (h : Expands ctx d.info.aliasedType e) :
    Expands ctx (.structRef n) e := by
  have hused : Uses ctx [] (.structRef n) d := uses_structRef.2 ⟨not_mem_nil, hread, hparams⟩
  have hlen : ([] : List TypeNode).length = d.info.typeParams.length := hparams ▸ rfl
  refine ⟨d, hused, (expands_body hlen (hcapture d ⟨d, hused, .refl⟩) ?_).resolve_right ?_⟩
  · rwa [hparams, substituteTypeParams_nil]
  · rintro ⟨a, ha, -⟩
    exact nomatch ha

theorem expands_application (hcapture : NoCapture ctx (.genericStruct n ts))
    (happlies : Applies ctx n rs d) (hlen : rs.length = ts.length)
    (hargs : ∀ r ∈ rs, ∀ e, Expands ctx r e → ∃ t ∈ ts, Expands ctx t e)
    (h : Expands ctx (substituteTypeParams d.info.typeParams rs d.info.aliasedType) e) :
    Expands ctx (.genericStruct n ts) e := by
  have hused : Uses ctx [] (.genericStruct n ts) d := uses_genericStruct.2
    (.inl ⟨happlies.reading, happlies.generic, hlen.symm.trans happlies.length⟩)
  rcases expands_body happlies.length (hcapture d ⟨d, hused, .refl⟩) h with hreach | ⟨r, hr, h⟩
  · exact ⟨d, hused, hreach⟩
  · obtain ⟨t, ht, h⟩ := hargs r hr e h
    exact expands_child (t := .genericStruct n ts) ht h

mutual

theorem ExpandsTo.keeps {path : List Declaration} {t r : TypeNode} :
    ExpandsTo unsatisfied ctx path t r → NoCapture ctx t → ∀ e, Expands ctx r e → Expands ctx t e
  | .name _, _, _, he => he
  | .definition hread hparams _ hbody, hcapture, e, he => by
    have hexpands := fun e => expands_definition (e := e) hcapture hread hparams
    exact hexpands e (hbody.keeps (fun e he => hcapture e (hexpands e he)) e he)
  | .generic hargs _, hcapture, e, ⟨d, hd, hreach⟩ => by
    have hts := hargs.keeps fun t ht => NoCapture.child (t := .genericStruct _ _) hcapture ht
    rcases uses_genericStruct.1 hd with ⟨hread, hparams, hlen⟩ | ⟨r, hr, hd⟩
    · exact ⟨d, uses_genericStruct.2 (.inl ⟨hread, hparams, hargs.length.symm.trans hlen⟩), hreach⟩
    · obtain ⟨t, ht, he⟩ := hts r hr e ⟨d, hd, hreach⟩
      exact expands_child (t := .genericStruct _ _) ht he
  | .application hargs happlies _ _ hbody, hcapture, e, he => by
    have hts := hargs.keeps fun t ht => NoCapture.child (t := .genericStruct _ _) hcapture ht
    have hexpands := fun e => expands_application (e := e) hcapture happlies hargs.length hts
    exact hexpands e (hbody.keeps (fun e he => hcapture e (hexpands e he)) e he)
  | .node hnode hchildren, hcapture, e, he => by
    have hlen := hchildren.length
    obtain ⟨r, hr, he⟩ := expands_node (isNode_withChildren hnode hlen) he
    rw [children_withChildren hlen] at hr
    obtain ⟨c, hc, he⟩ := hchildren.keeps (fun c hc => NoCapture.child hcapture hc) r hr e he
    exact expands_child hc he

theorem ExpandAll.keeps {path : List Declaration} {ts rs : List TypeNode} :
    ExpandAll unsatisfied ctx path ts rs → (∀ t ∈ ts, NoCapture ctx t) →
      ∀ r ∈ rs, ∀ e, Expands ctx r e → ∃ t ∈ ts, Expands ctx t e
  | .nil, _, _, hr => nomatch hr
  | .cons hhead htail, hcapture, r, hr => by
    obtain ⟨ht, hts⟩ := forall_mem_cons.1 hcapture
    have hfirst := hhead.keeps ht
    have hlater := htail.keeps hts
    intro e he
    rcases List.mem_cons.1 hr with rfl | hr
    · exact ⟨_, mem_cons_self, hfirst e he⟩
    · obtain ⟨t, ht, he⟩ := hlater r hr e he
      exact ⟨t, mem_cons_of_mem _ ht, he⟩

end

theorem circular_body (hreads : ReadsAlike ctx d) (hlen : rs.length = d.info.typeParams.length)
    (hnot : d ∉ path) (h : Repeats BodyUses path d) :
    Circular ctx (d :: path) (substituteTypeParams d.info.typeParams rs d.info.aliasedType) := by
  cases h with
  | here hmem => exact absurd hmem hnot
  | there _ huses hrepeats => exact ⟨_, Uses.substituted hlen hreads huses, hrepeats⟩

theorem exists_cycle_of_each (hrs : (each (resolveIn unsatisfied ctx fuel stack) ts).Returns rs reports)
    (ht : t ∈ ts) (h : ∀ r reports, (resolveIn unsatisfied ctx fuel stack t).Returns r reports →
      ∃ x ∈ reports, IsCycle x) : ∃ x ∈ reports, IsCycle x := by
  obtain ⟨i, hi, rfl⟩ := getElem_of_mem ht
  have hlen := each_length hrs
  obtain ⟨reports', hr, hsub⟩ := each_returns hrs (ts[i], rs[i])
    (mem_iff_getElem.2 ⟨i, by simp; omega, by simp⟩)
  obtain ⟨x, hx, hcycle⟩ := h _ _ hr
  exact ⟨x, hsub hx, hcycle⟩

/-- A type that comes to a cycle is reported, where no bound that is missed hides the cycle. -/
theorem cycle_of_returns (hpath : ∀ d ∈ path, ctx.env.lookup d.name = some d)
    (hcapture : NoCapture ctx t) (hshows : Shows unsatisfied ctx (path, t))
    (hcircular : Circular ctx path t)
    (h : (resolveIn unsatisfied ctx fuel (path.map Declaration.name) t).Returns r reports) :
    ∃ x ∈ reports, IsCycle x := by
  induction fuel generalizing path t r reports with
  | zero => exact nomatch h
  | succ fuel ih =>
  induction t using induction_children generalizing r reports with
  | name n =>
    obtain ⟨d, hd, hrepeats⟩ := hcircular
    obtain ⟨-, hread, hparams⟩ := uses_structRef.1 hd
    rw [resolveIn, resolveTypeAliasNode, rebuild, resolveStructRef_alias hread hparams] at h
    split at h
    next hstack =>
      obtain ⟨-, rfl⟩ := returns_reported.1 h
      exact ⟨_, mem_singleton_self _, trivial⟩
    next hstack =>
      have hnot : d ∉ path := fun hmem => hstack ((name_mem_path_iff hpath hread).2 hmem)
      have hlen : ([] : List TypeNode).length = d.info.typeParams.length := hparams ▸ rfl
      have hbody := circular_body (hcapture d ⟨d, hd, .refl⟩) hlen hnot hrepeats
      rw [hparams, substituteTypeParams_nil] at hbody
      refine ih (path_lookup hpath hread) ?_
        (hshows.of_leads (.definition hread hparams hnot)) hbody h
      exact fun e he => hcapture e (expands_definition hcapture hread hparams he)
  | generic n ts iht =>
    rw [resolveIn_genericStruct] at h
    obtain ⟨rs, r₁, r₂, hrs, hr, rfl⟩ := returns_bind.1 h
    have hargs : ExpandAll unsatisfied ctx path ts rs :=
      expandAll_of_each (fun t _ r reports hr => expandsTo_of_returns hpath hr) hrs
    have hchild : ∀ t ∈ ts, NoCapture ctx t := fun t ht =>
      NoCapture.child (t := .genericStruct n ts) hcapture ht
    have hfound : ∀ t ∈ ts, Circular ctx path t → ∃ x ∈ r₁ ++ r₂, IsCycle x := by
      intro t ht hcircular
      obtain ⟨x, hx, hcycle⟩ := exists_cycle_of_each hrs ht fun r reports hr =>
        iht t ht (hchild t ht) (hshows.of_leads (.child (t := .genericStruct n ts) ht)) hcircular hr
      exact ⟨x, mem_append_left _ hx, hcycle⟩
    obtain ⟨d, hd, hrepeats⟩ := hcircular
    rcases uses_genericStruct.1 hd with ⟨hread, hparams, hlen⟩ | ⟨t, ht, hd⟩
    · have hlen' : rs.length = d.info.typeParams.length := hargs.length.trans hlen
      have happlies : Applies ctx n rs d := ⟨hread, hparams, hlen'⟩
      rw [resolveGenericStruct_alias hread hparams hlen'] at hr
      obtain ⟨valid, r₃, r₄, hvalid, hrest, rfl⟩ := returns_bind.1 hr
      have hjudged := judged_of_returns hvalid
      split at hrest
      next hfalse =>
        obtain ⟨t, ht, hcircular⟩ := hshows path n ts rs d ⟨.refl, hargs, happlies⟩
          (hfalse ▸ hjudged) hrepeats
        exact hfound t ht hcircular
      next htrue =>
        rw [Bool.not_eq_false] at htrue
        have hlast : ∀ {x}, x ∈ r₄ → x ∈ r₁ ++ (r₃ ++ r₄) := fun hx =>
          mem_append_right _ (mem_append_right _ hx)
        split at hrest
        next hstack =>
          obtain ⟨-, rfl⟩ := returns_reported.1 hrest
          exact ⟨_, hlast (mem_singleton_self _), trivial⟩
        next hstack =>
          have hnot : d ∉ path := fun hmem => hstack ((name_mem_path_iff hpath hread).2 hmem)
          have hbody := circular_body (hcapture d ⟨d, hd, .refl⟩) hlen' hnot hrepeats
          obtain ⟨x, hx, hcycle⟩ := ih (path_lookup hpath hread)
            (fun e he => hcapture e
              (expands_application hcapture happlies hargs.length (hargs.keeps hchild) he))
            (hshows.of_leads (.application hargs happlies (htrue ▸ hjudged) hnot)) hbody hrest
          exact ⟨x, hlast hx, hcycle⟩
    · exact hfound t ht ⟨d, hd, hrepeats⟩
  | node t ht iht =>
    rw [resolveIn_node ht] at h
    obtain ⟨rs, r₁, r₂, hrs, hr, rfl⟩ := returns_bind.1 h
    obtain ⟨d, hd, hrepeats⟩ := hcircular
    obtain ⟨c, hc, hd⟩ := (uses_node ht).1 hd
    obtain ⟨x, hx, hcycle⟩ := exists_cycle_of_each hrs hc fun r reports hr =>
      iht c hc (NoCapture.child hcapture hc) (hshows.of_leads (.child hc)) ⟨d, hd, hrepeats⟩ hr
    exact ⟨x, mem_append_left _ hx, hcycle⟩

end Mlang.AliasChecks
