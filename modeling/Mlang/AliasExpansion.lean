import Mlang.AliasScopes

namespace Mlang.AliasExpansion

open Mangling Monomorphization Expansions TypeTraversals TypeAliases AliasScopes List Option
open BracketedText (Text)
open Relation (ReflTransGen)

/-! What the expansion of a type means: each name is read where it is written, in the type itself
or in the definition of an alias. -/

variable (nameOf : Entity → Name)

mutual

/-- With the names of `t` read in the context, and the parameters in `args` replaced, `t` comes
to the type `result`, in which each entity goes by the name `nameOf` gives it. -/
inductive Denotes : Context → (Name → Option TypeNode) → TypeNode → TypeNode → Prop
  | argument {ctx : Context} {args : Name → Option TypeNode} {n : Name} {a : TypeNode}
      (harg : args n = some a) : Denotes ctx args (.structRef n) a
  | name {ctx : Context} {args : Name → Option TypeNode} {n : Name} {e : Entity}
      (harg : args n = none) (hread : ctx.reading n = .entity e) :
      Denotes ctx args (.structRef n) (.structRef (nameOf e))
  | definition {ctx : Context} {args : Name → Option TypeNode} {n : Name} {d : Declaration}
      {result : TypeNode} (harg : args n = none) (hread : ctx.reading n = .alias d)
      (hparams : d.info.typeParams = [])
      (hbody : Denotes d.context (fun _ => none) d.info.aliasedType result) :
      Denotes ctx args (.structRef n) result
  | generic {ctx : Context} {args : Name → Option TypeNode} {n : Name} {e : Entity}
      {ts results : List TypeNode} (hread : ctx.reading n = .entity e)
      (hargs : DenoteAll ctx args ts results) :
      Denotes ctx args (.genericStruct n ts) (.genericStruct (nameOf e) results)
  | application {ctx : Context} {args : Name → Option TypeNode} {n : Name} {d : Declaration}
      {ts results : List TypeNode} {result : TypeNode} (hread : ctx.reading n = .alias d)
      (hparams : d.info.typeParams ≠ []) (hlen : ts.length = d.info.typeParams.length)
      (hargs : DenoteAll ctx args ts results)
      (hbody : Denotes d.context (fun p => lookupTypeParam p d.info.typeParams results)
        d.info.aliasedType result) :
      Denotes ctx args (.genericStruct n ts) result
  | node {ctx : Context} {args : Name → Option TypeNode} {t : TypeNode} {results : List TypeNode}
      (hnode : IsNode t) (hchildren : DenoteAll ctx args (children t) results) :
      Denotes ctx args t (withChildren t results)

inductive DenoteAll : Context → (Name → Option TypeNode) → List TypeNode → List TypeNode → Prop
  | nil {ctx : Context} {args : Name → Option TypeNode} : DenoteAll ctx args [] []
  | cons {ctx : Context} {args : Name → Option TypeNode} {t result : TypeNode}
      {ts results : List TypeNode} (hhead : Denotes ctx args t result)
      (htail : DenoteAll ctx args ts results) : DenoteAll ctx args (t :: ts) (result :: results)

end

def label (ctx : Context) (n : Name) : Name :=
  match ctx.reading n with
  | .entity e => nameOf e
  | .alias _ => n

variable {d : Declaration} {args : List TypeNode} {n : Name} {t : TypeNode}

/-- An alias that is expanded in `t`: it is named with as many arguments as it has parameters.
The names in `bound` are replaced by arguments. -/
inductive Uses (ctx : Context) (bound : List Name) (t : TypeNode) (d : Declaration) : Prop
  | name {n : Name} (hin : Within (.structRef n) t) (hbound : n ∉ bound)
      (hread : ctx.reading n = .alias d) (hparams : d.info.typeParams = [])
  | application {n : Name} {args : List TypeNode} (hin : Within (.genericStruct n args) t)
      (hread : ctx.reading n = .alias d) (hparams : d.info.typeParams ≠ [])
      (hlen : args.length = d.info.typeParams.length)

/-- The definition of `d` uses `e`. -/
def BodyUses (d e : Declaration) : Prop :=
  Uses d.context d.info.typeParams d.info.aliasedType e

def Expands (ctx : Context) (t : TypeNode) (d : Declaration) : Prop :=
  ∃ e, Uses ctx [] t e ∧ ReflTransGen BodyUses e d

def CyclicExpansion (ctx : Context) (t : TypeNode) : Prop :=
  ∃ d, Uses ctx [] t d ∧ Cycles BodyUses d

/-- A name of `t` that is not replaced by an argument. -/
def Mentions (bound : List Name) (t : TypeNode) (n : Name) : Prop :=
  Within (.structRef n) t ∧ n ∉ bound ∨ ∃ args, Within (.genericStruct n args) t

/-- In the context, the definition of `d` reads as it does where `d` is declared. -/
def ReadsAlike (ctx : Context) (d : Declaration) : Prop :=
  ∀ n, Mentions d.info.typeParams d.info.aliasedType n → ctx.reading n = d.context.reading n

/-- No name in the definition of an alias that the expansion comes to stands for anything else where the type is written. -/
def NoCapture (ctx : Context) (t : TypeNode) : Prop := ∀ d, Expands ctx t d → ReadsAlike ctx d

def AliasFree (ctx : Context) (t : TypeNode) : Prop :=
  ∀ n, Mentions [] t n → ∀ d, ctx.reading n ≠ .alias d

variable {ctx : Context} {bound : List Name} {c : TypeNode}

theorem Uses.trans (h : Uses ctx bound c d) (hin : Within c t) : Uses ctx bound t d := by
  cases h with
  | name hc hbound hread hparams => exact .name (hc.trans hin) hbound hread hparams
  | application hc hread hparams hlen => exact .application (hc.trans hin) hread hparams hlen

theorem Uses.child (hc : c ∈ children t) (h : Uses ctx bound c d) : Uses ctx bound t d :=
  h.trans (.inside hc .here)

theorem uses_node (ht : IsNode t) : Uses ctx bound t d ↔ ∃ c ∈ children t, Uses ctx bound c d := by
  constructor
  · rintro (⟨hin, hbound, hread, hparams⟩ | ⟨hin, hread, hparams, hlen⟩)
    · obtain ⟨c, hc, hin⟩ := hin.child id ht
      exact ⟨c, hc, .name hin hbound hread hparams⟩
    · obtain ⟨c, hc, hin⟩ := hin.child id ht
      exact ⟨c, hc, .application hin hread hparams hlen⟩
  · rintro ⟨c, hc, h⟩
    exact h.child hc

theorem uses_structRef : Uses ctx bound (.structRef n) d ↔
    n ∉ bound ∧ ctx.reading n = .alias d ∧ d.info.typeParams = [] := by
  constructor
  · rintro (⟨hin, hbound, hread, hparams⟩ | ⟨hin, -, -, -⟩)
    · obtain ⟨rfl⟩ := within_structRef.1 hin
      exact ⟨hbound, hread, hparams⟩
    · exact nomatch within_structRef.1 hin
  · rintro ⟨hbound, hread, hparams⟩
    exact .name .here hbound hread hparams

theorem uses_genericStruct : Uses ctx bound (.genericStruct n args) d ↔
    (ctx.reading n = .alias d ∧ d.info.typeParams ≠ [] ∧
      args.length = d.info.typeParams.length) ∨ ∃ a ∈ args, Uses ctx bound a d := by
  constructor
  · rintro (⟨hin, hbound, hread, hparams⟩ | ⟨hin, hread, hparams, hlen⟩)
    · rcases within_genericStruct.1 hin with heq | ⟨a, ha, hin⟩
      · exact nomatch heq
      · exact .inr ⟨a, ha, .name hin hbound hread hparams⟩
    · rcases within_genericStruct.1 hin with heq | ⟨a, ha, hin⟩
      · obtain ⟨rfl, rfl⟩ := TypeNode.genericStruct.inj heq
        exact .inl ⟨hread, hparams, hlen⟩
      · exact .inr ⟨a, ha, .application hin hread hparams hlen⟩
  · rintro (⟨hread, hparams, hlen⟩ | ⟨a, ha, h⟩)
    · exact .application .here hread hparams hlen
    · exact Uses.child (t := .genericStruct n args) ha h

theorem Mentions.trans (h : Mentions bound c n) (hin : Within c t) : Mentions bound t n :=
  h.imp (fun h => ⟨h.1.trans hin, h.2⟩) fun ⟨args, h⟩ => ⟨args, h.trans hin⟩

theorem Mentions.child (hc : c ∈ children t) (h : Mentions bound c n) : Mentions bound t n :=
  h.trans (.inside hc .here)

theorem mentions_node (ht : IsNode t) (h : Mentions bound t n) :
    ∃ c ∈ children t, Mentions bound c n := by
  rcases h with ⟨hin, hbound⟩ | ⟨args, hin⟩
  · obtain ⟨c, hc, hin⟩ := hin.child id ht
    exact ⟨c, hc, .inl ⟨hin, hbound⟩⟩
  · obtain ⟨c, hc, hin⟩ := hin.child id ht
    exact ⟨c, hc, .inr ⟨args, hin⟩⟩

variable {e : Entity} {stack : List Name} {reports' reports : List Report} {fuel : Nat} {x : Report}

section Settled

variable (unsatisfied : Name → Name → Text → TypeNode → TypeNode → Option Text) (ctx : Context)

abbrev resolveIn (fuel : Nat) (stack : List Name) (t : TypeNode) : Reporting Report TypeNode :=
  resolveTypeAliasNode unsatisfied ctx.env.table ctx.kept fuel stack t

def Quiet (reports : List Report) : Prop := ∀ x ∈ reports, ¬IsCycle x

/-- Wherever the type is resolved once more, it stays as it is, and no cycle is reported. -/
def Settled (t : TypeNode) : Prop :=
  ∃ fuel, ∀ fuel' ≥ fuel, ∀ stack, ∃ reports,
    (resolveIn unsatisfied ctx fuel' stack t).Returns t reports ∧ Quiet reports

def boundsHold (info : TypeAliasInfo) (ownerName : Name) : List Name → List TypeNode → Bool
  | p :: ps, a :: as =>
    match info.typeParamTraitBounds.lookup p with
    | none => boundsHold info ownerName ps as
    | some bound =>
      if bound = [] ∨ containsScopedTypeParam ctx.kept a then boundsHold info ownerName ps as
      else
        match unsatisfied ownerName p bound a a with
        | some _ => false
        | none => boundsHold info ownerName ps as
  | _, _ => true

variable {unsatisfied ctx} {r : TypeNode} {ts rs : List TypeNode} {info : TypeAliasInfo} {ownerName : Name}

open Reporting

theorem quiet_nil : Quiet [] := fun _ hx => nomatch hx

theorem Quiet.append (h : Quiet reports) (h' : Quiet reports') : Quiet (reports ++ reports') :=
  fun x hx => (mem_append.1 hx).elim (h x) (h' x)

theorem quiet_append_iff : Quiet (reports ++ reports') ↔ Quiet reports ∧ Quiet reports' :=
  ⟨fun h => ⟨fun x hx => h x (mem_append_left _ hx), fun x hx => h x (mem_append_right _ hx)⟩,
    fun h => h.1.append h.2⟩

theorem quiet_report (hx : ¬IsCycle x) : Quiet [x] := by
  intro y hy
  rwa [List.mem_singleton.1 hy]

theorem resolveIn_genericStruct : resolveIn unsatisfied ctx (fuel + 1) stack (.genericStruct n args) =
    each (resolveIn unsatisfied ctx (fuel + 1) stack) args >>=
      resolveGenericStruct unsatisfied ctx.env.table ctx.kept (resolveIn unsatisfied ctx fuel) stack n :=
  rebuild_genericStruct n args

theorem resolveIn_node (ht : IsNode t) : resolveIn unsatisfied ctx (fuel + 1) stack t =
    each (resolveIn unsatisfied ctx (fuel + 1) stack) (children t) >>=
      fun ts => pure (withChildren t ts) :=
  rebuild_node ht

theorem Settled.eq (h : Settled unsatisfied ctx t)
    (hr : (resolveIn unsatisfied ctx fuel stack t).Returns r reports) : r = t ∧ Quiet reports := by
  obtain ⟨fuel₀, h⟩ := h
  obtain ⟨reports', ht, hquiet⟩ := h (max fuel₀ fuel) (le_max_left _ _) stack
  have hr' := resolveTypeAliasNode_below (le_max_right fuel₀ fuel) stack t r reports hr
  obtain ⟨rfl, rfl⟩ := hr'.unique ht
  exact ⟨rfl, hquiet⟩

theorem exists_each_settled (h : ∀ t ∈ ts, Settled unsatisfied ctx t) :
    ∃ fuel, ∀ fuel' ≥ fuel, ∀ stack, ∃ reports,
      (each (resolveIn unsatisfied ctx fuel' stack) ts).Returns ts reports ∧ Quiet reports := by
  induction ts with
  | nil => exact ⟨0, fun _ _ _ => ⟨[], rfl, quiet_nil⟩⟩
  | cons t ts ih =>
    obtain ⟨⟨fuel₁, ht⟩, hts⟩ := forall_mem_cons.1 h
    obtain ⟨fuel₂, hts⟩ := ih hts
    refine ⟨max fuel₁ fuel₂, fun fuel' hfuel stack => ?_⟩
    obtain ⟨r₁, hr₁, hq₁⟩ := ht fuel' (le_trans (le_max_left _ _) hfuel) stack
    obtain ⟨r₂, hr₂, hq₂⟩ := hts fuel' (le_trans (le_max_right _ _) hfuel) stack
    exact ⟨r₁ ++ (r₂ ++ []), hr₁.bind (hr₂.bind (returns_pure.2 ⟨rfl, rfl⟩)),
      hq₁.append (hq₂.append quiet_nil)⟩

theorem settled_node (ht : IsNode t) (h : ∀ c ∈ children t, Settled unsatisfied ctx c) :
    Settled unsatisfied ctx t := by
  obtain ⟨fuel, h⟩ := exists_each_settled h
  refine ⟨fuel + 1, fun fuel' hfuel stack => ?_⟩
  obtain ⟨fuel', rfl⟩ := Nat.exists_eq_add_of_le' hfuel
  rw [← Nat.add_assoc]
  obtain ⟨reports, hr, hquiet⟩ := h (fuel' + fuel + 1) (by omega) stack
  refine ⟨reports ++ [], ?_, hquiet.append quiet_nil⟩
  rw [resolveIn_node ht]
  exact hr.bind (returns_pure.2 ⟨(withChildren_children t).symm, rfl⟩)

theorem settled_generic (hargs : ∀ a ∈ args, Settled unsatisfied ctx a)
    (h : ∃ fuel, ∀ fuel' ≥ fuel, ∀ stack, ∃ reports,
      (resolveGenericStruct unsatisfied ctx.env.table ctx.kept (resolveIn unsatisfied ctx fuel')
        stack n args).Returns (.genericStruct n args) reports ∧ Quiet reports) :
    Settled unsatisfied ctx (.genericStruct n args) := by
  obtain ⟨fuel₁, hargs⟩ := exists_each_settled hargs
  obtain ⟨fuel₂, h⟩ := h
  refine ⟨max fuel₁ fuel₂ + 1, fun fuel' hfuel stack => ?_⟩
  obtain ⟨fuel', rfl⟩ := Nat.exists_eq_add_of_le' hfuel
  rw [← Nat.add_assoc]
  obtain ⟨r₁, hr₁, hq₁⟩ := hargs (fuel' + max fuel₁ fuel₂ + 1) (by omega) stack
  obtain ⟨r₂, hr₂, hq₂⟩ := h (fuel' + max fuel₁ fuel₂) (by omega) stack
  refine ⟨r₁ ++ r₂, ?_, hq₁.append hq₂⟩
  rw [resolveIn_genericStruct]
  exact hr₁.bind hr₂

variable {resolve : List Name → TypeNode → Reporting Report TypeNode}

theorem resolveStructRef_entity (h : ctx.reading n = .entity e) :
    resolveStructRef ctx.env.table ctx.kept resolve stack n = pure (.structRef n) := by
  rw [resolveStructRef]
  split
  · rfl
  next hkept => rw [(of_reading_eq_entity h).resolve_left hkept]

theorem resolveGenericStruct_entity (h : ctx.reading n = .entity e) :
    resolveGenericStruct unsatisfied ctx.env.table ctx.kept resolve stack n args =
    pure (.genericStruct n args) := by
  rw [resolveGenericStruct]
  split
  · rfl
  next hkept => rw [(of_reading_eq_entity h).resolve_left hkept]

variable (h : ctx.reading n = .alias d)
include h

theorem resolveStructRef_generic (hparams : d.info.typeParams ≠ []) :
    resolveStructRef ctx.env.table ctx.kept resolve stack n =
    Reporting.report (.requiresTypeArguments n) >>= fun _ => pure (.structRef n) := by
  rw [resolveStructRef, if_neg (reading_eq_alias_iff.1 h).1, findAlias_of_reading h]
  exact if_pos hparams

theorem resolveStructRef_alias (hparams : d.info.typeParams = []) :
    resolveStructRef ctx.env.table ctx.kept resolve stack n = if d.name ∈
    stack then Reporting.report (.cyclic n) >>= fun _ => pure (.structRef n) else resolve (d.name :: stack)
    d.info.aliasedType := by
  rw [resolveStructRef, if_neg (reading_eq_alias_iff.1 h).1, findAlias_of_reading h]
  exact if_neg (not_not.2 hparams)

theorem resolveGenericStruct_plain (hparams : d.info.typeParams = []) :
    resolveGenericStruct unsatisfied ctx.env.table ctx.kept resolve stack n args =
    Reporting.report (.takesNoTypeArguments n) >>= fun _ => pure (.genericStruct n args) := by
  rw [resolveGenericStruct, if_neg (reading_eq_alias_iff.1 h).1, findAlias_of_reading h]
  exact if_pos hparams

theorem resolveGenericStruct_length (hparams : d.info.typeParams ≠ [])
    (hlen : args.length ≠ d.info.typeParams.length) :
    resolveGenericStruct unsatisfied ctx.env.table ctx.kept resolve stack n args =
    Reporting.report (.wrongNumber n d.info.typeParams.length args.length) >>= fun _ => pure
    (.genericStruct n args) := by
  rw [resolveGenericStruct, if_neg (reading_eq_alias_iff.1 h).1, findAlias_of_reading h]
  exact (if_neg hparams).trans (if_pos hlen)

theorem resolveGenericStruct_alias (hparams : d.info.typeParams ≠ [])
    (hlen : args.length = d.info.typeParams.length) :
    resolveGenericStruct unsatisfied ctx.env.table ctx.kept resolve stack n args =
    validateBounds ctx.kept unsatisfied (resolve []) d.info.typeParamTraitBounds n d.info.typeParams args >>=
    fun valid => if valid = false then pure (.genericStruct n args) else if d.name ∈
    stack then Reporting.report (.cyclic n) >>= fun _ => pure (.genericStruct n args) else resolve
    (d.name :: stack) (substituteTypeParams d.info.typeParams args d.info.aliasedType) := by
  rw [resolveGenericStruct, if_neg (reading_eq_alias_iff.1 h).1, findAlias_of_reading h]
  refine (if_neg hparams).trans ((if_neg (not_not.2 hlen)).trans ?_)
  rw [validateTypeArgumentTraitBounds, if_neg (not_not.2 hlen.symm)]

omit h

theorem validateBounds_settled {ps : List Name} {valid : Bool}
    (hargs : ∀ a ∈ args, Settled unsatisfied ctx a)
    (h : (validateBounds ctx.kept unsatisfied (resolveIn unsatisfied ctx fuel [])
      info.typeParamTraitBounds ownerName ps args).Returns valid reports) :
    valid = boundsHold unsatisfied ctx info ownerName ps args ∧ Quiet reports ∧
      (valid = false → reports ≠ []) := by
  induction ps generalizing args reports with
  | nil =>
    obtain ⟨rfl, rfl⟩ := returns_pure.1 h
    exact ⟨rfl, quiet_nil, fun h => nomatch h⟩
  | cons p ps ih =>
    rcases args with _ | ⟨a, as⟩
    · obtain ⟨rfl, rfl⟩ := returns_pure.1 h
      exact ⟨rfl, quiet_nil, fun h => nomatch h⟩
    · obtain ⟨ha, has⟩ := forall_mem_cons.1 hargs
      rw [validateBounds] at h
      rw [boundsHold]
      rcases hb : info.typeParamTraitBounds.lookup p with _ | bound
      · rw [hb] at h
        exact ih has h
      · rw [hb] at h
        simp only at h ⊢
        by_cases hskip : bound = [] ∨ containsScopedTypeParam ctx.kept a
        · rw [if_pos hskip] at h ⊢
          exact ih has h
        · rw [if_neg hskip] at h ⊢
          obtain ⟨r, r₁, r₂, hr, hrest, rfl⟩ := returns_bind.1 h
          obtain ⟨rfl, hq₁⟩ := ha.eq hr
          rw [if_neg (not_or.1 hskip).2] at hrest
          rcases hunsat : unsatisfied ownerName p bound r r with _ | message
          · rw [hunsat] at hrest
            obtain ⟨hvalid, hq₂, hne⟩ := ih has hrest
            exact ⟨hvalid, hq₁.append hq₂, fun hfalse => append_ne_nil_of_right_ne_nil _ (hne hfalse)⟩
          · rw [hunsat] at hrest
            obtain ⟨_, r₃, r₄, hr₃, hr₄, rfl⟩ := returns_bind.1 hrest
            obtain ⟨rfl, rfl⟩ := returns_pure.1 hr₄
            obtain rfl := returns_report.1 hr₃
            refine ⟨rfl, hq₁.append ((quiet_report id).append quiet_nil), fun _ => ?_⟩
            exact append_ne_nil_of_right_ne_nil _ (cons_ne_nil _ _)

theorem exists_validateBounds (info : TypeAliasInfo) (ownerName : Name)
    (hargs : ∀ a ∈ args, Settled unsatisfied ctx a) (ps : List Name) :
    ∃ fuel, ∀ fuel' ≥ fuel, ∃ reports,
      (validateBounds ctx.kept unsatisfied (resolveIn unsatisfied ctx fuel' [])
        info.typeParamTraitBounds ownerName ps args).Returns
          (boundsHold unsatisfied ctx info ownerName ps args) reports := by
  induction ps generalizing args with
  | nil => exact ⟨0, fun _ _ => ⟨[], rfl⟩⟩
  | cons p ps ih =>
    rcases args with _ | ⟨a, as⟩
    · exact ⟨0, fun _ _ => ⟨[], rfl⟩⟩
    · obtain ⟨⟨fuel₁, ha⟩, has⟩ := forall_mem_cons.1 hargs
      obtain ⟨fuel₂, ih⟩ := ih has
      refine ⟨max fuel₁ fuel₂, fun fuel' hfuel => ?_⟩
      obtain ⟨r₁, hr₁, -⟩ := ha fuel' (le_trans (le_max_left _ _) hfuel) []
      obtain ⟨r₂, hr₂⟩ := ih fuel' (le_trans (le_max_right _ _) hfuel)
      rw [validateBounds, boundsHold]
      rcases info.typeParamTraitBounds.lookup p with _ | bound
      · exact ⟨r₂, hr₂⟩
      · simp only
        by_cases hskip : bound = [] ∨ containsScopedTypeParam ctx.kept a
        · rw [if_pos hskip, if_pos hskip]
          exact ⟨r₂, hr₂⟩
        · rw [if_neg hskip, if_neg hskip]
          rcases hunsat : unsatisfied ownerName p bound a a with _ | message
          · refine ⟨r₁ ++ r₂, hr₁.bind ?_⟩
            rw [if_neg (not_or.1 hskip).2, hunsat]
            exact hr₂
          · refine ⟨r₁ ++ [.boundNotSatisfied message], hr₁.bind ?_⟩
            rw [if_neg (not_or.1 hskip).2, hunsat]
            exact returns_reported.2 ⟨rfl, rfl⟩

/-- Applied to settled arguments, a name stays as it is, unless an alias is applied as it is declared and
its bounds hold. -/
theorem settled_genericStruct (hargs : ∀ a ∈ args, Settled unsatisfied ctx a)
    (h : ∀ d, ctx.reading n = .alias d → d.info.typeParams ≠ [] →
      args.length = d.info.typeParams.length →
        boundsHold unsatisfied ctx d.info n d.info.typeParams args = false) :
    Settled unsatisfied ctx (.genericStruct n args) := by
  rcases hread : ctx.reading n with e | d
  · refine settled_generic hargs ⟨0, fun fuel' _ stack => ⟨[], ?_, quiet_nil⟩⟩
    rw [resolveGenericStruct_entity hread]
    exact returns_pure.2 ⟨rfl, rfl⟩
  by_cases hparams : d.info.typeParams = []
  · refine settled_generic hargs ⟨0, fun fuel' _ stack => ⟨[.takesNoTypeArguments n], ?_, quiet_report id⟩⟩
    rw [resolveGenericStruct_plain hread hparams]
    exact returns_reported.2 ⟨rfl, rfl⟩
  by_cases hlen : args.length = d.info.typeParams.length
  · obtain ⟨fuel, hbounds⟩ := exists_validateBounds d.info n hargs d.info.typeParams
    refine settled_generic hargs ⟨fuel, fun fuel' hfuel stack => ?_⟩
    obtain ⟨reports, hr⟩ := hbounds fuel' hfuel
    refine ⟨reports ++ [], ?_, (validateBounds_settled hargs hr).2.1.append quiet_nil⟩
    rw [resolveGenericStruct_alias hread hparams hlen]
    refine hr.bind ?_
    rw [if_pos (h d hread hparams hlen)]
    exact returns_pure.2 ⟨rfl, rfl⟩
  · refine settled_generic hargs ⟨0, fun fuel' _ stack =>
      ⟨[.wrongNumber n d.info.typeParams.length args.length], ?_, quiet_report id⟩⟩
    rw [resolveGenericStruct_length hread hparams hlen]
    exact returns_reported.2 ⟨rfl, rfl⟩

end Settled

variable (unsatisfied : Name → Name → Text → TypeNode → TypeNode → Option Text)
  (ctx place : Context) (path : List Declaration) (params : List Name) (args : List TypeNode)

/-- The type is written in `place`, and resolved in `ctx`. -/
structure WrittenIn (t : TypeNode) : Prop where
  reads : ∀ n, Mentions params t n → ctx.reading n = place.reading n
  reach : ∀ d, Uses place params t d → ∀ e, ReflTransGen BodyUses d e → ReadsAlike ctx e

/-- What came of a type whose parameters were replaced by `args`, with the aliases of `path` being
expanded. -/
structure Outcome (t r : TypeNode) (reports : List Report) : Prop where
  settled : Quiet reports → Settled unsatisfied ctx r
  cycle : ∀ x ∈ reports, IsCycle x → ∃ d, Uses place params t d ∧ Repeats BodyUses path d
  free : reports = [] → (∀ a ∈ args, AliasFree ctx a) → AliasFree ctx r
  denotes : reports = [] → ∀ nameOf, Denotes nameOf place
    (fun p => lookupTypeParam p params (args.map (renameNames (label nameOf ctx)))) t
    (renameNames (label nameOf ctx) r)

structure Outcomes (ts rs : List TypeNode) (reports : List Report) : Prop where
  length : rs.length = ts.length
  settled : Quiet reports → ∀ r ∈ rs, Settled unsatisfied ctx r
  cycle : ∀ x ∈ reports, IsCycle x → ∃ t ∈ ts, ∃ d, Uses place params t d ∧ Repeats BodyUses path d
  free : reports = [] → (∀ a ∈ args, AliasFree ctx a) → ∀ r ∈ rs, AliasFree ctx r
  denotes : reports = [] → ∀ nameOf, DenoteAll nameOf place
    (fun p => lookupTypeParam p params (args.map (renameNames (label nameOf ctx)))) ts
    (rs.map (renameNames (label nameOf ctx)))

def SoundAt (fuel : Nat) : Prop :=
  ∀ (place : Context) (path : List Declaration) (params : List Name) (args : List TypeNode)
    (t r : TypeNode) (reports : List Report),
    (∀ d ∈ path, ctx.env.lookup d.name = some d) → args.length = params.length →
    (∀ a ∈ args, Settled unsatisfied ctx a) → WrittenIn ctx place params t →
    (resolveIn unsatisfied ctx fuel (path.map Declaration.name)
      (substituteTypeParams params args t)).Returns r reports →
    Outcome unsatisfied ctx place path params args t r reports

variable {unsatisfied ctx place path params args} {r : TypeNode} {ts rs : List TypeNode}

open Reporting

theorem WrittenIn.child (h : WrittenIn ctx place params t) (hc : c ∈ children t) :
    WrittenIn ctx place params c where
  reads n hn := h.reads n (hn.child hc)
  reach d hd := h.reach d (hd.child hc)

theorem WrittenIn.body (h : WrittenIn ctx place params t) (hd : Uses place params t d) :
    WrittenIn ctx d.context d.info.typeParams d.info.aliasedType where
  reads := h.reach d hd d .refl
  reach _ he f hf := h.reach d hd f (hf.head he)

theorem outcomes_each
    (hts : ∀ t ∈ ts, ∀ r reports, (resolveIn unsatisfied ctx fuel stack
      (substituteTypeParams params args t)).Returns r reports →
        Outcome unsatisfied ctx place path params args t r reports)
    (h : (each (resolveIn unsatisfied ctx fuel stack)
      (ts.map (substituteTypeParams params args))).Returns rs reports) :
    Outcomes unsatisfied ctx place path params args ts rs reports := by
  induction ts generalizing rs reports with
  | nil =>
    obtain ⟨rfl, rfl⟩ := returns_pure.1 h
    exact ⟨rfl, fun _ _ hr => (nomatch hr), fun _ hx => (nomatch hx), fun _ _ _ hr => (nomatch hr),
      fun _ _ => .nil⟩
  | cons t ts ih =>
    rw [map_cons, each] at h
    obtain ⟨r, r₁, _, hr, hrest, rfl⟩ := returns_bind.1 h
    obtain ⟨rs, r₂, _, hrs, hdone, rfl⟩ := returns_bind.1 hrest
    obtain ⟨rfl, rfl⟩ := returns_pure.1 hdone
    rw [append_nil]
    obtain ⟨ht, hts⟩ := forall_mem_cons.1 hts
    have hhead := ht r r₁ hr
    have htail := ih hts hrs
    constructor
    · rw [length_cons, length_cons, htail.length]
    · intro hquiet
      obtain ⟨hq₁, hq₂⟩ := quiet_append_iff.1 hquiet
      exact forall_mem_cons.2 ⟨hhead.settled hq₁, htail.settled hq₂⟩
    · intro x hx hcycle
      rcases mem_append.1 hx with hx | hx
      · exact ⟨t, mem_cons_self, hhead.cycle x hx hcycle⟩
      · obtain ⟨t', ht', hd⟩ := htail.cycle x hx hcycle
        exact ⟨t', mem_cons_of_mem _ ht', hd⟩
    · intro hnone hfree
      obtain ⟨hnone₁, hnone₂⟩ := append_eq_nil_iff.1 hnone
      exact forall_mem_cons.2 ⟨hhead.free hnone₁ hfree, htail.free hnone₂ hfree⟩
    · intro hnone nameOf
      obtain ⟨hnone₁, hnone₂⟩ := append_eq_nil_iff.1 hnone
      exact .cons (hhead.denotes hnone₁ nameOf) (htail.denotes hnone₂ nameOf)

theorem Outcomes.node (ht : IsNode t)
    (h : Outcomes unsatisfied ctx place path params args (children t) rs reports) :
    Outcome unsatisfied ctx place path params args t (withChildren t rs) reports := by
  have hnode : IsNode (withChildren t rs) := isNode_withChildren ht h.length
  have hchildren : children (withChildren t rs) = rs := children_withChildren h.length
  constructor
  · intro hquiet
    refine settled_node hnode fun c hc => ?_
    rw [hchildren] at hc
    exact h.settled hquiet c hc
  · intro x hx hcycle
    obtain ⟨c, hc, d, hd, hrepeats⟩ := h.cycle x hx hcycle
    exact ⟨d, hd.child hc, hrepeats⟩
  · intro hnone hfree n hn
    obtain ⟨c, hc, hn⟩ := mentions_node hnode hn
    rw [hchildren] at hc
    exact h.free hnone hfree c hc n hn
  · intro hnone nameOf
    rw [renameNames_withChildren _ ht h.length]
    exact .node ht (h.denotes hnone nameOf)

theorem name_mem_path_iff (hpath : ∀ d ∈ path, ctx.env.lookup d.name = some d)
    (hread : ctx.reading n = .alias d) : d.name ∈ path.map Declaration.name ↔ d ∈ path := by
  constructor
  · intro hmem
    obtain ⟨d', hd', hname⟩ := List.mem_map.1 hmem
    have hlookup := hpath d' hd'
    rw [hname, lookup_of_reading hread] at hlookup
    exact Option.some.inj hlookup ▸ hd'
  · exact mem_map_of_mem

theorem path_lookup (hpath : ∀ d ∈ path, ctx.env.lookup d.name = some d)
    (hread : ctx.reading n = .alias d) : ∀ e ∈ d :: path, ctx.env.lookup e.name = some e :=
  forall_mem_cons.2 ⟨lookup_of_reading hread, hpath⟩

theorem settled_structRef (h : ∀ d, ctx.reading n = .alias d → d.info.typeParams ≠ []) :
    Settled unsatisfied ctx (.structRef n) := by
  refine ⟨1, fun fuel' hfuel stack => ?_⟩
  obtain ⟨fuel', rfl⟩ := Nat.exists_eq_add_of_le' hfuel
  rw [resolveIn, resolveTypeAliasNode, rebuild]
  rcases hread : ctx.reading n with e | d
  · rw [resolveStructRef_entity hread]
    exact ⟨[], returns_pure.2 ⟨rfl, rfl⟩, quiet_nil⟩
  · rw [resolveStructRef_generic hread (h d hread)]
    exact ⟨_, returns_reported.2 ⟨rfl, rfl⟩, quiet_report id⟩

theorem outcome_argument {a : TypeNode} (hargs : ∀ a ∈ args, Settled unsatisfied ctx a) (hn : lookupTypeParam n params args = some a)
    (h : (resolveIn unsatisfied ctx fuel stack a).Returns r reports) :
    Outcome unsatisfied ctx place path params args (.structRef n) r reports := by
  have hmem : a ∈ args := mem_of_lookupTypeParam hn
  obtain ⟨rfl, hquiet⟩ := (hargs a hmem).eq h
  constructor
  · exact fun _ => hargs r hmem
  · exact fun x hx hcycle => absurd hcycle (hquiet x hx)
  · exact fun _ hfree => hfree r hmem
  · intro _ nameOf
    exact .argument (by rw [lookupTypeParam_map, hn, map_some])

variable (h : ctx.reading n = .entity e)
include h

theorem aliasFree_structRef : AliasFree ctx (.structRef n) := by
  rintro m (⟨hin, -⟩ | ⟨ts, hin⟩) d hd
  · obtain ⟨rfl⟩ := within_structRef.1 hin
    exact nomatch h.symm.trans hd
  · exact nomatch within_structRef.1 hin

theorem aliasFree_genericStruct (hts : ∀ t ∈ ts, AliasFree ctx t) :
    AliasFree ctx (.genericStruct n ts) := by
  rintro m (⟨hin, hm⟩ | ⟨us, hin⟩) d hd
  · rcases within_genericStruct.1 hin with heq | ⟨t, ht, hin⟩
    · exact nomatch heq
    · exact hts t ht m (.inl ⟨hin, hm⟩) d hd
  · rcases within_genericStruct.1 hin with heq | ⟨t, ht, hin⟩
    · obtain ⟨rfl, rfl⟩ := TypeNode.genericStruct.inj heq
      exact nomatch h.symm.trans hd
    · exact hts t ht m (.inr ⟨us, hin⟩) d hd

theorem label_entity {nameOf : Entity → Name} :
    label nameOf ctx n = nameOf e := by
  rw [label, h]

omit h

theorem Outcome.of_cycle (hx : x ∈ reports) (hcycle : IsCycle x) (hd : Uses place params t d)
    (hrepeats : Repeats BodyUses path d) : Outcome unsatisfied ctx place path params args t r reports := by
  have hne : reports ≠ [] := ne_nil_of_mem hx
  exact ⟨fun hquiet => absurd hcycle (hquiet x hx), fun _ _ _ => ⟨d, hd, hrepeats⟩,
    fun hnil => absurd hnil hne, fun hnil => absurd hnil hne⟩

theorem outcome_plain (hpath : ∀ d ∈ path, ctx.env.lookup d.name = some d) (hn : n ∉ params)
    (hw : WrittenIn ctx place params (.structRef n)) (hread : ctx.reading n = .alias d)
    (hplace : place.reading n = .alias d) (hparams : d.info.typeParams = [])
    (hnone : lookupTypeParam n params args = none) (ih : SoundAt unsatisfied ctx fuel)
    (h : (resolveStructRef ctx.env.table ctx.kept (resolveIn unsatisfied ctx fuel)
      (path.map Declaration.name) n).Returns r reports) :
    Outcome unsatisfied ctx place path params args (.structRef n) r reports := by
  have hused : Uses place params (.structRef n) d := uses_structRef.2 ⟨hn, hplace, hparams⟩
  rw [resolveStructRef_alias hread hparams] at h
  split at h
  next hstack =>
    have hmem : d ∈ path := (name_mem_path_iff hpath hread).1 hstack
    obtain ⟨rfl, rfl⟩ := returns_reported.1 h
    exact .of_cycle mem_cons_self trivial hused (.here hmem)
  next hstack =>
    have hnot : d ∉ path := fun hmem => hstack ((name_mem_path_iff hpath hread).2 hmem)
    have hbody : Outcome unsatisfied ctx d.context (d :: path) d.info.typeParams []
        d.info.aliasedType r reports := by
      refine ih d.context (d :: path) d.info.typeParams [] d.info.aliasedType r reports
        (path_lookup hpath hread) ?_ ?_ (hw.body hused) ?_
      · rw [hparams]
        rfl
      · exact fun a ha => nomatch ha
      · rw [hparams, substituteTypeParams_nil]
        exact h
    constructor
    · exact hbody.settled
    · intro x hx hcycle
      obtain ⟨e, he, hrepeats⟩ := hbody.cycle x hx hcycle
      exact ⟨d, hused, .there hnot he hrepeats⟩
    · exact fun hnil _ => hbody.free hnil fun a ha => nomatch ha
    · intro hnil nameOf
      refine .definition ?_ hplace hparams ?_
      · rw [lookupTypeParam_map, hnone, map_none]
      · have := hbody.denotes hnil nameOf
        rwa [hparams] at this

theorem outcome_structRef (hpath : ∀ d ∈ path, ctx.env.lookup d.name = some d)
    (hlen : args.length = params.length) (hargs : ∀ a ∈ args, Settled unsatisfied ctx a)
    (hw : WrittenIn ctx place params (.structRef n)) (ih : SoundAt unsatisfied ctx fuel)
    (h : (resolveIn unsatisfied ctx (fuel + 1) (path.map Declaration.name)
      (substituteTypeParams params args (.structRef n))).Returns r reports) :
    Outcome unsatisfied ctx place path params args (.structRef n) r reports := by
  rw [substituteTypeParams] at h
  rcases hlookup : lookupTypeParam n params args with _ | a
  · rw [hlookup, getD_none, resolveIn, resolveTypeAliasNode, rebuild] at h
    have hn : n ∉ params := (lookupTypeParam_eq_none_iff hlen).1 hlookup
    have halike := hw.reads n (.inl ⟨.here, hn⟩)
    rcases hread : ctx.reading n with e | d
    · rw [resolveStructRef_entity hread] at h
      obtain ⟨rfl, rfl⟩ := returns_pure.1 h
      rw [hread] at halike
      constructor
      · exact fun _ => settled_structRef fun d hd => by cases hread.symm.trans hd
      · exact fun x hx => by cases hx
      · exact fun _ _ => aliasFree_structRef hread
      · intro _ nameOf
        rw [renameNames, label_entity hread]
        exact .name (by rw [lookupTypeParam_map, hlookup, map_none]) halike.symm
    · have hplace : place.reading n = .alias d := halike.symm.trans hread
      by_cases hparams : d.info.typeParams = []
      · exact outcome_plain hpath hn hw hread hplace hparams hlookup ih h
      · rw [resolveStructRef_generic hread hparams] at h
        obtain ⟨rfl, rfl⟩ := returns_reported.1 h
        constructor
        · intro _
          refine settled_structRef fun d' hd' => ?_
          rwa [← Reading.alias.inj (hread.symm.trans hd')]
        · intro x hx hcycle
          rw [mem_singleton] at hx
          rw [hx] at hcycle
          exact hcycle.elim
        · exact fun hnil => by cases hnil
        · exact fun hnil => by cases hnil
  · rw [hlookup] at h
    exact outcome_argument hargs hlookup h

theorem Outcomes.left (h : Outcomes unsatisfied ctx place path params args ts rs reports)
    (hquiet : Quiet reports) (hquiet' : Quiet reports') (hne : reports' ≠ [])
    (hkept : ∀ d, ctx.reading n = .alias d → d.info.typeParams ≠ [] →
      rs.length = d.info.typeParams.length →
        boundsHold unsatisfied ctx d.info n d.info.typeParams rs = false) :
    Outcome unsatisfied ctx place path params args (.genericStruct n ts) (.genericStruct n rs)
      (reports ++ reports') := by
  have hne' : reports ++ reports' ≠ [] := fun hnil => hne (append_eq_nil_iff.1 hnil).2
  constructor
  · exact fun _ => settled_genericStruct (h.settled hquiet) hkept
  · exact fun x hx hcycle => absurd hcycle (hquiet.append hquiet' x hx)
  · exact fun hnil => absurd hnil hne'
  · exact fun hnil => absurd hnil hne'

theorem outcome_application (hpath : ∀ d ∈ path, ctx.env.lookup d.name = some d)
    (hw : WrittenIn ctx place params (.genericStruct n ts)) (hread : ctx.reading n = .alias d)
    (hplace : place.reading n = .alias d) (hparams : d.info.typeParams ≠ [])
    (hlen : ts.length = d.info.typeParams.length) (ih : SoundAt unsatisfied ctx fuel)
    (hts : Outcomes unsatisfied ctx place path params args ts rs reports) (hquiet : Quiet reports)
    (h : (resolveGenericStruct unsatisfied ctx.env.table ctx.kept (resolveIn unsatisfied ctx fuel)
      (path.map Declaration.name) n rs).Returns r reports') :
    Outcome unsatisfied ctx place path params args (.genericStruct n ts) r (reports ++ reports') := by
  have hused : Uses place params (.genericStruct n ts) d :=
    uses_genericStruct.2 (.inl ⟨hplace, hparams, hlen⟩)
  have hrs : ∀ r ∈ rs, Settled unsatisfied ctx r := hts.settled hquiet
  have hlen' : rs.length = d.info.typeParams.length := hts.length.trans hlen
  rw [resolveGenericStruct_alias hread hparams hlen'] at h
  obtain ⟨valid, r₁, r₂, hvalid, hrest, rfl⟩ := returns_bind.1 h
  obtain ⟨rfl, hq₁, hne⟩ := validateBounds_settled hrs hvalid
  split at hrest
  next hfalse =>
    obtain ⟨rfl, rfl⟩ := returns_pure.1 hrest
    refine hts.left hquiet (hq₁.append quiet_nil) ?_ fun d' hd' _ _ => ?_
    · exact append_ne_nil_of_left_ne_nil (hne hfalse) _
    · rwa [← Reading.alias.inj (hread.symm.trans hd')]
  next htrue =>
    split at hrest
    next hstack =>
      have hmem : d ∈ path := (name_mem_path_iff hpath hread).1 hstack
      obtain ⟨_, r₃, r₄, hr₃, hr₄, rfl⟩ := returns_bind.1 hrest
      obtain rfl := returns_report.1 hr₃
      exact .of_cycle (x := .cyclic n) (by simp) trivial hused (.here hmem)
    next hstack =>
      have hnot : d ∉ path := fun hmem => hstack ((name_mem_path_iff hpath hread).2 hmem)
      have hbody : Outcome unsatisfied ctx d.context (d :: path) d.info.typeParams rs
          d.info.aliasedType r r₂ := by
        exact ih d.context (d :: path) d.info.typeParams rs d.info.aliasedType r r₂
          (path_lookup hpath hread) hlen' hrs (hw.body hused) hrest
      have hnil_of : reports ++ (r₁ ++ r₂) = [] → reports = [] ∧ r₂ = [] := fun hnil =>
        ⟨(append_eq_nil_iff.1 hnil).1, (append_eq_nil_iff.1 (append_eq_nil_iff.1 hnil).2).2⟩
      constructor
      · intro hq
        exact hbody.settled (quiet_append_iff.1 (quiet_append_iff.1 hq).2).2
      · intro x hx hcycle
        rcases mem_append.1 hx with hx | hx
        · exact absurd hcycle (hquiet x hx)
        rcases mem_append.1 hx with hx | hx
        · exact absurd hcycle (hq₁ x hx)
        obtain ⟨e, he, hrepeats⟩ := hbody.cycle x hx hcycle
        exact ⟨d, hused, .there hnot he hrepeats⟩
      · intro hnil hfree
        exact hbody.free (hnil_of hnil).2 (hts.free (hnil_of hnil).1 hfree)
      · intro hnil nameOf
        exact .application hplace hparams hlen (hts.denotes (hnil_of hnil).1 nameOf)
          (hbody.denotes (hnil_of hnil).2 nameOf)

theorem outcome_genericStruct (hpath : ∀ d ∈ path, ctx.env.lookup d.name = some d)
    (hw : WrittenIn ctx place params (.genericStruct n ts)) (ih : SoundAt unsatisfied ctx fuel)
    (hts : Outcomes unsatisfied ctx place path params args ts rs reports)
    (h : (resolveGenericStruct unsatisfied ctx.env.table ctx.kept (resolveIn unsatisfied ctx fuel)
      (path.map Declaration.name) n rs).Returns r reports') :
    Outcome unsatisfied ctx place path params args (.genericStruct n ts) r (reports ++ reports') := by
  by_cases hquiet : Quiet reports
  · have hrs : ∀ r ∈ rs, Settled unsatisfied ctx r := hts.settled hquiet
    have halike := hw.reads n (.inr ⟨ts, .here⟩)
    rcases hread : ctx.reading n with e | d
    · rw [resolveGenericStruct_entity hread] at h
      obtain ⟨rfl, rfl⟩ := returns_pure.1 h
      rw [append_nil]
      rw [hread] at halike
      constructor
      · exact fun _ => settled_genericStruct hrs fun d hd => nomatch hread.symm.trans hd
      · exact fun x hx hcycle => absurd hcycle (hquiet x hx)
      · exact fun hnil hfree => aliasFree_genericStruct hread (hts.free hnil hfree)
      · intro hnil nameOf
        rw [renameNames_genericStruct, label_entity hread]
        exact .generic halike.symm (hts.denotes hnil nameOf)
    · have hplace : place.reading n = .alias d := halike.symm.trans hread
      have honly : ∀ d', ctx.reading n = .alias d' → d' = d := fun d' hd' =>
        (Reading.alias.inj (hread.symm.trans hd')).symm
      by_cases hparams : d.info.typeParams = []
      · rw [resolveGenericStruct_plain hread hparams] at h
        obtain ⟨rfl, rfl⟩ := returns_reported.1 h
        exact hts.left hquiet (quiet_report id) (cons_ne_nil _ _) fun d' hd' hparams' =>
          absurd (honly d' hd' ▸ hparams) hparams'
      · by_cases hlen : ts.length = d.info.typeParams.length
        · exact outcome_application hpath hw hread hplace hparams hlen ih hts hquiet h
        · have hlen' : rs.length ≠ d.info.typeParams.length := hts.length ▸ hlen
          rw [resolveGenericStruct_length hread hparams hlen'] at h
          obtain ⟨rfl, rfl⟩ := returns_reported.1 h
          exact hts.left hquiet (quiet_report id) (cons_ne_nil _ _) fun d' hd' _ hlen'' =>
            absurd (honly d' hd' ▸ hlen'') hlen'
  · simp only [Quiet, not_forall, not_not] at hquiet
    obtain ⟨x, hx, hcycle⟩ := hquiet
    obtain ⟨t, ht, d, hd, hrepeats⟩ := hts.cycle x hx hcycle
    exact .of_cycle (mem_append_left _ hx) hcycle (uses_genericStruct.2 (.inr ⟨t, ht, hd⟩))
      hrepeats

/-- By induction on the fuel, and for each fuel on the type. -/
theorem soundAt (unsatisfied : Name → Name → Text → TypeNode → TypeNode → Option Text)
    (ctx : Context) (fuel : Nat) : SoundAt unsatisfied ctx fuel := by
  induction fuel with
  | zero => exact fun place path params args t r reports _ _ _ _ h => nomatch h
  | succ fuel ih =>
    intro place path params args t r reports hpath hlen hargs hw h
    induction t using induction_children generalizing r reports with
    | name n => exact outcome_structRef hpath hlen hargs hw ih h
    | generic n ts iht =>
      rw [substituteTypeParams_genericStruct, resolveIn_genericStruct] at h
      obtain ⟨rs, r₁, r₂, hrs, hr, rfl⟩ := returns_bind.1 h
      have hts := outcomes_each (fun t ht r reports hr => iht t ht r reports
        (hw.child (t := .genericStruct n ts) ht) hr) hrs
      exact outcome_genericStruct hpath hw ih hts hr
    | node t ht iht =>
      have hlen' : ((children t).map (substituteTypeParams params args)).length =
          (children t).length := length_map _
      rw [substituteTypeParams_node ht, resolveIn_node (isNode_withChildren ht hlen'),
        children_withChildren hlen'] at h
      obtain ⟨rs, r₁, r₂, hrs, hr, rfl⟩ := returns_bind.1 h
      obtain ⟨rfl, rfl⟩ := returns_pure.1 hr
      have hts := outcomes_each (fun t ht r reports hr => iht t ht r reports (hw.child ht) hr) hrs
      rw [withChildren_withChildren hlen' hts.length, append_nil]
      exact hts.node ht

end Mlang.AliasExpansion
