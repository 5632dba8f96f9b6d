import Mlang.AliasChecks

namespace Mlang.AliasHygiene

open Mangling Monomorphization Expansions TypeTraversals TypeAliases AliasScopes AliasExpansion AliasChecks
  List
open BracketedText (Text)
open Relation (ReflTransGen)
open Reporting

variable {unsatisfied : Name → Name → Text → TypeNode → TypeNode → Option Text}
  {ctx place : Context} {path : List Declaration} {params : List Name} {args : List TypeNode}
  {fuel : Nat} {stack : List Name} {t r c : TypeNode} {ts rs : List TypeNode}
  {reports reports' : List Report} {n : Name} {d e : Declaration}

def Clear (place : Context) (params : List Name) (path : List Declaration) (t : TypeNode) : Prop :=
  ∀ d, Uses place params t d → ¬Repeats BodyUses path d

theorem Clear.body (h : Clear place params path t) (hd : Uses place params t d) :
    Clear d.context d.info.typeParams (d :: path) d.info.aliasedType := fun _ he hrepeats =>
  h d hd (.there (fun hmem => h d hd (.here hmem)) he hrepeats)

theorem Clear.child (h : Clear place params path t) (hc : c ∈ children t) :
    Clear place params path c := fun d hd => h d (hd.child hc)

/-- A type whose expansion runs into no cycle is resolved. -/
theorem exists_resolved_of_clear (hpath : ∀ d ∈ path, ctx.env.lookup d.name = some d)
    (hlen : args.length = params.length) (hargs : ∀ a ∈ args, Settled unsatisfied ctx a)
    (hw : WrittenIn ctx place params t) (hclear : Clear place params path t) :
    ∃ fuel r reports, (resolveIn unsatisfied ctx fuel (path.map Declaration.name)
      (substituteTypeParams params args t)).Returns r reports := by
  induction hk : remaining ctx (path.map Declaration.name) using Nat.strong_induction_on
    generalizing place path params args t with
  | _ k ihk =>
  induction t using induction_children with
  | name n =>
    rw [substituteTypeParams]
    rcases hlookup : lookupTypeParam n params args with _ | a
    · have hn : n ∉ params := (lookupTypeParam_eq_none_iff hlen).1 hlookup
      have halike := hw.reads n (.inl ⟨.here, hn⟩)
      rw [Option.getD_none]
      rcases hread : ctx.reading n with e | d
      · refine ⟨1, .structRef n, [], ?_⟩
        rw [resolveIn, resolveTypeAliasNode, rebuild, resolveStructRef_entity hread]
        exact returns_pure.2 ⟨rfl, rfl⟩
      · by_cases hparams : d.info.typeParams = []
        · have hused : Uses place params (.structRef n) d :=
            uses_structRef.2 ⟨hn, halike.symm.trans hread, hparams⟩
          have hstack : d.name ∉ path.map Declaration.name := fun hmem =>
            hclear d hused (.here ((name_mem_path_iff hpath hread).1 hmem))
          obtain ⟨fuel, r, reports, hr⟩ := ihk _ (hk ▸ remaining_lt hread hstack)
            (path_lookup hpath hread)
            (hparams ▸ rfl : ([] : List TypeNode).length = d.info.typeParams.length)
            (fun a ha => by cases ha) (hw.body hused) (hclear.body hused) rfl
          refine ⟨fuel + 1, r, reports, ?_⟩
          rw [resolveIn, resolveTypeAliasNode, rebuild, resolveStructRef_alias hread hparams,
            if_neg hstack]
          rwa [hparams, substituteTypeParams_nil] at hr
        · have hsettled : Settled unsatisfied ctx (.structRef n) := settled_structRef
            fun d' hd' => Reading.alias.inj (hread.symm.trans hd') ▸ hparams
          obtain ⟨fuel, hr⟩ := hsettled
          obtain ⟨reports, hr, -⟩ := hr fuel le_rfl (path.map Declaration.name)
          exact ⟨fuel, _, reports, hr⟩
    · obtain ⟨fuel, hr⟩ := hargs a (mem_of_lookupTypeParam hlookup)
      obtain ⟨reports, hr, -⟩ := hr fuel le_rfl (path.map Declaration.name)
      exact ⟨fuel, a, reports, hr⟩
  | generic n ts ih =>
    have hchild : ∀ t ∈ ts, WrittenIn ctx place params t ∧ Clear place params path t :=
      fun t ht => ⟨hw.child (t := .genericStruct n ts) ht, hclear.child (t := .genericStruct n ts) ht⟩
    have hresolved : ∀ u ∈ ts.map (substituteTypeParams params args), ∃ fuel r reports,
        (resolveIn unsatisfied ctx fuel (path.map Declaration.name) u).Returns r reports := by
      intro u hu
      obtain ⟨t, ht, rfl⟩ := mem_map.1 hu
      exact ih t ht (hchild t ht).1 (hchild t ht).2
    obtain ⟨fuel, rs, reports, hrs⟩ := exists_each_resolved hresolved
    have hts := outcomes_each (fun t ht r reports hr =>
      soundAt unsatisfied ctx fuel place path params args t r reports hpath hlen hargs
        (hchild t ht).1 hr) hrs
    have hquiet : Quiet reports := by
      intro x hx hcycle
      obtain ⟨t, ht, d, hd, hrepeats⟩ := hts.cycle x hx hcycle
      exact (hchild t ht).2 d hd hrepeats
    have hsettled : ∀ r ∈ rs, Settled unsatisfied ctx r := hts.settled hquiet
    rw [substituteTypeParams_genericStruct]
    suffices h : ∃ fuel r reports, (resolveGenericStruct unsatisfied ctx.env.table ctx.kept
        (resolveIn unsatisfied ctx fuel) (path.map Declaration.name) n rs).Returns r reports by
      obtain ⟨fuel', r, reports', h⟩ := h
      obtain ⟨fuel, h⟩ := exists_generic hrs h
      exact ⟨fuel, r, _, h⟩
    have halike := hw.reads n (.inr ⟨ts, .here⟩)
    rcases hread : ctx.reading n with e | d
    · refine ⟨0, .genericStruct n rs, [], ?_⟩
      rw [resolveGenericStruct_entity hread]
      exact returns_pure.2 ⟨rfl, rfl⟩
    · by_cases hparams : d.info.typeParams = []
      · refine ⟨0, .genericStruct n rs, [.takesNoTypeArguments n], ?_⟩
        rw [resolveGenericStruct_plain hread hparams]
        exact returns_reported.2 ⟨rfl, rfl⟩
      · by_cases hlen' : rs.length = d.info.typeParams.length
        · have hused : Uses place params (.genericStruct n ts) d := uses_genericStruct.2
            (.inl ⟨halike.symm.trans hread, hparams, hts.length.symm.trans hlen'⟩)
          have hstack : d.name ∉ path.map Declaration.name := fun hmem =>
            hclear d hused (.here ((name_mem_path_iff hpath hread).1 hmem))
          obtain ⟨fuel₁, hvalid⟩ := exists_validateBounds d.info n hsettled d.info.typeParams
          obtain ⟨fuel₂, r, r₂, hr⟩ := ihk _ (hk ▸ remaining_lt hread hstack)
            (path_lookup hpath hread) hlen' hsettled
            (hw.body hused) (hclear.body hused) rfl
          obtain ⟨r₁, hr₁⟩ := hvalid (max fuel₁ fuel₂) (le_max_left _ _)
          by_cases hfalse : boundsHold unsatisfied ctx d.info n d.info.typeParams rs = false
          · refine ⟨max fuel₁ fuel₂, .genericStruct n rs, r₁ ++ [], ?_⟩
            rw [resolveGenericStruct_alias hread hparams hlen']
            refine hr₁.bind ?_
            rw [if_pos hfalse]
            exact returns_pure.2 ⟨rfl, rfl⟩
          · refine ⟨max fuel₁ fuel₂, r, r₁ ++ r₂, ?_⟩
            rw [resolveGenericStruct_alias hread hparams hlen']
            refine hr₁.bind ?_
            rw [if_neg hfalse, if_neg hstack]
            exact resolveTypeAliasNode_below (le_max_right _ _) _ _ r r₂ hr
        · refine ⟨0, .genericStruct n rs, [.wrongNumber n d.info.typeParams.length rs.length], ?_⟩
          rw [resolveGenericStruct_length hread hparams hlen']
          exact returns_reported.2 ⟨rfl, rfl⟩
  | node t ht ih =>
    have hresolved : ∀ u ∈ (children t).map (substituteTypeParams params args), ∃ fuel r reports,
        (resolveIn unsatisfied ctx fuel (path.map Declaration.name) u).Returns r reports := by
      intro u hu
      obtain ⟨c, hc, rfl⟩ := mem_map.1 hu
      exact ih c hc (hw.child hc) (hclear.child hc)
    obtain ⟨fuel, rs, reports, hrs⟩ := exists_each_resolved hresolved
    have hlen' : ((children t).map (substituteTypeParams params args)).length =
        (children t).length := length_map _
    rw [substituteTypeParams_node ht]
    rw [← children_withChildren hlen'] at hrs
    obtain ⟨fuel, h⟩ := exists_node (isNode_withChildren ht hlen') hrs
    exact ⟨fuel, _, reports, h⟩

theorem resolved_unique {fuel' : Nat} {r' : TypeNode}
    (h : (resolveIn unsatisfied ctx fuel stack t).Returns r reports)
    (h' : (resolveIn unsatisfied ctx fuel' stack t).Returns r' reports') : r = r' ∧ reports = reports' :=
  (resolveTypeAliasNode_below (le_max_left fuel fuel') stack t r reports h).unique
    (resolveTypeAliasNode_below (le_max_right fuel fuel') stack t r' reports' h')

structure Correct (ctx : Context) (t r : TypeNode) (reports : List Report) : Prop where
  cycle : (∃ x ∈ reports, IsCycle x) ↔ CyclicExpansion ctx t
  aliasFree : reports = [] → AliasFree ctx r
  denotes : reports = [] → ∀ nameOf,
    Denotes nameOf ctx (fun _ => none) t (renameNames (label nameOf ctx) r)

def Resolves (unsatisfied : Name → Name → Text → TypeNode → TypeNode → Option Text)
    (ctx : Context) (t r : TypeNode) (reports : List Report) : Prop :=
  ∃ fuel, ∀ fuel' ≥ fuel, (resolveIn unsatisfied ctx fuel' [] t).Returns r reports

theorem Resolves.of_returns (h : (resolveIn unsatisfied ctx fuel [] t).Returns r reports) :
    Resolves unsatisfied ctx t r reports :=
  ⟨fuel, fun _ hfuel => resolveTypeAliasNode_below hfuel [] t r reports h⟩

theorem writtenIn_of_noCapture (h : NoCapture ctx t) : WrittenIn ctx ctx [] t where
  reads _ _ := rfl
  reach d hd e he := h e ⟨d, hd, he⟩

variable (hcapture : NoCapture ctx t)
include hcapture

theorem outcome_of_noCapture (h : (resolveIn unsatisfied ctx fuel [] t).Returns r reports) :
    Outcome unsatisfied ctx ctx [] [] [] t r reports := by
  refine soundAt unsatisfied ctx fuel ctx [] [] [] t r reports (fun d hd => absurd hd not_mem_nil) rfl
    (fun a ha => absurd ha not_mem_nil) (writtenIn_of_noCapture hcapture) ?_
  rw [substituteTypeParams_nil]
  exact h

theorem exists_resolved (hbounds : BoundsApart unsatisfied ctx t) :
    ∃ fuel r reports, (resolveIn unsatisfied ctx fuel [] t).Returns r reports := by
  by_cases hcyclic : CyclicExpansion ctx t
  · exact exists_resolved_of_acc (hbounds hcyclic).ends
  · have hclear : Clear ctx [] [] t := fun d hd hrepeats =>
      hcyclic ⟨d, hd, repeats_nil_iff.1 hrepeats⟩
    obtain ⟨fuel, r, reports, h⟩ := @exists_resolved_of_clear unsatisfied ctx ctx [] [] [] t
      (fun d hd => absurd hd not_mem_nil) rfl (fun a ha => absurd ha not_mem_nil) (writtenIn_of_noCapture hcapture) hclear
    rw [substituteTypeParams_nil] at h
    exact ⟨fuel, r, reports, h⟩

theorem correct_of_returns (hbounds : BoundsApart unsatisfied ctx t)
    (h : (resolveIn unsatisfied ctx fuel [] t).Returns r reports) : Correct ctx t r reports := by
  have houtcome := outcome_of_noCapture hcapture h
  constructor
  · constructor
    · rintro ⟨x, hx, hcycle⟩
      obtain ⟨d, hd, hrepeats⟩ := houtcome.cycle x hx hcycle
      exact ⟨d, hd, repeats_nil_iff.1 hrepeats⟩
    · intro hcyclic
      obtain ⟨d, hd, hcycles⟩ := id hcyclic
      have hpath : ∀ d ∈ ([] : List Declaration), ctx.env.lookup d.name = some d := fun d hd => absurd hd not_mem_nil
      exact cycle_of_returns hpath hcapture (hbounds hcyclic).shows ⟨d, hd, repeats_nil_iff.2 hcycles⟩ h
  · exact fun hnil => houtcome.free hnil fun a ha => absurd ha not_mem_nil
  · exact fun hnil nameOf => houtcome.denotes hnil nameOf

omit hcapture

variable {scope : Finset Name}

theorem placed_returns {result : TypeNode} {placed : List Placed}
    (h : (placeType unsatisfied fuel ctx t).Returns result placed) :
    ∀ p ∈ placed, (resolveIn unsatisfied p.context fuel [] p.type).Returns p.result p.reports := by
  rw [placeType] at h
  rcases hr : resolveTypeAliasNode unsatisfied ctx.env.table ctx.kept fuel [] t with _ | ⟨r, reports⟩
  · rw [hr] at h
    cases h
  · rw [hr] at h
    cases h
    intro p hp
    rw [mem_singleton.1 hp]
    exact hr

mutual

theorem placed_of_stmt {env env' : Env} {placed : List Placed} : ∀ stmt : Statement,
    (placeStmt unsatisfied fuel scope stmt env).Returns env' placed →
      ∀ p ∈ placed, (resolveIn unsatisfied p.context fuel [] p.type).Returns p.result p.reports
  | .typeAlias aliasStmt, h => by
    simp only [placeStmt, returns_bind, returns_pure] at h
    obtain ⟨r, placed, _, hr, ⟨rfl, rfl⟩, rfl⟩ := h
    rw [append_nil]
    exact placed_returns hr
  | .typed type, h => by
    simp only [placeStmt, returns_bind, returns_pure] at h
    obtain ⟨r, placed, _, hr, ⟨rfl, rfl⟩, rfl⟩ := h
    rw [append_nil]
    exact placed_returns hr
  | .nested body, h => by
    simp only [placeStmt, returns_bind, returns_pure] at h
    obtain ⟨inner, placed, _, hr, ⟨rfl, rfl⟩, rfl⟩ := h
    rw [append_nil]
    exact placed_of_stmts body hr

theorem placed_of_stmts {env env' : Env} {placed : List Placed} : ∀ stmts : List Statement,
    (placeStmts unsatisfied fuel scope stmts env).Returns env' placed →
      ∀ p ∈ placed, (resolveIn unsatisfied p.context fuel [] p.type).Returns p.result p.reports
  | [], h => by
    obtain ⟨rfl, rfl⟩ := returns_pure.1 h
    exact fun p hp => nomatch hp
  | stmt :: stmts, h => by
    rw [placeStmts, returns_bind] at h
    obtain ⟨env₁, placed₁, placed₂, h₁, h₂, rfl⟩ := h
    intro p hp
    rcases mem_append.1 hp with hp | hp
    · exact placed_of_stmt stmt h₁ p hp
    · exact placed_of_stmts stmts h₂ p hp

end

def aliasOf (name : String) (type : TypeNode) : TypeAliasNode := ⟨name.toList, [], ∅, type, 1, 1⟩

/-- `alias Name = str8; alias NameList = list<Name>;` -/
def nameAliases : AliasTable :=
  (buildTypeAliasTable [] [aliasOf "Name" (.scalar .str8),
    aliasOf "NameList" (.genericList (.structRef "Name".toList))]).typeAliases

/-- In a block, after `alias Name = i32;`. -/
def blockContext : Context :=
  ⟨∅, ∅, .declare (.global nameAliases) ∅ "Name".toList ⟨.scalar .i32, [], ∅, 1, 1⟩⟩

def nameList : TypeNode := .structRef "NameList".toList

/-- `alias Name = i32; let x: NameList = ...; let y: list<Name> = ...;` -/
def blockStatements : List Statement :=
  [.typeAlias (aliasOf "Name" (.scalar .i32)), .typed nameList,
    .typed (.genericList (.structRef "Name".toList))]

def noBounds : Name → Name → Text → TypeNode → TypeNode → Option Text := fun _ _ _ _ _ => none

def blockPlaced : List Placed :=
  [⟨⟨∅, ∅, .global nameAliases⟩, .scalar .i32, .scalar .i32, []⟩,
    ⟨blockContext, nameList, .genericList (.scalar .i32), []⟩,
    ⟨blockContext, .genericList (.structRef "Name".toList), .genericList (.scalar .i32), []⟩]

variable {kind : TypeKinds.TypeKind} {nameOf : Entity → Name} {subst : Name → Option TypeNode}

theorem uses_scalar : ¬Uses ctx params (.scalar kind) d := fun h =>
  let ⟨_, hc, _⟩ := (uses_node (t := .scalar kind) trivial).1 h
  nomatch hc

theorem denotes_genericList (h : Denotes nameOf ctx subst (.genericList c) r) :
    ∃ r', r = .genericList r' ∧ Denotes nameOf ctx subst c r' := by
  generalize ht : TypeNode.genericList c = t at h
  cases h with
  | node hnode hchildren =>
    subst ht
    cases hchildren with
    | cons hhead htail =>
      cases htail
      exact ⟨_, rfl, hhead⟩
  | _ => exact nomatch ht

theorem denotes_scalar (h : Denotes nameOf ctx subst (.scalar kind) r) : r = .scalar kind := by
  generalize ht : TypeNode.scalar kind = t at h
  cases h with
  | node hnode hchildren =>
    subst ht
    rfl
  | _ => exact nomatch ht

theorem denotes_alias (hread : ctx.reading n = .alias d)
    (h : Denotes nameOf ctx (fun _ => none) (.structRef n) r) :
    Denotes nameOf d.context (fun _ => none) d.info.aliasedType r := by
  generalize ht : TypeNode.structRef n = t at h
  cases h with
  | argument harg => exact nomatch harg
  | name _ hread' =>
    obtain rfl := TypeNode.structRef.inj ht
    exact nomatch hread.symm.trans hread'
  | definition _ hread' _ hbody =>
    obtain rfl := TypeNode.structRef.inj ht
    obtain rfl := Reading.alias.inj (hread.symm.trans hread')
    exact hbody
  | node hnode _ =>
    subst ht
    exact hnode.elim
  | _ => exact nomatch ht

end Mlang.AliasHygiene
