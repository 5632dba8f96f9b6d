import Mlang.TypeAliases

namespace Mlang.AliasScopes

open Mangling FiniteMaps Expansions TypeAliases Option
open BracketedText (Text)

/-! Alias declarations with the place they stand at. The pass keeps one table, which it overwrites
and restores; here a declaration adds to what was visible before it. -/

variable {n : Name}

inductive Env
  | global (typeAliases : AliasTable)
  | declare (outer : Env) (scope : Finset Name) (name : Name) (info : TypeAliasInfo)

/-- An alias, the type parameters in scope where it is declared, and what is visible there. -/
structure Declaration where
  name : Name
  info : TypeAliasInfo
  scope : Finset Name
  env : Env

def Env.table : Env → AliasTable
  | .global typeAliases => typeAliases
  | .declare outer _ name info => outer.table.insert name info

/-- A global alias sees all global aliases. -/
def Env.lookup : Env → Name → Option Declaration
  | .global typeAliases, n =>
    (typeAliases.lookup n).map fun info => ⟨n, info, ∅, .global typeAliases⟩
  | .declare outer scope name info, n =>
    if n = name then some ⟨name, info, scope, outer⟩ else outer.lookup n

def Env.find (env : Env) (n : Name) : Option Declaration := (findBy env.lookup n).map Prod.snd

variable {env : Env} {d : Declaration}

theorem lookup_table (env : Env) (n : Name) :
    env.table.lookup n = (env.lookup n).map Declaration.info := by
  induction env with
  | global typeAliases =>
    rw [Env.table, Env.lookup, map_map]
    exact map_id'.symm
  | declare outer scope name info ih =>
    rw [Env.table, Env.lookup]
    by_cases hn : n = name
    · rw [if_pos hn, hn, Finmap.lookup_insert]
      rfl
    · rw [if_neg hn, Finmap.lookup_insert_of_ne _ hn, ih]

theorem name_of_lookup (h : env.lookup n = some d) : d.name = n := by
  induction env with
  | global typeAliases =>
    obtain ⟨info, -, rfl⟩ := map_eq_some_iff.1 h
    rfl
  | declare outer scope name info ih =>
    rw [Env.lookup] at h
    split at h
    next hn =>
      rw [← some.inj h, hn]
    next => exact ih h

theorem findAlias_table (env : Env) (n : Name) :
    findAlias env.table n = (env.find n).map fun d => (d.name, d.info) := by
  have hby : ∀ m, (env.table.lookup m).map (fun info => (m, info)) =
      (env.lookup m).map fun d => (d.name, d.info) := by
    intro m
    rw [lookup_table, map_map]
    rcases hm : env.lookup m with _ | d
    · rfl
    · simp [name_of_lookup hm]
  rw [findAlias, Env.find, findBy, findBy, lookup_table]
  rcases hn : env.lookup n with _ | d
  · rcases scopeTail n with _ | _ | ⟨c, tail⟩
    · rfl
    · rfl
    · simp [hby, Function.comp_def]
  · simp [name_of_lookup hn]

theorem lookup_of_find (h : env.find n = some d) : env.lookup d.name = some d := by
  rw [Env.find, findBy] at h
  rcases hn : env.lookup n with _ | d'
  · rw [hn] at h
    rcases ht : scopeTail n with _ | _ | ⟨c, tail⟩ <;> rw [ht] at h
    · exact nomatch h
    · exact nomatch h
    · rw [map_map] at h
      obtain ⟨d', hd', rfl⟩ := map_eq_some_iff.1 h
      exact (name_of_lookup hd').symm ▸ hd'
  · rw [hn] at h
    cases h
    exact (name_of_lookup hn).symm ▸ hn

/-- Where a type is written. `own` are the parameters of the alias whose type it is, when that is
resolved at its declaration. -/
structure Context where
  own : Finset Name
  scope : Finset Name
  env : Env

def Context.kept (ctx : Context) : Finset Name := ctx.scope ∪ ctx.own

def Declaration.context (d : Declaration) : Context := ⟨∅, d.scope, d.env⟩

inductive Entity
  | own (n : Name)
  | parameter (n : Name)
  | nominal (n : Name)
  deriving DecidableEq

inductive Reading
  | entity (e : Entity)
  | alias (d : Declaration)

def Context.reading (ctx : Context) (n : Name) : Reading :=
  if n ∈ ctx.own then .entity (.own n)
  else if n ∈ ctx.scope then .entity (.parameter n)
  else
    match ctx.env.find n with
    | some d => .alias d
    | none => .entity (.nominal n)

variable {ctx : Context} {e : Entity}

theorem reading_eq_alias_iff : ctx.reading n = .alias d ↔ n ∉ ctx.kept ∧ ctx.env.find n = some d := by
  rw [Context.reading, Context.kept, Finset.mem_union, not_or]
  split
  · simp_all
  split
  · simp_all
  split <;> simp_all

theorem of_reading_eq_entity (h : ctx.reading n = .entity e) :
    n ∈ ctx.kept ∨ findAlias ctx.env.table n = none := by
  by_cases hkept : n ∈ ctx.kept
  · exact .inl hkept
  · rw [findAlias_table, map_eq_none_iff]
    rcases hfind : ctx.env.find n with _ | d
    · exact .inr rfl
    · rw [reading_eq_alias_iff.2 ⟨hkept, hfind⟩] at h
      exact nomatch h

theorem findAlias_of_reading (h : ctx.reading n = .alias d) :
    findAlias ctx.env.table n = some (d.name, d.info) := by
  rw [findAlias_table, (reading_eq_alias_iff.1 h).2, map_some]

theorem lookup_of_reading (h : ctx.reading n = .alias d) : ctx.env.lookup d.name = some d :=
  lookup_of_find (reading_eq_alias_iff.1 h).2

/-- A call of `resolveTypeAliasNode` with the place of its type. -/
structure Placed where
  context : Context
  type : TypeNode
  result : TypeNode
  reports : List Report

def Placed.visit (p : Placed) : Visit :=
  ⟨p.context.env.table, p.context.kept, p.type, p.result, p.reports⟩

variable (unsatisfied : Name → Name → Text → TypeNode → TypeNode → Option Text) (fuel : Nat)
  (scope : Finset Name)

def placeType (ctx : Context) (type : TypeNode) : Reporting Placed TypeNode :=
  match resolveTypeAliasNode unsatisfied ctx.env.table ctx.kept fuel [] type with
  | none => none
  | some (result, reports) => some (result, [⟨ctx, type, result, reports⟩])

mutual

def placeStmt : Statement → Env → Reporting Placed Env
  | .typeAlias aliasStmt, env => do
    let typeParams := aliasTypeParams scope env.table aliasStmt
    let aliasedType ← placeType unsatisfied fuel ⟨typeParams.toFinset, scope, env⟩
      aliasStmt.aliasedType
    pure (.declare env scope aliasStmt.name (localInfo aliasStmt typeParams aliasedType))
  | .typed type, env => do
    let _ ← placeType unsatisfied fuel ⟨∅, scope, env⟩ type
    pure env
  | .nested body, env => do
    let _ ← placeStmts body env
    pure env

def placeStmts : List Statement → Env → Reporting Placed Env
  | [], env => pure env
  | stmt :: stmts, env => do
    let env ← placeStmt stmt env
    placeStmts stmts env

end

variable {unsatisfied fuel scope} {type : TypeNode}

theorem placeType_of_resolveType (ctx : Context) {result : TypeNode} {visits : List Visit}
    (h : (resolveType unsatisfied fuel ctx.env.table ctx.kept type).Returns result visits) :
    ∃ placed, (placeType unsatisfied fuel ctx type).Returns result placed ∧
      visits = placed.map Placed.visit := by
  rw [resolveType] at h
  rw [placeType]
  rcases hr : resolveTypeAliasNode unsatisfied ctx.env.table ctx.kept fuel [] type with _ | ⟨r, reports⟩
  · rw [hr] at h
    exact nomatch h
  · rw [hr] at h
    obtain ⟨rfl, rfl⟩ := Prod.mk.inj (some.inj h)
    exact ⟨[⟨ctx, type, r, reports⟩], rfl, rfl⟩

theorem undo_insert (typeAliases : AliasTable) (name : Name) (info : TypeAliasInfo) :
    undo (typeAliases.insert name info) ⟨name, typeAliases.lookup name⟩ = typeAliases := by
  refine Finmap.ext_lookup fun n => ?_
  rw [undo]
  rcases hprev : typeAliases.lookup name with _ | previous
  · by_cases hn : n = name
    · rw [hn, Finmap.lookup_erase, hprev]
    · rw [Finmap.lookup_erase_ne hn, Finmap.lookup_insert_of_ne _ hn]
  · by_cases hn : n = name
    · rw [hn, Finmap.lookup_insert, hprev]
    · rw [Finmap.lookup_insert_of_ne _ hn, Finmap.lookup_insert_of_ne _ hn]

open Reporting

mutual

theorem placed_stmt {s s' : ListState} {env : Env} {visits : List Visit}
    (hs : s.typeAliases = env.table) :
    ∀ stmt : Statement, (resolveStmt unsatisfied fuel scope stmt s).Returns s' visits →
      ∃ env' placed, (placeStmt unsatisfied fuel scope stmt env).Returns env' placed ∧
        s'.typeAliases = env'.table ∧ s'.restored = s.restored ∧ visits = placed.map Placed.visit
  | .typeAlias aliasStmt, h => by
    simp only [resolveStmt, returns_bind, returns_pure] at h
    obtain ⟨r, visits, _, hr, ⟨rfl, rfl⟩, rfl⟩ := h
    rw [hs] at hr
    obtain ⟨placed, hplaced, rfl⟩ := placeType_of_resolveType
      ⟨(aliasTypeParams scope env.table aliasStmt).toFinset, scope, env⟩ hr
    refine ⟨_, placed ++ [], hplaced.bind (returns_pure.2 ⟨rfl, rfl⟩), ?_, ?_, by simp⟩
    · rw [hs]
      rfl
    · rw [ListState.restored, List.foldl_cons, undo_insert]
      rfl
  | .typed type, h => by
    simp only [resolveStmt, returns_bind, returns_pure] at h
    obtain ⟨r, visits, _, hr, ⟨rfl, rfl⟩, rfl⟩ := h
    have hkept : scope = Context.kept ⟨∅, scope, env⟩ := (Finset.union_empty scope).symm
    rw [hs, hkept] at hr
    obtain ⟨placed, hplaced, rfl⟩ := placeType_of_resolveType ⟨∅, scope, env⟩ hr
    exact ⟨env, placed ++ [], hplaced.bind (returns_pure.2 ⟨rfl, rfl⟩), hs, rfl, by simp⟩
  | .nested body, h => by
    simp only [resolveStmt, returns_bind, returns_pure] at h
    obtain ⟨inner, visits, _, hinner, ⟨rfl, rfl⟩, rfl⟩ := h
    have hs' : ListState.typeAliases ⟨s.typeAliases, []⟩ = env.table := hs
    obtain ⟨env', placed, hplaced, -, hrestored, rfl⟩ := placed_stmts hs' body hinner
    refine ⟨env, placed ++ [], hplaced.bind (returns_pure.2 ⟨rfl, rfl⟩), ?_, ?_, by simp⟩
    · rw [hrestored, ListState.restored, List.foldl_nil, hs]
    · rw [hrestored]
      rfl

theorem placed_stmts {s s' : ListState} {env : Env} {visits : List Visit}
    (hs : s.typeAliases = env.table) :
    ∀ stmts : List Statement, (resolveStmts unsatisfied fuel scope stmts s).Returns s' visits →
      ∃ env' placed, (placeStmts unsatisfied fuel scope stmts env).Returns env' placed ∧
        s'.typeAliases = env'.table ∧ s'.restored = s.restored ∧ visits = placed.map Placed.visit
  | [], h => by
    obtain ⟨rfl, rfl⟩ := returns_pure.1 h
    exact ⟨env, [], returns_pure.2 ⟨rfl, rfl⟩, hs, rfl, rfl⟩
  | stmt :: stmts, h => by
    rw [resolveStmts, returns_bind] at h
    obtain ⟨s₁, visits₁, visits₂, h₁, h₂, rfl⟩ := h
    obtain ⟨env₁, placed₁, hplaced₁, hs₁, hrestored₁, rfl⟩ := placed_stmt hs stmt h₁
    obtain ⟨env₂, placed₂, hplaced₂, hs₂, hrestored₂, rfl⟩ := placed_stmts hs₁ stmts h₂
    exact ⟨env₂, placed₁ ++ placed₂, hplaced₁.bind hplaced₂, hs₂,
      hrestored₂.trans hrestored₁, List.map_append.symm⟩

end

theorem placed_list {env : Env} {list : List Statement} {typeAliases : AliasTable} {visits : List Visit}
    (h : (resolveStmtList unsatisfied fuel scope list env.table).Returns typeAliases visits) :
    typeAliases = env.table ∧ ∃ env' placed,
      (placeStmts unsatisfied fuel scope list env).Returns env' placed ∧
        visits = placed.map Placed.visit := by
  obtain ⟨s, visits, _, hs, hdone, rfl⟩ := returns_bind.1 h
  obtain ⟨rfl, rfl⟩ := returns_pure.1 hdone
  obtain ⟨env', placed, hplaced, -, hrestored, rfl⟩ := placed_stmts rfl list hs
  exact ⟨hrestored, env', placed, hplaced, List.append_nil _⟩

end Mlang.AliasScopes
