import Mlang.Expansions
import Mlang.Monomorphization

namespace Mlang.TypeTraversals

open TypeKinds Mangling Monomorphization Expansions List

/-! What the passes over type nodes have in common: a name is treated by the pass, every other
node is rebuilt from its children. -/

variable {ts : List TypeNode} {n : Name} {t : TypeNode}

/-- A node that is no name: a pass only rebuilds it. -/
def IsNode : TypeNode → Prop
  | .structRef _ | .genericStruct _ _ => False
  | _ => True

def children : TypeNode → List TypeNode
  | .scalar _ | .structRef _ | .traitObject _ => []
  | .genericStruct _ args => args
  | .genericList e | .array e _ | .multiArray e _ _ | .pointer e | .reference e _ => [e]
  | .map k v => [k, v]
  | .tuple es => es
  | .function ps r => ps ++ [r]

def withChildren : TypeNode → List TypeNode → TypeNode
  | .genericStruct n _, args => .genericStruct n args
  | .genericList _, [e] => .genericList e
  | .array _ capacity, [e] => .array e capacity
  | .multiArray _ capacity isMutable, [e] => .multiArray e capacity isMutable
  | .pointer _, [e] => .pointer e
  | .reference _ isMutable, [e] => .reference e isMutable
  | .map _ _, [k, v] => .map k v
  | .tuple _, es => .tuple es
  | .function _ _, ts => .function ts.dropLast (ts.getLastD (.scalar .void))
  | t, _ => t

variable {c s : TypeNode}

theorem withChildren_children (t : TypeNode) : withChildren t (children t) = t := by
  cases t with
  | function ps r => simp [children, withChildren]
  | _ => rfl

theorem children_withChildren (hlen : ts.length = (children t).length) :
    children (withChildren t ts) = ts := by
  cases t with
  | scalar | structRef | traitObject => exact (length_eq_zero_iff.1 hlen).symm
  | genericStruct | tuple => rfl
  | genericList | array | multiArray | pointer | reference =>
    obtain ⟨e, rfl⟩ := length_eq_one_iff.1 hlen
    rfl
  | map =>
    obtain ⟨k, v, rfl⟩ := length_eq_two.1 hlen
    rfl
  | function ps r =>
    have hne : ts ≠ [] := by
      rintro rfl
      simp [children] at hlen
    rw [withChildren, children, getLastD_eq_getLast?, getLast?_eq_some_getLast hne,
      Option.getD_some, dropLast_concat_getLast hne]

theorem isNode_withChildren (h : IsNode t) (hlen : ts.length = (children t).length) :
    IsNode (withChildren t ts) := by
  cases t with
  | structRef | genericStruct => exact h.elim
  | scalar | traitObject | tuple | function => trivial
  | genericList | array | multiArray | pointer | reference =>
    obtain ⟨e, rfl⟩ := length_eq_one_iff.1 hlen
    trivial
  | map =>
    obtain ⟨k, v, rfl⟩ := length_eq_two.1 hlen
    trivial

theorem withChildren_withChildren {us : List TypeNode} (hts : ts.length = (children t).length)
    (hus : us.length = (children t).length) :
    withChildren (withChildren t ts) us = withChildren t us := by
  cases t with
  | scalar | structRef | traitObject | genericStruct | tuple | function => rfl
  | genericList | array | multiArray | pointer | reference =>
    obtain ⟨a, rfl⟩ := length_eq_one_iff.1 hts
    obtain ⟨b, rfl⟩ := length_eq_one_iff.1 hus
    rfl
  | map =>
    obtain ⟨k, v, rfl⟩ := length_eq_two.1 hts
    obtain ⟨k', v', rfl⟩ := length_eq_two.1 hus
    rfl

theorem sizeOf_child (h : c ∈ children t) : sizeOf c < sizeOf t := by
  cases t with
  | scalar | structRef | traitObject => exact nomatch h
  | genericStruct n args =>
    have : sizeOf c < sizeOf args := sizeOf_lt_of_mem h
    simp only [TypeNode.genericStruct.sizeOf_spec]
    omega
  | genericList | array | multiArray | pointer | reference =>
    obtain rfl := mem_singleton.1 h
    simp +arith
  | map k v =>
    rcases mem_pair.1 h with rfl | rfl <;>
      (simp only [TypeNode.map.sizeOf_spec]; omega)
  | tuple es =>
    have : sizeOf c < sizeOf es := sizeOf_lt_of_mem h
    simp only [TypeNode.tuple.sizeOf_spec]
    omega
  | function ps r =>
    rcases mem_append.1 h with h | h
    · have := sizeOf_lt_of_mem h
      simp only [TypeNode.function.sizeOf_spec]
      omega
    · obtain rfl := mem_singleton.1 h
      simp only [TypeNode.function.sizeOf_spec]
      omega

@[elab_as_elim]
theorem induction_children {P : TypeNode → Prop} (name : ∀ n, P (.structRef n))
    (generic : ∀ n args, (∀ a ∈ args, P a) → P (.genericStruct n args))
    (node : ∀ t, IsNode t → (∀ c ∈ children t, P c) → P t) (t : TypeNode) : P t := by
  induction hsize : sizeOf t using Nat.strong_induction_on generalizing t with
  | _ size ih =>
    have hchildren : ∀ c ∈ children t, P c := fun c hc =>
      ih (sizeOf c) (hsize ▸ sizeOf_child hc) c rfl
    cases t with
    | structRef n => exact name n
    | genericStruct n args => exact generic n args hchildren
    | _ => exact node _ trivial hchildren

/-- `s` is a part of `t`, or `t` itself. -/
inductive Within (s : TypeNode) : TypeNode → Prop
  | here : Within s s
  | inside {c t : TypeNode} : c ∈ children t → Within s c → Within s t

theorem Within.trans {r : TypeNode} (h : Within r s) (h' : Within s t) : Within r t := by
  induction h' with
  | here => exact h
  | inside hc _ ih => exact .inside hc ih

theorem within_structRef : Within s (.structRef n) ↔ s = .structRef n := by
  constructor
  · rintro (_ | ⟨hc, -⟩)
    · rfl
    · exact nomatch hc
  · rintro rfl
    exact .here

theorem within_genericStruct {args : List TypeNode} :
    Within s (.genericStruct n args) ↔ s = .genericStruct n args ∨ ∃ a ∈ args, Within s a := by
  constructor
  · rintro (_ | ⟨hc, h⟩)
    · exact .inl rfl
    · exact .inr ⟨_, hc, h⟩
  · rintro (rfl | ⟨a, ha, h⟩)
    · exact .here
    · exact .inside ha h

theorem Within.child (h : Within s t) (hs : ¬IsNode s) (ht : IsNode t) :
    ∃ c ∈ children t, Within s c := by
  cases h with
  | here => exact absurd ht hs
  | inside hc h => exact ⟨_, hc, h⟩

section Passes

/- A pass which only treats names, and reports. The arguments of a generic name are treated
first, and the children of a node from left to right. -/
variable {R : Type} (onName : Name → Reporting R TypeNode)
  (onGeneric : Name → List TypeNode → Reporting R TypeNode)

mutual

def rebuild : TypeNode → Reporting R TypeNode
  | .genericList e => do
    let e ← rebuild e
    pure (.genericList e)
  | .array e capacity => do
    let e ← rebuild e
    pure (.array e capacity)
  | .multiArray e capacity isMutable => do
    let e ← rebuild e
    pure (.multiArray e capacity isMutable)
  | .map k v => do
    let k ← rebuild k
    let v ← rebuild v
    pure (.map k v)
  | .tuple es => do
    let es ← rebuildList es
    pure (.tuple es)
  | .function ps r => do
    let ps ← rebuildList ps
    let r ← rebuild r
    pure (.function ps r)
  | .pointer e => do
    let e ← rebuild e
    pure (.pointer e)
  | .reference e isMutable => do
    let e ← rebuild e
    pure (.reference e isMutable)
  | .structRef n => onName n
  | .genericStruct n args => do
    let args ← rebuildList args
    onGeneric n args
  | .scalar kind => pure (.scalar kind)
  | .traitObject n => pure (.traitObject n)

def rebuildList : List TypeNode → Reporting R (List TypeNode)
  | [] => pure []
  | t :: ts => do
    let t ← rebuild t
    let ts ← rebuildList ts
    pure (t :: ts)

end

open Reporting

variable {onName onGeneric} {t' : TypeNode} {ts' : List TypeNode} {reports : List R}

theorem rebuildList_eq (ts : List TypeNode) :
    rebuildList onName onGeneric ts = each (rebuild onName onGeneric) ts := by
  induction ts with
  | nil => rfl
  | cons t ts ih => rw [rebuildList, each, ih]

theorem rebuild_genericStruct (n : Name) (args : List TypeNode) :
    rebuild onName onGeneric (.genericStruct n args) =
      each (rebuild onName onGeneric) args >>= onGeneric n := by
  rw [rebuild, rebuildList_eq]

theorem rebuild_node (ht : IsNode t) :
    rebuild onName onGeneric t =
      each (rebuild onName onGeneric) (children t) >>= fun ts => pure (withChildren t ts) := by
  cases t with
  | structRef | genericStruct => exact ht.elim
  | function ps r =>
    simp [rebuild, rebuildList_eq, children, each_append, each, withChildren]
  | _ => simp [rebuild, rebuildList_eq, children, each, withChildren]

theorem rebuild_below {onName' : Name → Reporting R TypeNode}
    {onGeneric' : Name → List TypeNode → Reporting R TypeNode} (hname : ∀ n, (onName n).Below (onName' n))
    (hgeneric : ∀ n args, (onGeneric n args).Below (onGeneric' n args)) (t : TypeNode) :
    (rebuild onName onGeneric t).Below (rebuild onName' onGeneric' t) := by
  induction t using induction_children with
  | name n => exact hname n
  | generic n args ih =>
    rw [rebuild_genericStruct, rebuild_genericStruct]
    exact (each_below ih).bind (hgeneric n)
  | node t ht ih =>
    rw [rebuild_node ht, rebuild_node ht]
    exact (each_below ih).bind fun ts => .refl _

end Passes

variable {typeParams : List Name} {typeArgs : List TypeNode}

theorem substituteTypeParamsList_eq (ts : List TypeNode) :
    substituteTypeParamsList typeParams typeArgs ts =
      ts.map (substituteTypeParams typeParams typeArgs) := by
  induction ts with
  | nil => rfl
  | cons t ts ih => rw [substituteTypeParamsList, map_cons, ih]

theorem substituteTypeParams_genericStruct (n : Name) (args : List TypeNode) :
    substituteTypeParams typeParams typeArgs (.genericStruct n args) =
      .genericStruct n (args.map (substituteTypeParams typeParams typeArgs)) := by
  rw [substituteTypeParams, substituteTypeParamsList_eq]

theorem substituteTypeParams_node (ht : IsNode t) :
    substituteTypeParams typeParams typeArgs t =
      withChildren t ((children t).map (substituteTypeParams typeParams typeArgs)) := by
  cases t with
  | structRef | genericStruct => exact ht.elim
  | _ => simp [substituteTypeParams, substituteTypeParamsList_eq, children, withChildren]

theorem substituteTypeParams_nil (t : TypeNode) : substituteTypeParams [] [] t = t := by
  induction t using induction_children with
  | name n => rfl
  | generic n args ih =>
    rw [substituteTypeParams_genericStruct, map_congr_left ih, map_id']
  | node t ht ih =>
    rw [substituteTypeParams_node ht, map_congr_left ih, map_id', withChildren_children]

theorem lookupTypeParam_eq_none_iff (hlen : typeArgs.length = typeParams.length) :
    lookupTypeParam n typeParams typeArgs = none ↔ n ∉ typeParams := by
  induction typeParams generalizing typeArgs with
  | nil => exact ⟨fun _ => not_mem_nil, fun _ => rfl⟩
  | cons p ps ih =>
    obtain ⟨a, as, rfl⟩ := exists_cons_of_length_eq_add_one hlen
    rw [lookupTypeParam, mem_cons, not_or]
    by_cases hn : n = p
    · simp [hn]
    · simp [hn, ih (Nat.succ.inj hlen)]

theorem mem_of_lookupTypeParam {a : TypeNode} (h : lookupTypeParam n typeParams typeArgs = some a) :
    a ∈ typeArgs := by
  induction typeParams generalizing typeArgs with
  | nil => exact nomatch h
  | cons p ps ih =>
    rcases typeArgs with _ | ⟨b, as⟩
    · exact nomatch h
    · rw [lookupTypeParam] at h
      split at h
      · rw [Option.some.inj h]
        exact mem_cons_self
      · exact mem_cons_of_mem _ (ih h)

theorem lookupTypeParam_map (f : TypeNode → TypeNode) (n : Name) :
    lookupTypeParam n typeParams (typeArgs.map f) = (lookupTypeParam n typeParams typeArgs).map f := by
  induction typeParams generalizing typeArgs with
  | nil => rfl
  | cons p ps ih =>
    rcases typeArgs with _ | ⟨b, as⟩
    · rfl
    · rw [map_cons, lookupTypeParam, lookupTypeParam]
      split
      · rfl
      · exact ih

variable (g : Name → Name)

mutual

def renameNames : TypeNode → TypeNode
  | .scalar kind => .scalar kind
  | .structRef n => .structRef (g n)
  | .genericStruct n args => .genericStruct (g n) (renameNamesList args)
  | .genericList e => .genericList (renameNames e)
  | .array e capacity => .array (renameNames e) capacity
  | .multiArray e capacity isMutable => .multiArray (renameNames e) capacity isMutable
  | .map k v => .map (renameNames k) (renameNames v)
  | .tuple es => .tuple (renameNamesList es)
  | .pointer e => .pointer (renameNames e)
  | .reference e isMutable => .reference (renameNames e) isMutable
  | .function ps r => .function (renameNamesList ps) (renameNames r)
  | .traitObject n => .traitObject n

def renameNamesList : List TypeNode → List TypeNode
  | [] => []
  | t :: ts => renameNames t :: renameNamesList ts

end

theorem renameNamesList_eq (ts : List TypeNode) : renameNamesList g ts = ts.map (renameNames g) := by
  induction ts with
  | nil => rfl
  | cons t ts ih => rw [renameNamesList, map_cons, ih]

theorem renameNames_genericStruct (n : Name) (args : List TypeNode) :
    renameNames g (.genericStruct n args) = .genericStruct (g n) (args.map (renameNames g)) := by
  rw [renameNames, renameNamesList_eq]

theorem renameNames_withChildren (ht : IsNode t) (hlen : ts.length = (children t).length) :
    renameNames g (withChildren t ts) = withChildren t (ts.map (renameNames g)) := by
  cases t with
  | structRef | genericStruct => exact ht.elim
  | scalar | traitObject => rfl
  | tuple => exact congrArg TypeNode.tuple (renameNamesList_eq g ts)
  | genericList | array | multiArray | pointer | reference =>
    obtain ⟨e, rfl⟩ := length_eq_one_iff.1 hlen
    rfl
  | map =>
    obtain ⟨k, v, rfl⟩ := length_eq_two.1 hlen
    rfl
  | function ps r =>
    have hne : ts ≠ [] := by
      rintro rfl
      simp [children] at hlen
    obtain ⟨us, u, rfl⟩ := eq_nil_or_concat ts |>.resolve_left hne
    simp [withChildren, renameNames, renameNamesList_eq]

end Mlang.TypeTraversals
