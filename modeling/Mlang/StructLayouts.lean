import Mathlib.Data.Set.Lattice
import Mlang.Monomorphization
import Mlang.Transitions

namespace Mlang.StructLayouts

open TypeKinds Mangling Monomorphization Transitions List Option

inductive IRType (K : Type)
  | int (width : Nat)
  | struct (structName : Name)
  | other (kind : K)
  deriving DecidableEq

variable {K : Type}

structure Packing (K : Type) where
  memberTypes : List (IRType K)
  members : List (Name × TypeNode)
  layouts : List StructFieldLayout
  packingBitRun : Bool
  packedStorageIndex : Nat
  packedBitOffset : Nat

namespace Packing

def openUnit (p : Packing K) : Packing K :=
  if !p.packingBitRun || 8 ≤ p.packedBitOffset then
    { p with
      memberTypes := p.memberTypes ++ [.int 8]
      packingBitRun := true
      packedStorageIndex := p.memberTypes.length
      packedBitOffset := 0 }
  else p

def placeBit (p : Packing K) (member : Name × TypeNode) : Packing K :=
  { p with
    members := p.members ++ [member]
    layouts := p.layouts ++ [⟨p.packedStorageIndex, true, p.packedBitOffset⟩]
    packedBitOffset := p.packedBitOffset + 1 }

def placePlain (p : Packing K) (member : Name × TypeNode) (memberType : IRType K) : Packing K :=
  { p with
    memberTypes := p.memberTypes ++ [memberType]
    members := p.members ++ [member]
    layouts := p.layouts ++ [⟨p.memberTypes.length, false, 0⟩]
    packingBitRun := false
    packedBitOffset := 0 }

/-- One turn of the loop; a member without a type in the intermediate representation ends it. -/
def addMember (llvmType : TypeNode → Option (IRType K)) (p : Packing K) (member : Name × TypeNode) :
    Option (Packing K) :=
  if isBitFieldTypeNode member.2 then some (p.openUnit.placeBit member)
  else (llvmType member.2).map (p.placePlain member)

def addMembers (llvmType : TypeNode → Option (IRType K)) :
    Packing K → List (Name × TypeNode) → Option (Packing K)
  | p, [] => some p
  | p, member :: rest => (p.addMember llvmType member).bind fun q => addMembers llvmType q rest

end Packing

variable {member : Name × TypeNode}

variable {types : List (IRType K)} {layouts : List StructFieldLayout} {members : List (Name × TypeNode)}

structure Fits (types : List (IRType K)) (l : StructFieldLayout) : Prop where
  inside : l.storageIndex < types.length
  unit : l.packedBit = true → types[l.storageIndex]? = some (.int 8) ∧ l.bitOffset < 8

def Apart (l l' : StructFieldLayout) : Prop :=
  l.storageIndex ≠ l'.storageIndex ∨
    (l.packedBit = true ∧ l'.packedBit = true ∧ l.bitOffset ≠ l'.bitOffset)

structure WellLaid (types : List (IRType K)) (members : List (Name × TypeNode))
    (layouts : List StructFieldLayout) : Prop where
  kinds : layouts.map (·.packedBit) = members.map fun member => isBitFieldTypeNode member.2
  fits : ∀ l ∈ layouts, Fits types l
  apart : layouts.Pairwise Apart

variable {l : StructFieldLayout}

theorem Apart.symm {l' : StructFieldLayout} (h : Apart l l') : Apart l' l := by
  rcases h with h | ⟨hl, hl', h⟩
  · exact Or.inl h.symm
  · exact Or.inr ⟨hl', hl, h.symm⟩

theorem Fits.append (h : Fits types l) (more : List (IRType K)) : Fits (types ++ more) l := by
  constructor
  · simpa using Nat.lt_add_right more.length h.inside
  · intro hl
    rw [getElem?_append_left h.inside]
    exact h.unit hl

theorem WellLaid.empty : WellLaid (K := K) [] [] [] := ⟨rfl, by simp, .nil⟩

variable (h : WellLaid types members layouts)
include h

theorem WellLaid.append_types (more : List (IRType K)) :
    WellLaid (types ++ more) members layouts :=
  ⟨h.kinds, fun l hl => (h.fits l hl).append more, h.apart⟩

theorem WellLaid.append_member (hkind : l.packedBit = isBitFieldTypeNode member.2) (hfits : Fits types l)
    (hapart : ∀ l' ∈ layouts, Apart l' l) : WellLaid types (members ++ [member]) (layouts ++ [l]) := by
  refine ⟨?_, ?_, ?_⟩
  · simp [h.kinds, hkind]
  · intro l' hl'
    rcases mem_append.1 hl' with hl' | hl'
    · exact h.fits l' hl'
    · exact mem_singleton.1 hl' ▸ hfits
  · refine pairwise_append.2 ⟨h.apart, pairwise_singleton _ _, ?_⟩
    intro l' hl' l'' hl''
    exact mem_singleton.1 hl'' ▸ hapart l' hl'

theorem WellLaid.apart_of_ne {i j : Nat}
    {li lj : StructFieldLayout} (hi : layouts[i]? = some li) (hj : layouts[j]? = some lj)
    (hne : i ≠ j) : Apart li lj := by
  obtain ⟨hilt, rfl⟩ := List.getElem?_eq_some_iff.1 hi
  obtain ⟨hjlt, rfl⟩ := List.getElem?_eq_some_iff.1 hj
  rcases Nat.lt_or_gt_of_ne hne with hlt | hlt
  · exact pairwise_iff_getElem.1 h.apart i j hilt hjlt hlt
  · exact (pairwise_iff_getElem.1 h.apart j i hjlt hilt hlt).symm

omit h

variable {p q : Packing K} {llvmType : TypeNode → Option (IRType K)}

/-- What the loop keeps: the members placed so far are well laid, and no bit of the open unit is
taken from `packedBitOffset` on. -/
structure Packing.Good (p : Packing K) : Prop where
  laid : WellLaid p.memberTypes p.members p.layouts
  unit : p.packingBitRun = true → p.memberTypes[p.packedStorageIndex]? = some (.int 8)
  free : p.packingBitRun = true → ∀ l ∈ p.layouts, l.storageIndex = p.packedStorageIndex →
    l.packedBit = true ∧ l.bitOffset < p.packedBitOffset

structure Packing.Open (p : Packing K) : Prop extends p.Good where
  run : p.packingBitRun = true
  room : p.packedBitOffset < 8

theorem Packing.Good.openUnit (h : p.Good) : p.openUnit.Open := by
  unfold Packing.openUnit
  split
  · refine ⟨⟨h.laid.append_types _, fun _ => by simp, fun _ l hl hidx => ?_⟩, rfl, Nat.zero_lt_succ 7⟩
    -- the new unit has no member yet
    exact absurd hidx (Nat.ne_of_lt (h.laid.fits l hl).inside)
  · next hopen =>
    simp only [Bool.or_eq_true, Bool.not_eq_true', decide_eq_true_eq, not_or, Nat.not_le,
      Bool.not_eq_false] at hopen
    exact ⟨h, hopen.1, hopen.2⟩

theorem Packing.Open.placeBit (h : p.Open) (hbit : isBitFieldTypeNode member.2 = true) :
    (p.placeBit member).Good := by
  have hunit := h.unit h.run
  obtain ⟨hinside, -⟩ := List.getElem?_eq_some_iff.1 hunit
  refine ⟨?_, fun _ => hunit, fun _ l hl hidx => ?_⟩
  · refine h.laid.append_member hbit.symm ⟨hinside, fun _ => ⟨hunit, h.room⟩⟩ ?_
    intro l hl
    by_cases hidx : l.storageIndex = p.packedStorageIndex
    · obtain ⟨hpacked, hlt⟩ := h.free h.run l hl hidx
      exact Or.inr ⟨hpacked, rfl, Nat.ne_of_lt hlt⟩
    · exact Or.inl hidx
  · rcases mem_append.1 hl with hl | hl
    · obtain ⟨hpacked, hlt⟩ := h.free h.run l hl hidx
      exact ⟨hpacked, Nat.lt_succ_of_lt hlt⟩
    · obtain rfl := mem_singleton.1 hl
      exact ⟨rfl, Nat.lt_succ_self _⟩

theorem Packing.Good.placePlain (h : p.Good) (hplain : isBitFieldTypeNode member.2 = false)
    (memberType : IRType K) : (p.placePlain member memberType).Good := by
  refine ⟨?_, fun hrun => (nomatch hrun), fun hrun => (nomatch hrun)⟩
  refine (h.laid.append_types [memberType]).append_member hplain.symm
    ⟨by simp, fun hpacked => (nomatch hpacked)⟩ ?_
  intro l hl
  exact Or.inl (Nat.ne_of_lt (h.laid.fits l hl).inside)

theorem Packing.Good.addMember (h : p.Good) (hadd : p.addMember llvmType member = some q) : q.Good := by
  unfold Packing.addMember at hadd
  split at hadd
  · next hbit =>
    cases hadd
    exact h.openUnit.placeBit hbit
  · next hplain =>
    obtain ⟨memberType, -, rfl⟩ := map_eq_some_iff.1 hadd
    exact h.placePlain (Bool.eq_false_iff.2 hplain) memberType

theorem Packing.Good.addMembers (members : List (Name × TypeNode)) (h : p.Good)
    (hadd : p.addMembers llvmType members = some q) : q.Good := by
  induction members generalizing p with
  | nil =>
    cases hadd
    exact h
  | cons member rest ih =>
    obtain ⟨next, hnext, hadd⟩ := bind_eq_some_iff.1 hadd
    exact ih (h.addMember hnext) hadd

/-- What of the loop places a member; the types do not count, only how many there are. -/
def Packing.cursor (p : Packing K) : Monomorphization.Packing :=
  ⟨p.packingBitRun, p.packedStorageIndex, p.packedBitOffset, p.memberTypes.length⟩

theorem Packing.addMember_layouts (h : p.addMember llvmType member = some q) :
    q.layouts = p.layouts ++ [(p.cursor.place member.2).1] ∧ q.cursor = (p.cursor.place member.2).2 := by
  unfold Packing.addMember at h
  unfold Monomorphization.Packing.place
  split at h
  · next hbit =>
    cases h
    rw [if_pos hbit]
    unfold openUnit
    by_cases hopen : (!p.packingBitRun || decide (8 ≤ p.packedBitOffset)) = true
    · have hcursor : (!p.cursor.packingBitRun || decide (p.cursor.packedBitOffset ≥ 8)) = true := hopen
      rw [if_pos hopen, if_pos hcursor]
      exact ⟨rfl, by simp [placeBit, cursor]⟩
    · have hcursor : ¬(!p.cursor.packingBitRun || decide (p.cursor.packedBitOffset ≥ 8)) = true := hopen
      rw [if_neg hopen, if_neg hcursor]
      exact ⟨rfl, rfl⟩
  · next hplain =>
    obtain ⟨memberType, -, rfl⟩ := map_eq_some_iff.1 h
    rw [if_neg hplain]
    exact ⟨rfl, by simp [placePlain, cursor]⟩

theorem Packing.addMembers_layouts {members : List (Name × TypeNode)}
    (h : p.addMembers llvmType members = some q) :
    q.layouts = p.layouts ++ p.cursor.layouts (members.map Prod.snd) := by
  induction members generalizing p with
  | nil =>
    cases h
    exact (append_nil _).symm
  | cons member rest ih =>
    obtain ⟨next, hnext, h⟩ := bind_eq_some_iff.1 h
    obtain ⟨hlayouts, hcursor⟩ := addMember_layouts hnext
    rw [ih h, hlayouts, hcursor, append_assoc]
    rfl

structure StructTables (K : Type) where
  genericStructTemplates : Name → Option StructDefNode
  structTypes : Name → Option (List (IRType K))
  structMembers : Name → Option (List (Name × TypeNode))
  structFieldLayouts : Name → Option (List StructFieldLayout)
  monomorphizedTypes : Name → Bool

namespace StructTables

def initial (templates : Name → Option StructDefNode) : StructTables K :=
  ⟨templates, fun _ => none, fun _ => none, fun _ => none, fun _ => false⟩

def register (tables : StructTables K) (structName : Name) (p : Packing K) : StructTables K :=
  { tables with
    structTypes := Function.update tables.structTypes structName (some p.memberTypes)
    structMembers := Function.update tables.structMembers structName (some p.members)
    structFieldLayouts := Function.update tables.structFieldLayouts structName (some p.layouts) }

/-- The loop starts with what the base struct has. Of a base that is not declared an error is
reported and the struct gets its own members only. -/
def startOf (tables : StructTables K) (baseName : Name) : Packing K :=
  if baseName = [] then ⟨[], [], [], false, 0, 0⟩
  else
    match tables.structMembers baseName with
    | some members =>
      ⟨(tables.structTypes baseName).getD [], members,
        (tables.structFieldLayouts baseName).getD [], false, 0, 0⟩
    | none => ⟨[], [], [], false, 0, 0⟩

def generateStructDefinition (tables : StructTables K) (llvmType : TypeNode → Option (IRType K))
    (structName baseName : Name) (node : StructDefNode) : Option (StructTables K) :=
  ((tables.startOf baseName).addMembers llvmType node.members).map (tables.register structName)

/-- `boundsSatisfied` is the answer of `validateTypeArgumentTraitBounds`. -/
def monomorphizeStruct (tables : StructTables K) (llvmType : TypeNode → Option (IRType K))
    (boundsSatisfied : Bool) (genericName : Name) (typeArgs : List TypeNode) (mangledName : Name) :
    Option (StructTables K) := do
  let node ← tables.genericStructTemplates genericName
  if node.typeParams.length ≠ typeArgs.length then none
  else if !boundsSatisfied then none
  else
    let p ← Packing.addMembers llvmType ⟨[], [], [], false, 0, 0⟩
      (node.members.map fun member =>
        (member.1, substituteTypeParams node.typeParams typeArgs member.2))
    some { tables.register mangledName p with
      monomorphizedTypes := Function.update tables.monomorphizedTypes mangledName true }

/-- The name under which `getOrCreateMonomorphizedStruct` finds an instance. -/
def monomorphizedName (tables : StructTables K) (genericName : Name) (typeArgs : List TypeNode) :
    Name :=
  if tables.monomorphizedTypes (generateMangledName genericName typeArgs) then
    generateMangledName genericName typeArgs
  else if (tables.genericStructTemplates genericName).isNone then genericName
  else generateMangledName genericName typeArgs

end StructTables

/-- An instance is laid out as its members are under the arguments. -/
theorem StructTables.monomorphizeStruct_layouts {tables tables' : StructTables K}
    {boundsSatisfied : Bool} {genericName mangledName : Name} {typeArgs : List TypeNode} {node : StructDefNode}
    (hnode : tables.genericStructTemplates genericName = some node)
    (h : tables.monomorphizeStruct llvmType boundsSatisfied genericName typeArgs mangledName = some tables') :
    tables'.structFieldLayouts mangledName = some (Monomorphization.Packing.start.layouts
      (substituteTypeParamsList node.typeParams typeArgs node.memberTypes)) := by
  simp only [StructTables.monomorphizeStruct, bind_eq_bind, bind_eq_some_iff] at h
  obtain ⟨node', hnode', h⟩ := h
  obtain rfl := some.inj (hnode.symm.trans hnode')
  split at h
  · cases h
  split at h
  · cases h
  obtain ⟨p, hp, h⟩ := bind_eq_some_iff.1 h
  cases h
  have htypes : substituteTypeParamsList node.typeParams typeArgs node.memberTypes =
      (node.members.map fun member =>
        (member.1, substituteTypeParams node.typeParams typeArgs member.2)).map Prod.snd := by
    rw [substituteTypeParamsList_eq_map, StructDefNode.memberTypes, List.map_map, List.map_map]
    rfl
  rw [htypes]
  exact (Function.update_self _ _ _).trans (congrArg some (Packing.addMembers_layouts hp))

/-- A struct is declared, or an instance of a generic one is asked for. The types of the members
come from `getLLVMTypeFromNode`, which knows the rest of the module. -/
inductive Declaration (K : Type)
  | struct (llvmType : TypeNode → Option (IRType K)) (structName baseName : Name)
      (node : StructDefNode)
  | instantiate (llvmType : TypeNode → Option (IRType K)) (boundsSatisfied : Bool)
      (genericName : Name) (typeArgs : List TypeNode)

def declare : Declaration K → StructTables K → Option (StructTables K)
  | .struct llvmType structName baseName node, tables =>
    tables.generateStructDefinition llvmType structName baseName node
  | .instantiate llvmType boundsSatisfied genericName typeArgs, tables =>
    let mangledName := generateMangledName genericName typeArgs
    if tables.monomorphizedTypes mangledName then some tables
    else if (tables.genericStructTemplates genericName).isNone then some tables
    else tables.monomorphizeStruct llvmType boundsSatisfied genericName typeArgs mangledName

variable {tables tables' : StructTables K}

def AllLaid (tables : StructTables K) : Prop :=
  ∀ structName, (tables.structTypes structName = none ∧ tables.structMembers structName = none ∧
      tables.structFieldLayouts structName = none) ∨
    ∃ types members layouts, tables.structTypes structName = some types ∧
      tables.structMembers structName = some members ∧
      tables.structFieldLayouts structName = some layouts ∧ WellLaid types members layouts

theorem good_empty : Packing.Good (⟨[], [], [], false, 0, 0⟩ : Packing K) :=
  ⟨.empty, fun hrun => (nomatch hrun), fun hrun => (nomatch hrun)⟩

theorem AllLaid.startOf (h : AllLaid tables) (baseName : Name) : (tables.startOf baseName).Good := by
  unfold StructTables.startOf
  split
  · exact good_empty
  · rcases h baseName with ⟨-, hmembers, -⟩ | ⟨types, members, layouts, ht, hm, hl, hlaid⟩
    · simpa only [hmembers] using good_empty
    · simp only [ht, hm, hl, getD_some]
      exact ⟨hlaid, fun hrun => (nomatch hrun), fun hrun => (nomatch hrun)⟩

theorem AllLaid.register (h : AllLaid tables) (structName : Name) {p : Packing K} (hp : p.Good) :
    AllLaid (tables.register structName p) := by
  intro name
  by_cases hname : name = structName
  · subst hname
    exact Or.inr ⟨_, _, _, by simp [StructTables.register], by simp [StructTables.register],
      by simp [StructTables.register], hp.laid⟩
  · simpa [StructTables.register, Function.update_of_ne hname] using h name

theorem AllLaid.declare (h : AllLaid tables) {d : Declaration K}
    (hd : StructLayouts.declare d tables = some tables') : AllLaid tables' := by
  cases d with
  | struct llvmType structName baseName node =>
    obtain ⟨p, hp, rfl⟩ := map_eq_some_iff.1 hd
    exact h.register _ ((h.startOf baseName).addMembers _ hp)
  | instantiate llvmType boundsSatisfied genericName typeArgs =>
    simp only [StructLayouts.declare] at hd
    split at hd
    · exact some.inj hd ▸ h
    split at hd
    · exact some.inj hd ▸ h
    simp only [StructTables.monomorphizeStruct, bind_eq_bind, bind_eq_some_iff] at hd
    obtain ⟨node, -, hd⟩ := hd
    split at hd
    · cases hd
    split at hd
    · cases hd
    obtain ⟨p, hp, hd⟩ := bind_eq_some_iff.1 hd
    cases hd
    exact h.register _ (good_empty.addMembers _ hp)

theorem allLaid_of_reachable {templates : Name → Option StructDefNode}
    (h : Reachable StructLayouts.declare (StructTables.initial templates) tables) : AllLaid tables := by
  refine h.invariant ?_ fun _ _ _ hs _ hstep => hs.declare hstep
  exact fun _ => Or.inl ⟨rfl, rfl, rfl⟩

end Mlang.StructLayouts
