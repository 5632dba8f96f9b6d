import Mlang.Mangling

namespace Mlang.Monomorphization

open TypeKinds Mangling

/-- `StructTypeRefNode` case of `substituteTypeParams`. -/
def lookupTypeParam (structName : Name) : List Name → List TypeNode → Option TypeNode
  | p :: ps, a :: as => if structName = p then some a else lookupTypeParam structName ps as
  | _, _ => none

variable (typeParams : List Name) (typeArgs : List TypeNode)

mutual

def substituteTypeParams : TypeNode → TypeNode
  | .reference e isMutable => .reference (substituteTypeParams e) isMutable
  | .pointer e => .pointer (substituteTypeParams e)
  | .structRef n => (lookupTypeParam n typeParams typeArgs).getD (.structRef n)
  | .genericStruct n args => .genericStruct n (substituteTypeParamsList args)
  | .genericList e => .genericList (substituteTypeParams e)
  | .array e capacity => .array (substituteTypeParams e) capacity
  | .multiArray e capacity isMutable => .multiArray (substituteTypeParams e) capacity isMutable
  | .map k v => .map (substituteTypeParams k) (substituteTypeParams v)
  | .tuple es => .tuple (substituteTypeParamsList es)
  | .function ps r => .function (substituteTypeParamsList ps) (substituteTypeParams r)
  | .scalar kind => .scalar kind
  | .traitObject n => .traitObject n

def substituteTypeParamsList : List TypeNode → List TypeNode
  | [] => []
  | t :: ts => substituteTypeParams t :: substituteTypeParamsList ts

end

def resolveKind : TypeKind → TypeKind
  | .int => .i32
  | .string => .str8
  | k => k

mutual

/-- The two spellings of one type are identified: `int` is `i32`, `string` is `str8`. -/
def resolveType : TypeNode → TypeNode
  | .scalar kind => .scalar (resolveKind kind)
  | .structRef n => .structRef n
  | .genericStruct n args => .genericStruct n (resolveTypes args)
  | .genericList e => .genericList (resolveType e)
  | .array e capacity => .array (resolveType e) capacity
  | .multiArray e capacity isMutable => .multiArray (resolveType e) capacity isMutable
  | .map k v => .map (resolveType k) (resolveType v)
  | .tuple es => .tuple (resolveTypes es)
  | .pointer e => .pointer (resolveType e)
  | .reference e isMutable => .reference (resolveType e) isMutable
  | .function ps r => .function (resolveTypes ps) (resolveType r)
  | .traitObject n => .traitObject n

def resolveTypes : List TypeNode → List TypeNode
  | [] => []
  | t :: ts => resolveType t :: resolveTypes ts

end

theorem resolve_lookupTypeParam (n : Name) {as as' : List TypeNode}
    (h : resolveTypes as = resolveTypes as') (ps : List Name) :
    resolveType ((lookupTypeParam n ps as).getD (.structRef n)) =
      resolveType ((lookupTypeParam n ps as').getD (.structRef n)) := by
  induction ps generalizing as as' with
  | nil => rfl
  | cons p ps ih =>
    rcases as with _ | ⟨a, as⟩ <;> rcases as' with _ | ⟨a', as'⟩
    · rfl
    · simp [resolveTypes] at h
    · simp [resolveTypes] at h
    · simp only [resolveTypes, List.cons.injEq] at h
      by_cases hn : n = p
      · simpa [lookupTypeParam, hn] using h.1
      · simpa [lookupTypeParam, hn] using ih h.2

mutual

theorem resolve_substituteTypeParams {as as' : List TypeNode}
    (h : resolveTypes as = resolveTypes as') (ps : List Name) : ∀ t : TypeNode,
    resolveType (substituteTypeParams ps as t) = resolveType (substituteTypeParams ps as' t)
  | .reference e _ | .pointer e | .genericList e | .array e _ | .multiArray e _ _ => by
    simp only [substituteTypeParams, resolveType, resolve_substituteTypeParams h ps e]
  | .structRef n => resolve_lookupTypeParam n h ps
  | .genericStruct _ ts | .tuple ts => by
    simp only [substituteTypeParams, resolveType, resolve_substituteTypeParamsList h ps ts]
  | .map k v => by
    simp only [substituteTypeParams, resolveType, resolve_substituteTypeParams h ps k,
      resolve_substituteTypeParams h ps v]
  | .function ts r => by
    simp only [substituteTypeParams, resolveType, resolve_substituteTypeParamsList h ps ts,
      resolve_substituteTypeParams h ps r]
  | .scalar _ => rfl
  | .traitObject _ => rfl

theorem resolve_substituteTypeParamsList {as as' : List TypeNode}
    (h : resolveTypes as = resolveTypes as') (ps : List Name) : ∀ ts : List TypeNode,
    resolveTypes (substituteTypeParamsList ps as ts) = resolveTypes (substituteTypeParamsList ps as' ts)
  | [] => rfl
  | t :: ts => by
    simp only [substituteTypeParamsList, resolveTypes, resolve_substituteTypeParams h ps t,
      resolve_substituteTypeParamsList h ps ts]

end

theorem substituteTypeParamsList_eq_map (typeParams : List Name) (typeArgs ts : List TypeNode) :
    substituteTypeParamsList typeParams typeArgs ts = ts.map (substituteTypeParams typeParams typeArgs) := by
  induction ts with
  | nil => rfl
  | cons t ts ih => rw [substituteTypeParamsList, List.map_cons, ih]

structure StructFieldLayout where
  storageIndex : Nat
  packedBit : Bool
  bitOffset : Nat
  deriving DecidableEq

def isBitFieldTypeNode : TypeNode → Bool
  | .scalar kind => kind = .bit
  | .structRef n => n = "bit".toList
  | _ => false

/-- The variables of the member loop. -/
structure Packing where
  packingBitRun : Bool
  packedStorageIndex : Nat
  packedBitOffset : Nat
  memberCount : Nat

def Packing.start : Packing := ⟨false, 0, 0, 0⟩

def Packing.place (p : Packing) (substitutedType : TypeNode) : StructFieldLayout × Packing :=
  if isBitFieldTypeNode substitutedType then
    if !p.packingBitRun || p.packedBitOffset ≥ 8 then
      (⟨p.memberCount, true, 0⟩, ⟨true, p.memberCount, 1, p.memberCount + 1⟩)
    else
      (⟨p.packedStorageIndex, true, p.packedBitOffset⟩,
        { p with packedBitOffset := p.packedBitOffset + 1 })
  else
    (⟨p.memberCount, false, 0⟩, ⟨false, p.packedStorageIndex, 0, p.memberCount + 1⟩)

def Packing.layouts (p : Packing) : List TypeNode → List StructFieldLayout
  | [] => []
  | t :: ts => (p.place t).1 :: (p.place t).2.layouts ts

theorem isBitFieldTypeNode_resolve (t : TypeNode) :
    isBitFieldTypeNode (resolveType t) = isBitFieldTypeNode t := by
  cases t with
  | scalar kind => cases kind <;> rfl
  | _ => rfl

theorem Packing.layouts_resolve (p : Packing) (ts : List TypeNode) :
    p.layouts (resolveTypes ts) = p.layouts ts := by
  induction ts generalizing p with
  | nil => rfl
  | cons t ts ih =>
    have hp : p.place (resolveType t) = p.place t := by
      simp only [Packing.place, isBitFieldTypeNode_resolve]
    rw [resolveTypes, Packing.layouts, Packing.layouts, hp, ih]

structure StructDefNode where
  typeParams : List Name
  members : List (Name × TypeNode)

def StructDefNode.memberNames (node : StructDefNode) : List Name := node.members.map Prod.fst

def StructDefNode.memberTypes (node : StructDefNode) : List TypeNode := node.members.map Prod.snd

/-- What `monomorphizeStruct` registers under the mangled name. -/
structure MonomorphizedStruct where
  genericName : Name
  typeArgs : List TypeNode
  memberNames : List Name
  memberTypes : List TypeNode
  layouts : List StructFieldLayout

structure CodeGenerator where
  monomorphized : List (Name × MonomorphizedStruct)
  hasError : Bool

structure Request where
  genericName : Name
  typeArgs : List TypeNode

def Request.mangledName (r : Request) : Name := generateMangledName r.genericName r.typeArgs

/- Templates come from the parsed program; trait bounds and the lowering of a member type to
LLVM are decided elsewhere, and can only make an instantiation fail. -/
variable (genericStructTemplates : List (Name × StructDefNode))
  (validateTypeArgumentTraitBounds : Name → List TypeNode → Bool)
  (getLLVMTypeFromNode : TypeNode → Bool)

def monomorphizeStruct (r : Request) (g : CodeGenerator) : CodeGenerator :=
  match genericStructTemplates.lookup r.genericName with
  | none => { g with hasError := true }
  | some templateStruct =>
    let memberTypes := substituteTypeParamsList templateStruct.typeParams r.typeArgs
      templateStruct.memberTypes
    if templateStruct.typeParams.length ≠ r.typeArgs.length then
      { g with hasError := true }
    else if !validateTypeArgumentTraitBounds r.genericName r.typeArgs then
      { g with hasError := true }
    else if !memberTypes.all (fun t => isBitFieldTypeNode t || getLLVMTypeFromNode t) then
      { g with hasError := true }
    else
      { g with monomorphized :=
          (r.mangledName, ⟨r.genericName, r.typeArgs, templateStruct.memberNames, memberTypes,
            Packing.start.layouts memberTypes⟩) :: g.monomorphized }

def getOrCreateMonomorphizedStruct (r : Request) (g : CodeGenerator) : Name × CodeGenerator :=
  if (g.monomorphized.lookup r.mangledName).isSome then
    (r.mangledName, g)
  else if (genericStructTemplates.lookup r.genericName).isNone then
    (r.genericName, g)
  else
    (r.mangledName, monomorphizeStruct genericStructTemplates validateTypeArgumentTraitBounds
      getLLVMTypeFromNode r g)

def requestAll : List Request → CodeGenerator → List (Request × Option MonomorphizedStruct)
  | [], _ => []
  | r :: rs, g =>
    let out := getOrCreateMonomorphizedStruct genericStructTemplates
      validateTypeArgumentTraitBounds getLLVMTypeFromNode r g
    (r, out.2.monomorphized.lookup out.1) :: requestAll rs out.2

def IsInstantiation (r : Request) : Prop := (genericStructTemplates.lookup r.genericName).isSome

def SameInstance (r r' : Request) : Prop :=
  r.genericName = r'.genericName ∧ resolveTypes r.typeArgs = resolveTypes r'.typeArgs

/-- The struct has the members of the requested template under the requested arguments, laid
out as they are. -/
def BuiltFor (r : Request) (s : MonomorphizedStruct) : Prop :=
  ∃ templateStruct, genericStructTemplates.lookup r.genericName = some templateStruct ∧
    s.genericName = r.genericName ∧ resolveTypes s.typeArgs = resolveTypes r.typeArgs ∧
    s.memberNames = templateStruct.memberNames ∧
    resolveTypes s.memberTypes = resolveTypes (substituteTypeParamsList templateStruct.typeParams
      r.typeArgs templateStruct.memberTypes) ∧
    s.layouts = Packing.start.layouts (substituteTypeParamsList templateStruct.typeParams
      r.typeArgs templateStruct.memberTypes)

def InstancesDoNotCollide (requests : List Request) : Prop :=
  (∀ r ∈ requests, ∀ r' ∈ requests, IsInstantiation genericStructTemplates r →
    IsInstantiation genericStructTemplates r' → ¬ SameInstance r r' →
      r.mangledName ≠ r'.mangledName) ∧
  ∀ out ∈ requestAll genericStructTemplates validateTypeArgumentTraitBounds
      getLLVMTypeFromNode requests ⟨[], false⟩,
    IsInstantiation genericStructTemplates out.1 →
      ∀ s, out.2 = some s → BuiltFor genericStructTemplates out.1 s

def WordsSeparate (requests : List Request) : Prop :=
  ∀ r ∈ requests, ∀ r' ∈ requests, IsInstantiation genericStructTemplates r →
    IsInstantiation genericStructTemplates r' →
      requestWords r.genericName r.typeArgs = requestWords r'.genericName r'.typeArgs →
        SameInstance r r'

variable {r : Request} {seen : List Request} {g : CodeGenerator}

theorem BuiltFor.of_same {r' : Request} {s : MonomorphizedStruct} (h : SameInstance r r')
    (hs : BuiltFor genericStructTemplates r s) : BuiltFor genericStructTemplates r' s := by
  obtain ⟨templateStruct, hlookup, hname, hargs, hmembers, htypes, hlayouts⟩ := hs
  have hsubst := resolve_substituteTypeParamsList h.2 templateStruct.typeParams
    templateStruct.memberTypes
  refine ⟨templateStruct, h.1 ▸ hlookup, hname.trans h.1, hargs.trans h.2, hmembers,
    htypes.trans hsubst, hlayouts.trans ?_⟩
  rw [← Packing.layouts_resolve, hsubst, Packing.layouts_resolve]

/-- Every registered struct was built for one of the requests, and stands under its name. -/
def Registered (seen : List Request) (g : CodeGenerator) : Prop :=
  ∀ n s, g.monomorphized.lookup n = some s →
    ∃ r ∈ seen, IsInstantiation genericStructTemplates r ∧ r.mangledName = n ∧
      BuiltFor genericStructTemplates r s

theorem Registered.monomorphizeStruct (h : Registered genericStructTemplates seen g) (hr : r ∈ seen) :
    Registered genericStructTemplates seen
    (monomorphizeStruct genericStructTemplates validateTypeArgumentTraitBounds getLLVMTypeFromNode r g) := by
  simp only [Monomorphization.monomorphizeStruct]
  split
  · exact h
  · next templateStruct hlookup =>
    split
    · exact h
    · split
      · exact h
      · split
        · exact h
        · intro n s hn
          rw [List.lookup_cons] at hn
          split at hn
          · next heq =>
            obtain rfl := Option.some.inj hn
            exact ⟨r, hr, Option.isSome_iff_exists.2 ⟨_, hlookup⟩, (beq_iff_eq.1 heq).symm,
              templateStruct, hlookup, rfl, rfl, rfl, rfl, rfl⟩
          · exact h n s hn

theorem Registered.getOrCreate (h : Registered genericStructTemplates seen g) (hr : r ∈ seen) :
    Registered genericStructTemplates seen
    (getOrCreateMonomorphizedStruct genericStructTemplates validateTypeArgumentTraitBounds
      getLLVMTypeFromNode r g).2 := by
  unfold getOrCreateMonomorphizedStruct
  split
  · exact h
  · split
    · exact h
    · exact h.monomorphizeStruct _ _ _ hr

theorem getOrCreate_name (hr : IsInstantiation genericStructTemplates r) (g : CodeGenerator) :
    (getOrCreateMonomorphizedStruct genericStructTemplates validateTypeArgumentTraitBounds
      getLLVMTypeFromNode r g).1 = r.mangledName := by
  unfold getOrCreateMonomorphizedStruct
  split
  · rfl
  · rw [if_neg (by simpa [IsInstantiation, Option.isSome_iff_ne_none] using hr)]

theorem requestAll_builtFor {requests : List Request} (hwords : WordsSeparate genericStructTemplates requests)
    {rs : List Request} (hrs : rs ⊆ requests) (h : Registered genericStructTemplates requests g) :
    ∀ out ∈ requestAll genericStructTemplates validateTypeArgumentTraitBounds getLLVMTypeFromNode rs g,
    IsInstantiation genericStructTemplates out.1 → ∀ s, out.2 = some s →
    BuiltFor genericStructTemplates out.1 s := by
  induction rs generalizing g with
  | nil => intro out hout; cases hout
  | cons r rs ih =>
    have hr : r ∈ requests := hrs List.mem_cons_self
    have hnext := h.getOrCreate _ validateTypeArgumentTraitBounds getLLVMTypeFromNode hr
    intro out hout
    rcases List.mem_cons.1 hout with rfl | hout
    · intro hinst s hs
      rw [getOrCreate_name _ _ _ hinst] at hs
      obtain ⟨r₀, hr₀, hinst₀, hname, hbuilt⟩ := hnext _ _ hs
      have hsame := hwords r₀ hr₀ r hr hinst₀ hinst
        ((generateMangledName_eq_iff _ _ _ _).1 hname)
      exact hbuilt.of_same _ hsame
    · exact ih (fun _ h => hrs (List.mem_cons_of_mem _ h)) hnext out hout

/-- Instances do not collide exactly when no two different requests are spelled by the same
words: underscores inside names, tuples of unknown length and the default fragment `unknown`
are the ways to fail. -/
theorem instancesDoNotCollide_iff_wordsSeparate (requests : List Request) :
    InstancesDoNotCollide genericStructTemplates validateTypeArgumentTraitBounds
      getLLVMTypeFromNode requests ↔ WordsSeparate genericStructTemplates requests := by
  constructor
  · rintro ⟨hnames, -⟩ r hr r' hr' hinst hinst' hwords
    by_contra hdifferent
    exact hnames r hr r' hr' hinst hinst' hdifferent
      ((generateMangledName_eq_iff _ _ _ _).2 hwords)
  · intro hwords
    constructor
    · intro r hr r' hr' hinst hinst' hdifferent hname
      exact hdifferent (hwords r hr r' hr' hinst hinst' ((generateMangledName_eq_iff _ _ _ _).1 hname))
    · apply requestAll_builtFor genericStructTemplates _ _ hwords (List.Subset.refl requests)
      intro n s hn
      cases hn

/-- `struct Box<T> { value: T }`. -/
def boxTemplate : List (Name × StructDefNode) :=
  [("Box".toList, ⟨["T".toList], [("value".toList, .structRef "T".toList)]⟩)]

/-- `Box<bit>` and `Box<ptr<u8>>` are both `Box_unknown`. -/
theorem boxes_collide :
    ¬ InstancesDoNotCollide boxTemplate (fun _ _ => true) (fun _ => true)
      [⟨"Box".toList, [.scalar .bit]⟩, ⟨"Box".toList, [.pointer (.scalar .u8)]⟩] := by
  rintro ⟨-, hbuilt⟩
  obtain ⟨_, -, -, htypes, -⟩ := hbuilt (⟨"Box".toList, [.pointer (.scalar .u8)]⟩,
    some ⟨"Box".toList, [.scalar .bit], ["value".toList], [.scalar .bit], [⟨0, true, 0⟩]⟩)
    (.tail _ (.head _)) rfl _ rfl
  simp [resolveTypes, resolveType] at htypes

end Mlang.Monomorphization
