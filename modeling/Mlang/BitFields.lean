import Mathlib
import Mlang.IntegerIR
import Mlang.StructLayouts

namespace Mlang.BitFields

open TypeKinds Mangling IntegerIR Transitions StructLayouts List Option
open Monomorphization (StructFieldLayout StructDefNode isBitFieldTypeNode)

variable {K A : Type}

inductive Value (A : Type)
  | int (v : IRInt)
  | struct (structName : Name) (elements : List (Value A))
  | atom (a : A)

namespace Value

def type (kindOf : A → K) : Value A → IRType K
  | .int v => .int v.width
  | .struct structName _ => .struct structName
  | .atom a => .other (kindOf a)

mutual

def nesting : Value A → Nat
  | .struct _ elements => nestings elements + 1
  | _ => 0

def nestings : List (Value A) → Nat
  | [] => 0
  | v :: vs => max v.nesting (nestings vs)

end

end Value

def isSynthesizedPropertyLockFieldName (fieldName : Name) : Bool :=
  "__mlang_prop_lock_".toList.isPrefixOf fieldName

def getStructFieldLayout (tables : StructTables K) (structName : Name) (fieldIndex : Int) :
    Option StructFieldLayout :=
  (tables.structFieldLayouts structName).bind fun layouts =>
    if fieldIndex < 0 then none else layouts[fieldIndex.toNat]?

def nestedStructName (tables : StructTables K) : TypeNode → Name
  | .structRef structName => structName
  | .genericStruct structName typeArgs => tables.monomorphizedName structName typeArgs
  | _ => []

variable (tables : StructTables K) (nullValue : IRType K → Value A)

/-- One turn of the loop of `resetCopiedStructState`, for the member of that index. -/
def resetMember (reset : Value A → Name → Value A) (structType : List (IRType K))
    (structName : Name) (fieldIndex : Nat) (member : Name × TypeNode) (adjusted : List (Value A)) :
    List (Value A) :=
  match getStructFieldLayout tables structName fieldIndex with
  | none => adjusted
  | some layout =>
    if layout.packedBit then adjusted
    else
      match structType[layout.storageIndex]? with
      | none => adjusted
      | some storageType =>
        if isSynthesizedPropertyLockFieldName member.1 then
          adjusted.set layout.storageIndex (nullValue storageType)
        else
          match storageType, adjusted[layout.storageIndex]? with
          | .struct _, some nested =>
            if nestedStructName tables member.2 = [] then adjusted
            else
              adjusted.set layout.storageIndex
                (reset nested (nestedStructName tables member.2))
          | _, _ => adjusted

def resetMembers (reset : Value A → Name → Value A) (structType : List (IRType K))
    (structName : Name) : Nat → List (Name × TypeNode) → List (Value A) → List (Value A)
  | _, [], adjusted => adjusted
  | i, member :: rest, adjusted =>
    resetMembers reset structType structName (i + 1) rest
      (resetMember tables nullValue reset structType structName i member adjusted)

def resetCopied : Nat → Value A → Name → Value A
  | depth + 1, .struct typeName elements, structName =>
    if structName = [] then .struct typeName elements
    else
      match tables.structMembers structName with
      | none => .struct typeName elements
      | some members =>
        .struct typeName
          (resetMembers tables nullValue (resetCopied depth)
            ((tables.structTypes typeName).getD []) structName 0 members elements)
  | _, value, _ => value

def resetCopiedStructState (value : Value A) (structName : Name) : Value A :=
  resetCopied tables nullValue value.nesting value structName

/-- The struct as whose value a value is copied. -/
def copiedStructName (semanticType : TypeNode) (value : Value A) : Name :=
  match semanticType, value with
  | .structRef structName, _ => structName
  | .genericStruct structName typeArgs, _ => tables.monomorphizedName structName typeArgs
  | _, .struct typeName _ => typeName
  | _, _ => []

def applyStructCopySemantics (value : Value A) (semanticType : TypeNode) : Value A :=
  resetCopiedStructState tables nullValue value (copiedStructName tables semanticType value)

def extractBit (bitOffset : Nat) : Value A → Option (Value A)
  | .int storage => do
    let shifted ← IRInt.binary .lshr storage ⟨storage.width, BitVec.ofNat _ bitOffset⟩
    let masked ← IRInt.binary .and shifted ⟨storage.width, 1⟩
    some (.int (masked.intCast false 1))
  | _ => none

def insertBit (bitOffset : Nat) : Value A → Value A → Option (Value A)
  | .int storage, .int value =>
    if value.width ≠ 1 then none
    else do
      let zext := value.intCast false storage.width
      let shifted ← IRInt.binary .shl zext ⟨storage.width, BitVec.ofNat _ bitOffset⟩
      let mask : IRInt := ⟨storage.width, BitVec.ofNat _ (1 <<< bitOffset)⟩
      let cleared ← IRInt.binary .and storage ⟨storage.width, ~~~mask.bits⟩
      let combined ← IRInt.binary .or cleared shifted
      some (.int combined)
  | _, _ => none

def loadStructFieldValue (structTypeName : Name) (content : List (Value A)) (fieldIndex : Int) :
    Option (Value A) := do
  let _ ← tables.structTypes structTypeName
  let layout ← getStructFieldLayout tables structTypeName fieldIndex
  let storage ← content[layout.storageIndex]?
  if layout.packedBit then extractBit layout.bitOffset storage else some storage

/-- A store is one of a value of the element's type: the callers convert it. -/
def storeStructFieldValue [DecidableEq K] (kindOf : A → K) (structTypeName : Name)
    (content : List (Value A)) (fieldIndex : Int) (fieldType : TypeNode) (value : Value A) :
    Option (List (Value A)) := do
  let structType ← tables.structTypes structTypeName
  let layout ← getStructFieldLayout tables structTypeName fieldIndex
  let storageType ← structType[layout.storageIndex]?
  if layout.packedBit then
    let storage ← content[layout.storageIndex]?
    let combined ← insertBit layout.bitOffset storage value
    some (content.set layout.storageIndex combined)
  else
    let copy := applyStructCopySemantics tables nullValue value fieldType
    if copy.type kindOf = storageType then some (content.set layout.storageIndex copy) else none

variable {bitOffset : Nat}

theorem toNat_bitOffset (h : bitOffset < 8) : (BitVec.ofNat 8 bitOffset).toNat = bitOffset := by
  rw [BitVec.toNat_ofNat]
  omega

theorem extractBit_byte (h : bitOffset < 8) (w : BitVec 8) :
    extractBit bitOffset (.int ⟨8, w⟩ : Value A) = some (.int ⟨1, BitVec.ofBool (w.getLsbD bitOffset)⟩) := by
  have hbit : ((w >>> bitOffset) &&& 1).setWidth 1 = BitVec.ofBool (w.getLsbD bitOffset) := by
    ext k hk
    obtain rfl : k = 0 := by omega
    simp
  simp only [extractBit, IRInt.binary_mk, Opcode.exec, toNat_bitOffset h, if_pos h, map_some,
    bind_eq_bind, bind_some, IRInt.intCast, Bool.false_eq_true, if_false, hbit]

def withBit (w : BitVec 8) (bitOffset : Nat) (b : BitVec 1) : BitVec 8 :=
  (w &&& ~~~BitVec.ofNat 8 (1 <<< bitOffset)) ||| (b.setWidth 8 <<< bitOffset)

theorem insertBit_byte (h : bitOffset < 8) (w : BitVec 8) (b : BitVec 1) :
    insertBit bitOffset (.int ⟨8, w⟩ : Value A) (.int ⟨1, b⟩) = some (.int ⟨8, withBit w bitOffset b⟩) := by
  simp [insertBit, IRInt.binary_mk, Opcode.exec, toNat_bitOffset h, h, IRInt.intCast, withBit]

theorem getLsbD_withBit (w : BitVec 8) {k : Nat} (b : BitVec 1) (h : bitOffset < 8) (hk : k < 8) :
    (withBit w bitOffset b).getLsbD k = if k = bitOffset then b.getLsbD 0 else w.getLsbD k := by
  have hmask : BitVec.ofNat 8 (1 <<< bitOffset) = BitVec.twoPow 8 bitOffset := by
    rw [BitVec.twoPow_eq, Nat.shiftLeft_eq, Nat.one_mul]
    apply BitVec.eq_of_toNat_eq
    simp [Nat.shiftLeft_eq]
  simp only [withBit, hmask, BitVec.getLsbD_or, BitVec.getLsbD_and, BitVec.getLsbD_not,
    BitVec.getLsbD_twoPow, BitVec.getLsbD_shiftLeft, BitVec.getLsbD_setWidth]
  by_cases hkb : k = bitOffset
  · simp [hkb, h]
  · have hsub : k - bitOffset < 1 → k < bitOffset := by omega
    rcases Nat.lt_or_gt_of_ne hkb with hlt | hgt
    · simp [hkb, hk, hlt, Ne.symm hkb]
    · have hwide : b.getLsbD (k - bitOffset) = false := BitVec.getLsbD_of_ge b _ (by omega)
      simp [hkb, hk, hwide, Ne.symm hkb]

theorem ofBool_getLsbD_zero (b : BitVec 1) : BitVec.ofBool (b.getLsbD 0) = b := by
  ext k hk
  obtain rfl : k = 0 := by omega
  simp

variable {structName : Name} {value : Value A}

section Copies

variable (tables : StructTables K) (nullValue : IRType K → Value A)

inductive HasLock (tables : StructTables K) : Name → Prop
  | own {structName : Name} {members : List (Name × TypeNode)} {member : Name × TypeNode}
      (hmembers : tables.structMembers structName = some members) (hmem : member ∈ members)
      (hlock : isSynthesizedPropertyLockFieldName member.1 = true) : HasLock tables structName
  | nested {structName : Name} {members : List (Name × TypeNode)} {member : Name × TypeNode}
      (hmembers : tables.structMembers structName = some members) (hmem : member ∈ members)
      (h : HasLock tables (nestedStructName tables member.2)) : HasLock tables structName

variable {tables nullValue}
variable {reset : Value A → Name → Value A}

theorem resetMember_eq {member : Name × TypeNode}
    (hlock : isSynthesizedPropertyLockFieldName member.1 = false)
    (hreset : ∀ v, reset v (nestedStructName tables member.2) = v) (structType : List (IRType K))
    (structName : Name) (i : Nat) (adjusted : List (Value A)) :
    resetMember tables nullValue reset structType structName i member adjusted = adjusted := by
  unfold resetMember
  split
  · rfl
  split
  · rfl
  split
  · rfl
  rw [hlock, if_neg Bool.false_ne_true]
  split
  · next hnested _ =>
    obtain ⟨hlt, rfl⟩ := List.getElem?_eq_some_iff.1 hnested
    rw [hreset, set_getElem_self, ite_self]
  · rfl

theorem resetMembers_eq {members : List (Name × TypeNode)}
    (hlock : ∀ member ∈ members, isSynthesizedPropertyLockFieldName member.1 = false)
    (hreset : ∀ member ∈ members, ∀ v, reset v (nestedStructName tables member.2) = v)
    (structType : List (IRType K)) (structName : Name) (i : Nat) (adjusted : List (Value A)) :
    resetMembers tables nullValue reset structType structName i members adjusted = adjusted := by
  induction members generalizing i with
  | nil => rfl
  | cons member rest ih =>
    obtain ⟨hlock, hlocks⟩ := List.forall_mem_cons.1 hlock
    obtain ⟨hreset, hresets⟩ := List.forall_mem_cons.1 hreset
    rw [resetMembers, resetMember_eq hlock hreset]
    exact ih hlocks hresets (i + 1)

theorem resetCopied_eq (depth : Nat) (value : Value A) (h : ¬ HasLock tables structName) :
    resetCopied tables nullValue depth value structName = value := by
  induction depth generalizing value structName with
  | zero => rfl
  | succ depth ih =>
    cases value with
    | int v => rfl
    | atom a => rfl
    | struct typeName elements =>
      rw [resetCopied]
      split
      · rfl
      split
      · rfl
      · next members hmembers =>
        congr 1
        refine resetMembers_eq (fun member hmem => ?_) (fun member hmem v => ?_) _ _ _ _
        · exact Bool.eq_false_iff.2 fun hlock => h (.own hmembers hmem hlock)
        · exact ih v fun hlock => h (.nested hmembers hmem hlock)

theorem applyStructCopySemantics_eq {semanticType : TypeNode}
    (h : ¬ HasLock tables (copiedStructName tables semanticType value)) :
    applyStructCopySemantics tables nullValue value semanticType = value :=
  resetCopied_eq _ _ h

theorem type_resetCopied (kindOf : A → K) (depth : Nat) (value : Value A) (structName : Name) :
    (resetCopied tables nullValue depth value structName).type kindOf = value.type kindOf := by
  cases depth with
  | zero => rfl
  | succ depth =>
    cases value with
    | int v => rfl
    | atom a => rfl
    | struct typeName elements =>
      rw [resetCopied]
      split
      · rfl
      split <;> rfl

theorem type_applyStructCopySemantics (kindOf : A → K) (value : Value A) (semanticType : TypeNode) :
    (applyStructCopySemantics tables nullValue value semanticType).type kindOf = value.type kindOf :=
  type_resetCopied kindOf _ _ _

end Copies

variable {types : List (IRType K)} {l l' : StructFieldLayout}

section Ranges

variable (sizeOf : IRType K → Nat)

def sizeInBits : IRType K → Nat
  | .int width => width
  | t => sizeOf t

def storageBits (types : List (IRType K)) : Set (Nat × Nat) :=
  {p | ∃ t, types[p.1]? = some t ∧ p.2 < sizeInBits sizeOf t}

def memberBits (types : List (IRType K)) (l : StructFieldLayout) : Set (Nat × Nat) :=
  if l.packedBit then {(l.storageIndex, l.bitOffset)}
  else {p | p ∈ storageBits sizeOf types ∧ p.1 = l.storageIndex}

variable {sizeOf}

theorem fst_of_mem_memberBits {p : Nat × Nat} (h : p ∈ memberBits sizeOf types l) :
    p.1 = l.storageIndex := by
  unfold memberBits at h
  split at h
  · exact congrArg Prod.fst (Set.mem_singleton_iff.1 h)
  · exact h.2

theorem memberBits_subset (h : Fits types l) : memberBits sizeOf types l ⊆ storageBits sizeOf types := by
  intro p hp
  unfold memberBits at hp
  split at hp
  · next hpacked =>
    obtain ⟨hunit, hlt⟩ := h.unit hpacked
    obtain rfl := Set.mem_singleton_iff.1 hp
    exact ⟨.int 8, hunit, hlt⟩
  · exact hp.1

theorem memberBits_disjoint (h : Apart l l') :
    Disjoint (memberBits sizeOf types l) (memberBits sizeOf types l') := by
  refine Set.disjoint_left.2 fun p hp hp' => ?_
  rcases h with hne | ⟨hpacked, hpacked', hne⟩
  · exact hne ((fst_of_mem_memberBits hp).symm.trans (fst_of_mem_memberBits hp'))
  · rw [memberBits, if_pos hpacked] at hp
    rw [memberBits, if_pos hpacked'] at hp'
    exact hne (congrArg Prod.snd ((Set.mem_singleton_iff.1 hp).symm.trans (Set.mem_singleton_iff.1 hp')))

end Ranges

variable {kindOf : A → K} {content : List (Value A)} {i : Nat} {v : Value A}

variable {content' : List (Value A)}

abbrev HasTypes (kindOf : A → K) (types : List (IRType K)) (content : List (Value A)) : Prop :=
  content.map (·.type kindOf) = types

def memberType (types : List (IRType K)) (l : StructFieldLayout) : Option (IRType K) :=
  if l.packedBit then some (.int 1) else types[l.storageIndex]?

def readMember (content : List (Value A)) (l : StructFieldLayout) : Option (Value A) :=
  content[l.storageIndex]?.bind fun storage =>
    if l.packedBit then extractBit l.bitOffset storage else some storage

theorem HasTypes.getElem? (h : HasTypes kindOf types content) {t : IRType K} (ht : types[i]? = some t) :
    ∃ v, content[i]? = some v ∧ v.type kindOf = t := by
  rw [← h, getElem?_map] at ht
  exact map_eq_some_iff.1 ht

theorem eq_int_of_type {w : Nat} (h : v.type kindOf = .int w) : ∃ bits : BitVec w, v = .int ⟨w, bits⟩ := by
  cases v with
  | int v =>
    obtain ⟨width, bits⟩ := v
    obtain rfl : width = w := IRType.int.inj h
    exact ⟨bits, rfl⟩
  | struct structName elements => exact nomatch h
  | atom a => exact nomatch h

variable (h : HasTypes kindOf types content)
include h

theorem HasTypes.set (hv : types[i]? = some (v.type kindOf)) :
    HasTypes kindOf types (content.set i v) := by
  obtain ⟨hlt, htype⟩ := List.getElem?_eq_some_iff.1 hv
  rw [HasTypes, map_set, h, ← htype, set_getElem_self]

theorem HasTypes.unit (hfits : Fits types l)
    (hpacked : l.packedBit = true) :
    l.bitOffset < 8 ∧ ∃ w : BitVec 8, content[l.storageIndex]? = some (.int ⟨8, w⟩) := by
  obtain ⟨hunit, hoffset⟩ := hfits.unit hpacked
  obtain ⟨v, hv, htype⟩ := h.getElem? hunit
  obtain ⟨w, rfl⟩ := eq_int_of_type htype
  exact ⟨hoffset, w, hv⟩

theorem readMember_typed (hfits : Fits types l) :
    ∃ v, readMember content l = some v ∧ memberType types l = some (v.type kindOf) := by
  cases hpacked : l.packedBit with
  | true =>
    obtain ⟨hoffset, w, hw⟩ := h.unit hfits hpacked
    refine ⟨.int ⟨1, BitVec.ofBool (w.getLsbD l.bitOffset)⟩, ?_, ?_⟩
    · rw [readMember, hw, bind_some, hpacked, if_pos rfl, extractBit_byte hoffset]
    · rw [memberType, hpacked, if_pos rfl]
      rfl
  | false =>
    obtain ⟨v, hv, htype⟩ := h.getElem? (getElem?_eq_getElem hfits.inside)
    refine ⟨v, ?_, ?_⟩
    · rw [readMember, hv, bind_some, hpacked, if_neg Bool.false_ne_true]
    · rw [memberType, hpacked, if_neg Bool.false_ne_true, htype, getElem?_eq_getElem hfits.inside]

omit h

theorem readMember_of_index_ne (v : Value A) (hne : l.storageIndex ≠ l'.storageIndex) :
    readMember (content.set l.storageIndex v) l' = readMember content l' := by
  rw [readMember, readMember, getElem?_set_ne hne]

theorem readMember_withBit {w : BitVec 8} {b : BitVec 1} (hfits : Fits types l)
    (hfits' : Fits types l') (hpacked : l.packedBit = true) (hpacked' : l'.packedBit = true)
    (hsame : l'.storageIndex = l.storageIndex) (hw : content[l.storageIndex]? = some (.int ⟨8, w⟩)) :
    readMember (content.set l.storageIndex (.int ⟨8, withBit w l.bitOffset b⟩)) l' =
      if l'.bitOffset = l.bitOffset then some (.int ⟨1, b⟩) else readMember content l' := by
  have hoffset := (hfits.unit hpacked).2
  have hoffset' := (hfits'.unit hpacked').2
  have hlt := (List.getElem?_eq_some_iff.1 hw).1
  have hread : readMember content l' =
      some (.int ⟨1, BitVec.ofBool (w.getLsbD l'.bitOffset)⟩) := by
    rw [readMember, hsame, hw, bind_some, hpacked', if_pos rfl, extractBit_byte hoffset']
  rw [hread, readMember, hsame, getElem?_set_self hlt, bind_some, hpacked', if_pos rfl,
    extractBit_byte hoffset', getLsbD_withBit w b hoffset hoffset']
  split
  · rw [ofBool_getLsbD_zero]
  · rfl

variable {tables : StructTables K} {layouts : List StructFieldLayout}

theorem getStructFieldLayout_ofNat (hlayouts : tables.structFieldLayouts structName = some layouts)
    (i : Nat) : getStructFieldLayout tables structName i = layouts[i]? := by
  rw [getStructFieldLayout, hlayouts, bind_some, if_neg (Int.not_lt.2 (Int.natCast_nonneg i)),
    Int.toNat_natCast]

theorem loadStructFieldValue_eq (htypes : tables.structTypes structName = some types)
    (content : List (Value A)) (fieldIndex : Int) :
    loadStructFieldValue tables structName content fieldIndex =
      (getStructFieldLayout tables structName fieldIndex).bind (readMember content) := by
  simp only [loadStructFieldValue, htypes, bind_eq_bind, bind_some]
  rfl

/-- What is stored of a value: a bit as it is, anything else as a copy. -/
def stored (tables : StructTables K) (nullValue : IRType K → Value A) (l : StructFieldLayout)
    (value : Value A) (fieldType : TypeNode) : Value A :=
  if l.packedBit then value else applyStructCopySemantics tables nullValue value fieldType

variable [DecidableEq K]

theorem storeStructFieldValue_spec (nullValue : IRType K → Value A)
    (htypes : tables.structTypes structName = some types) (hcontent : HasTypes kindOf types content)
    {fieldIndex : Int} (hl : getStructFieldLayout tables structName fieldIndex = some l)
    (hfits : Fits types l) (hvalue : memberType types l = some (value.type kindOf)) (fieldType : TypeNode) :
    ∃ content', storeStructFieldValue tables nullValue kindOf structName content fieldIndex fieldType value =
    some content' ∧ HasTypes kindOf types content' ∧
    readMember content' l = some (stored tables nullValue l value fieldType) ∧ ∀ l', Fits types l' →
    Apart l l' → readMember content' l' = readMember content l' := by
  have htype := getElem?_eq_getElem hfits.inside
  cases hpacked : l.packedBit with
  | true =>
    obtain ⟨hoffset, w, hw⟩ := hcontent.unit hfits hpacked
    rw [memberType, hpacked, if_pos rfl] at hvalue
    obtain ⟨b, rfl⟩ := eq_int_of_type (some.inj hvalue).symm
    refine ⟨content.set l.storageIndex (.int ⟨8, withBit w l.bitOffset b⟩), ?_, ?_, ?_, ?_⟩
    · simp only [storeStructFieldValue, htypes, hl, htype, hw, hpacked, insertBit_byte hoffset,
        bind_eq_bind, bind_some, if_true]
    · exact hcontent.set (hfits.unit hpacked).1
    · rw [readMember_withBit hfits hfits hpacked hpacked rfl hw, if_pos rfl, stored, hpacked, if_pos rfl]
    · intro l' hfits' hapart
      by_cases hsame : l.storageIndex = l'.storageIndex
      · obtain ⟨-, hpacked', hne⟩ := hapart.resolve_left (not_not_intro hsame)
        rw [readMember_withBit hfits hfits' hpacked hpacked' hsame.symm hw, if_neg (Ne.symm hne)]
      · exact readMember_of_index_ne _ hsame
  | false =>
    rw [memberType, hpacked, if_neg Bool.false_ne_true] at hvalue
    have hcopy : (applyStructCopySemantics tables nullValue value fieldType).type kindOf =
        value.type kindOf := type_applyStructCopySemantics kindOf value fieldType
    have hindex : l.storageIndex < content.length := by
      rw [← length_map (f := (·.type kindOf)), hcontent]
      exact hfits.inside
    refine ⟨content.set l.storageIndex
      (applyStructCopySemantics tables nullValue value fieldType), ?_, ?_, ?_, ?_⟩
    · simp only [storeStructFieldValue, htypes, hl, hvalue, hpacked, hcopy, bind_eq_bind,
        bind_some, if_true, Bool.false_eq_true, if_false]
    · exact hcontent.set (hcopy.symm ▸ hvalue)
    · rw [readMember, getElem?_set_self hindex, bind_some, stored, hpacked,
        if_neg Bool.false_ne_true, if_neg Bool.false_ne_true]
    · intro l' _ hapart
      refine readMember_of_index_ne _ (hapart.resolve_right ?_)
      rw [hpacked]
      exact fun h => Bool.false_ne_true h.1

/-- Members lie apart inside the storage of their struct, and a store to one of them is read back
from it and from no other. -/
theorem storeStructFieldValue_frame (sizeOf : IRType K → Nat) (nullValue : IRType K → Value A)
    (kindOf : A → K) {templates : Name → Option StructDefNode} {tables : StructTables K}
    (hreach : Reachable declare (StructTables.initial templates) tables) {structName : Name}
    {types : List (IRType K)} (htypes : tables.structTypes structName = some types) :
    ∃ members layouts, tables.structMembers structName = some members ∧
      tables.structFieldLayouts structName = some layouts ∧
      layouts.map (·.packedBit) = members.map (fun member => isBitFieldTypeNode member.2) ∧
      (∀ l ∈ layouts, memberBits sizeOf types l ⊆ storageBits sizeOf types) ∧
      layouts.Pairwise (fun l l' => Disjoint (memberBits sizeOf types l) (memberBits sizeOf types l')) ∧
      ∀ content : List (Value A), HasTypes kindOf types content →
        ∀ (i : Nat) (l : StructFieldLayout), layouts[i]? = some l →
          (∃ v, loadStructFieldValue tables structName content i = some v ∧
            memberType types l = some (v.type kindOf)) ∧
          ∀ (fieldType : TypeNode) (value : Value A),
            memberType types l = some (value.type kindOf) →
            ∃ content', storeStructFieldValue tables nullValue kindOf structName content i fieldType
                value = some content' ∧ HasTypes kindOf types content' ∧
              loadStructFieldValue tables structName content' i =
                some (stored tables nullValue l value fieldType) ∧
              (l.packedBit = true ∨ ¬ HasLock tables (copiedStructName tables fieldType value) →
                loadStructFieldValue tables structName content' i = some value) ∧
              ∀ j : Int, j ≠ i → loadStructFieldValue tables structName content' j =
                loadStructFieldValue tables structName content j := by
  rcases allLaid_of_reachable hreach structName with ⟨hnone, -⟩ |
    ⟨types', members, layouts, htypes', hmembers, hlayouts, hlaid⟩
  · exact absurd (hnone.symm.trans htypes) (by simp)
  obtain rfl : types' = types := some.inj (htypes'.symm.trans htypes)
  refine ⟨members, layouts, hmembers, hlayouts, hlaid.kinds,
    fun l hl => memberBits_subset (hlaid.fits l hl), hlaid.apart.imp memberBits_disjoint, ?_⟩
  intro content hcontent i l hl
  have hfits := hlaid.fits l (mem_of_getElem? hl)
  have hlayout := (getStructFieldLayout_ofNat hlayouts i).trans hl
  have hload (content : List (Value A)) :
      loadStructFieldValue tables structName content i = readMember content l := by
    rw [loadStructFieldValue_eq htypes, hlayout, bind_some]
  refine ⟨hload content ▸ readMember_typed hcontent hfits, fun fieldType value hvalue => ?_⟩
  obtain ⟨content', hstore, hcontent', hread, hframe⟩ :=
    storeStructFieldValue_spec nullValue htypes hcontent hlayout hfits hvalue fieldType
  refine ⟨content', hstore, hcontent', (hload content').trans hread, fun hplain => ?_, ?_⟩
  · rw [hload, hread, stored]
    split
    · rfl
    · next hpacked => rw [applyStructCopySemantics_eq (hplain.resolve_left hpacked)]
  · intro j hj
    rw [loadStructFieldValue_eq htypes, loadStructFieldValue_eq htypes]
    refine bind_congr fun l' hl' => ?_
    rw [getStructFieldLayout, hlayouts, bind_some] at hl'
    split at hl'
    · exact nomatch hl'
    next hnonneg =>
    have hne : i ≠ j.toNat := by omega
    exact hframe l' (hlaid.fits l' (mem_of_getElem? hl')) (hlaid.apart_of_ne hl hl' hne)

/-- Types of the intermediate representation for the members of `deviceStructs`. -/
def deviceType : TypeNode → Option (IRType Unit)
  | .scalar .i32 => some (.int 32)
  | .pointer _ => some (.other ())
  | .structRef structName => some (.struct structName)
  | _ => none

def deviceNull : IRType Unit → Value Nat
  | .int width => .int ⟨width, 0⟩
  | .struct structName => .struct structName []
  | .other _ => .atom 0

def deviceStructs : List (Declaration Unit) :=
  [.struct deviceType "Counter".toList [] ⟨[],
      [("__mlang_prop_lock_value".toList, .pointer (.scalar .u8)),
        ("value".toList, .scalar .i32)]⟩,
    .struct deviceType "Device".toList [] ⟨[],
      [("counter".toList, .structRef "Counter".toList), ("ready".toList, .scalar .bit),
        ("busy".toList, .scalar .bit)]⟩]

def deviceTables : StructTables Unit :=
  (run declare deviceStructs (StructTables.initial fun _ => none)).getD
    (StructTables.initial fun _ => none)

def deviceContent (lock : Nat) (bits : BitVec 8) : List (Value Nat) :=
  [.struct "Counter".toList [.atom lock, .int ⟨32, 5⟩], .int ⟨8, bits⟩]

theorem reachable_deviceTables : Reachable declare (StructTables.initial fun _ => none) deviceTables :=
  have hrun : run declare deviceStructs (StructTables.initial fun _ => none) = some deviceTables := rfl
  reachable_of_run hrun

theorem device_busy_frame :
    ∃ content', storeStructFieldValue deviceTables deviceNull (fun _ => ()) "Device".toList
        (deviceContent 7 1) 2 (.scalar .bit) (.int ⟨1, 1⟩) = some content' ∧
      loadStructFieldValue deviceTables "Device".toList content' 2 = some (.int ⟨1, 1⟩) ∧
      loadStructFieldValue deviceTables "Device".toList content' 1 =
        loadStructFieldValue deviceTables "Device".toList (deviceContent 7 1) 1 := by
  obtain ⟨members, layouts, -, hlayouts, -, -, -, hframe⟩ :=
    storeStructFieldValue_frame (fun _ => 64) deviceNull (fun _ : Nat => ()) reachable_deviceTables
      (show deviceTables.structTypes "Device".toList = some [.struct "Counter".toList, .int 8] from rfl)
  obtain rfl : [⟨0, false, 0⟩, ⟨1, true, 0⟩, ⟨1, true, 1⟩] = layouts := some.inj hlayouts
  obtain ⟨content', hstore, -, -, hread, hother⟩ :=
    (hframe (deviceContent 7 1) rfl 2 ⟨1, true, 1⟩ rfl).2 (.scalar .bit) (.int ⟨1, 1⟩) rfl
  exact ⟨content', hstore, hread (Or.inl rfl), hother 1 (by decide)⟩

/-- The lock of a property does not go along with a copy of its struct. -/
theorem not_store_restores :
    ¬ ∀ (tables : StructTables Unit),
      Reachable declare (StructTables.initial fun _ => none) tables →
      ∀ (structName : Name) (types : List (IRType Unit)) (layouts : List StructFieldLayout),
        tables.structTypes structName = some types → tables.structFieldLayouts structName = some layouts →
        ∀ content : List (Value Nat), HasTypes (fun _ => ()) types content →
          ∀ (i : Nat) (l : StructFieldLayout) (fieldType : TypeNode) (value : Value Nat),
            layouts[i]? = some l → memberType types l = some (value.type fun _ => ()) →
            ∃ content', storeStructFieldValue tables deviceNull (fun _ => ()) structName content i
                fieldType value = some content' ∧
              loadStructFieldValue tables structName content' i = some value := by
  intro hclaim
  obtain ⟨content', hstore, hload⟩ :=
    hclaim deviceTables reachable_deviceTables "Device".toList [.struct "Counter".toList, .int 8]
      [⟨0, false, 0⟩, ⟨1, true, 0⟩, ⟨1, true, 1⟩] rfl rfl (deviceContent 7 0) rfl 0 ⟨0, false, 0⟩
      (.structRef "Counter".toList) (.struct "Counter".toList [.atom 9, .int ⟨32, 6⟩]) rfl rfl
  have hstored : storeStructFieldValue deviceTables deviceNull (fun _ => ()) "Device".toList
      (deviceContent 7 0) 0 (.structRef "Counter".toList)
      (.struct "Counter".toList [.atom 9, .int ⟨32, 6⟩]) =
        some [.struct "Counter".toList [.atom 0, .int ⟨32, 6⟩], .int ⟨8, 0⟩] := rfl
  obtain rfl := some.inj (hstored.symm.trans hstore)
  have hread : some (Value.struct "Counter".toList [.atom 0, .int ⟨32, 6⟩] : Value Nat) =
      some (.struct "Counter".toList [.atom 9, .int ⟨32, 6⟩]) := hload
  simp at hread

end Mlang.BitFields
