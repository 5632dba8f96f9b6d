import Mlang.DecimalTexts
import Mlang.TypeText

namespace Mlang.SignatureKeys

open DecimalTexts (append_cons_inj)
open TypeKinds Mangling TypeText List

def kindMangle : TypeKind → Name
  | .void => "void".toList
  | .bool => "bool".toList
  | .int => "i32".toList
  | .float => "f32".toList
  | .double => "f64".toList
  | .string => "str8".toList
  | .str8 => "str8".toList
  | .str16 => "str16".toList
  | .list => "list".toList
  | .map => "map".toList
  | .tuple => "tuple".toList
  | .ptr => "ptr".toList
  | .ref => "ref".toList
  | .refMut => "ref_mut".toList
  | .struct => "struct".toList
  | .i8 => "i8".toList
  | .i16 => "i16".toList
  | .i32 => "i32".toList
  | .i64 => "i64".toList
  | .u8 => "u8".toList
  | .u16 => "u16".toList
  | .u32 => "u32".toList
  | .u64 => "u64".toList
  | _ => "unknown".toList

def joined (n n' : Name) : Name := n ++ '_' :: n'

def joinedAll (n : Name) : List Name → Name
  | [] => n
  | n' :: ns => joinedAll (joined n n') ns

mutual

/-- `type_mangle`, for which every array type is a list type. -/
def typeMangle : TypeNode → Name
  | .reference elementType isMutable =>
    joined (if isMutable then "ref_mut".toList else "ref".toList) (typeMangle elementType)
  | .pointer elementType => joined "ptr".toList (typeMangle elementType)
  | .genericList elementType => joined "list".toList (typeMangle elementType)
  | .array elementType _ => joined "list".toList (typeMangle elementType)
  | .multiArray elementType _ _ => joined "list".toList (typeMangle elementType)
  | .map keyType valueType => joined (joined "map".toList (typeMangle keyType)) (typeMangle valueType)
  | .tuple elementTypes => joinedAll "tuple".toList (typeMangles elementTypes)
  | .genericStruct structName typeArgs =>
    joinedAll (joined "struct".toList structName) (typeMangles typeArgs)
  | .structRef structName => joined "struct".toList structName
  | .scalar kind => kindMangle kind
  | .function _ _ => kindMangle .function
  | .traitObject _ => kindMangle .traitObject

def typeMangles : List TypeNode → List Name
  | [] => []
  | t :: ts => typeMangle t :: typeMangles ts

end

/-- The part of a function a signature key is made of. `constraints` is its constraint key. -/
structure Signature where
  name : Name
  parameters : List TypeNode
  isVarArg : Bool
  constraints : Name

def parameterKeys (s : Signature) : List Name :=
  s.parameters.map typeMangle ++ if s.isVarArg then ["...".toList] else []

def functionSignatureKey (s : Signature) : Name :=
  s.name ++ '(' :: (List.intercalate [','] (parameterKeys s) ++ ')' ::
    if s.constraints = [] then [] else " requires ".toList ++ s.constraints)

mutual

def typeWords : TypeNode → List Name
  | .reference elementType isMutable =>
    (if isMutable then ["ref".toList, "mut".toList] else ["ref".toList]) ++ typeWords elementType
  | .pointer elementType => "ptr".toList :: typeWords elementType
  | .genericList elementType => "list".toList :: typeWords elementType
  | .array elementType _ => "list".toList :: typeWords elementType
  | .multiArray elementType _ _ => "list".toList :: typeWords elementType
  | .map keyType valueType => "map".toList :: (typeWords keyType ++ typeWords valueType)
  | .tuple elementTypes => "tuple".toList :: typesWords elementTypes
  | .genericStruct structName typeArgs =>
    "struct".toList :: (structName.splitOn '_' ++ typesWords typeArgs)
  | .structRef structName => "struct".toList :: structName.splitOn '_'
  | .scalar kind => (kindMangle kind).splitOn '_'
  | .function _ _ => (kindMangle .function).splitOn '_'
  | .traitObject _ => (kindMangle .traitObject).splitOn '_'

def typesWords : List TypeNode → List Name
  | [] => []
  | t :: ts => typeWords t ++ typesWords ts

end

theorem splitOn_joined (n n' : Name) : (joined n n').splitOn '_' = n.splitOn '_' ++ n'.splitOn '_' :=
  splitOn_append_cons_self n n'

theorem splitOn_joinedAll (n : Name) (ns : List Name) :
    (joinedAll n ns).splitOn '_' = n.splitOn '_' ++ ns.flatMap (·.splitOn '_') := by
  induction ns generalizing n with
  | nil => simp [joinedAll]
  | cons n' ns ih =>
    rw [joinedAll, ih, splitOn_joined, flatMap_cons, append_assoc]

theorem splitOn_word {keyword : Name} (h : '_' ∉ keyword) : keyword.splitOn '_' = [keyword] :=
  splitOn_eq_singleton h

mutual

theorem splitOn_typeMangle : ∀ t : TypeNode, (typeMangle t).splitOn '_' = typeWords t
  | .reference e true => by
    have hmut : "ref_mut".toList.splitOn '_' = ["ref".toList, "mut".toList] := by decide
    rw [typeMangle, splitOn_joined, splitOn_typeMangle e, if_pos rfl, hmut]
    rfl
  | .reference e false => by
    have href := @splitOn_word "ref".toList (by decide)
    rw [typeMangle, splitOn_joined, splitOn_typeMangle e, if_neg Bool.false_ne_true, href]
    rfl
  | .pointer e => by
    rw [typeMangle, splitOn_joined, splitOn_typeMangle e, splitOn_word (by decide)]
    rfl
  | .genericList e => by
    rw [typeMangle, splitOn_joined, splitOn_typeMangle e, splitOn_word (by decide)]
    rfl
  | .array e _ => by
    rw [typeMangle, splitOn_joined, splitOn_typeMangle e, splitOn_word (by decide)]
    rfl
  | .multiArray e _ _ => by
    rw [typeMangle, splitOn_joined, splitOn_typeMangle e, splitOn_word (by decide)]
    rfl
  | .map k v => by
    rw [typeMangle, splitOn_joined, splitOn_joined, splitOn_typeMangle k, splitOn_typeMangle v,
      splitOn_word (by decide)]
    rfl
  | .tuple ts => by
    rw [typeMangle, splitOn_joinedAll, splitOn_typeMangles ts, splitOn_word (by decide)]
    rfl
  | .genericStruct n ts => by
    rw [typeMangle, splitOn_joinedAll, splitOn_joined, splitOn_typeMangles ts,
      @splitOn_word "struct".toList (by decide)]
    rfl
  | .structRef n => by
    rw [typeMangle, splitOn_joined, @splitOn_word "struct".toList (by decide)]
    rfl
  | .scalar _ | .function _ _ | .traitObject _ => rfl

theorem splitOn_typeMangles : ∀ ts : List TypeNode,
    (typeMangles ts).flatMap (·.splitOn '_') = typesWords ts
  | [] => rfl
  | t :: ts => by
    rw [typeMangles, flatMap_cons, splitOn_typeMangle t, splitOn_typeMangles ts, typesWords]

end

theorem typeMangle_eq_iff (t t' : TypeNode) : typeMangle t = typeMangle t' ↔ typeWords t = typeWords t' := by
  rw [← splitOn_typeMangle, ← splitOn_typeMangle]
  constructor
  · exact congrArg _
  · intro h
    simpa only [intercalate_splitOn] using congrArg (List.intercalate ['_']) h

def isKeyChar (c : Char) : Bool := isKept c || c = ':'

variable {n : Name} {s s' : Signature} {ks : List Name}

theorem isKeyChar_of_isPath (h : IsPath n) : ∀ c ∈ n, isKeyChar c = true := by
  intro c hc
  rcases h.chars c hc with hkept | rfl
  · simp [isKeyChar, hkept]
  · rfl

theorem isKeyChar_joined {n' : Name} (h : ∀ c ∈ n, isKeyChar c = true) (h' : ∀ c ∈ n', isKeyChar c = true) :
    ∀ c ∈ joined n n', isKeyChar c = true := by
  intro c hc
  rcases mem_append.1 hc with hc | hc
  · exact h c hc
  · rcases mem_cons.1 hc with rfl | hc
    · rfl
    · exact h' c hc

theorem isKeyChar_joinedAll {ns : List Name} (h : ∀ c ∈ n, isKeyChar c = true)
    (h' : ∀ n' ∈ ns, ∀ c ∈ n', isKeyChar c = true) : ∀ c ∈ joinedAll n ns, isKeyChar c = true := by
  induction ns generalizing n with
  | nil => exact h
  | cons n' ns ih =>
    exact ih (isKeyChar_joined h (h' n' mem_cons_self))
      fun k hk => h' k (mem_cons_of_mem _ hk)

theorem isKeyChar_kindMangle (kind : TypeKind) : ∀ c ∈ kindMangle kind, isKeyChar c = true := by
  cases kind <;> decide

mutual

theorem isKeyChar_typeMangle : ∀ t : TypeNode, WellFormed t → ∀ c ∈ typeMangle t, isKeyChar c = true
  | .reference e true, h => isKeyChar_joined (by decide) (isKeyChar_typeMangle e h)
  | .reference e false, h => isKeyChar_joined (by decide) (isKeyChar_typeMangle e h)
  | .pointer e, h => isKeyChar_joined (by decide) (isKeyChar_typeMangle e h)
  | .genericList e, h => isKeyChar_joined (by decide) (isKeyChar_typeMangle e h)
  | .array e _, h => isKeyChar_joined (by decide) (isKeyChar_typeMangle e h.1)
  | .multiArray e _ _, h => isKeyChar_joined (by decide) (isKeyChar_typeMangle e h.1)
  | .map k v, h =>
    isKeyChar_joined (isKeyChar_joined (by decide) (isKeyChar_typeMangle k h.1))
      (isKeyChar_typeMangle v h.2)
  | .tuple ts, h => isKeyChar_joinedAll (by decide) (isKeyChar_typeMangles ts h.2)
  | .genericStruct _ ts, h =>
    isKeyChar_joinedAll (isKeyChar_joined (by decide) (isKeyChar_of_isPath h.1))
      (isKeyChar_typeMangles ts h.2.2)
  | .structRef _, h => isKeyChar_joined (by decide) (isKeyChar_of_isPath h)
  | .scalar kind, _ => isKeyChar_kindMangle kind
  | .function _ _, _ => isKeyChar_kindMangle .function
  | .traitObject _, _ => isKeyChar_kindMangle .traitObject

theorem isKeyChar_typeMangles : ∀ ts : List TypeNode, AllWellFormed ts →
    ∀ n ∈ typeMangles ts, ∀ c ∈ n, isKeyChar c = true
  | [], _ => nofun
  | t :: ts, h => by
    intro n hn
    rcases mem_cons.1 hn with rfl | hn
    · exact isKeyChar_typeMangle t h.1
    · exact isKeyChar_typeMangles ts h.2 n hn

end

structure Signature.WellFormed (s : Signature) : Prop where
  name : '(' ∉ s.name
  parameters : ∀ t ∈ s.parameters, TypeText.WellFormed t

theorem mem_parameterKeys (h : s.WellFormed) {k : Name} (hk : k ∈ parameterKeys s) : ',' ∉ k ∧ ')' ∉ k := by
  rcases mem_append.1 hk with hk | hk
  · obtain ⟨t, ht, rfl⟩ := mem_map.1 hk
    have hchars := isKeyChar_typeMangle t (h.parameters t ht)
    exact ⟨fun hc => absurd (hchars _ hc) (by decide), fun hc => absurd (hchars _ hc) (by decide)⟩
  · split at hk
    · obtain rfl := mem_singleton.1 hk
      exact ⟨by decide, by decide⟩
    · cases hk

theorem not_mem_intercalate {c : Char} (hc : c ≠ ',') (h : ∀ k ∈ ks, c ∉ k) :
    c ∉ List.intercalate [','] ks := by
  induction ks with
  | nil => simp
  | cons k ks ih =>
    have hrest := ih fun k' hk' => h k' (mem_cons_of_mem _ hk')
    cases ks with
    | nil => simpa using h k mem_cons_self
    | cons k' ks =>
      rw [intercalate_cons_cons]
      simp only [mem_append, mem_singleton, not_or]
      exact ⟨⟨h k mem_cons_self, hc⟩, hrest⟩

theorem kindMangle_ne_nil (kind : TypeKind) : kindMangle kind ≠ [] := by
  cases kind <;> decide

theorem joined_ne_nil (n n' : Name) : joined n n' ≠ [] :=
  append_ne_nil_of_right_ne_nil _ (cons_ne_nil _ _)

theorem joinedAll_ne_nil (h : n ≠ []) (ns : List Name) : joinedAll n ns ≠ [] := by
  induction ns generalizing n with
  | nil => exact h
  | cons n' ns ih => exact ih (joined_ne_nil n n')

theorem typeMangle_ne_nil : ∀ t : TypeNode, typeMangle t ≠ []
  | .reference _ _ | .pointer _ | .genericList _ | .array _ _ | .multiArray _ _ _ | .map _ _
  | .structRef _ => joined_ne_nil _ _
  | .tuple ts => joinedAll_ne_nil (by decide) _
  | .genericStruct _ _ => joinedAll_ne_nil (joined_ne_nil _ _) _
  | .scalar kind => kindMangle_ne_nil kind
  | .function _ _ => kindMangle_ne_nil .function
  | .traitObject _ => kindMangle_ne_nil .traitObject

theorem intercalate_inj {ks' : List Name} (h : ∀ k ∈ ks, k ≠ [] ∧ ',' ∉ k) (h' : ∀ k ∈ ks', k ≠ [] ∧ ',' ∉ k)
    (heq : List.intercalate [','] ks = List.intercalate [','] ks') : ks = ks' := by
  have hempty : ∀ {ks : List Name}, (∀ k ∈ ks, k ≠ [] ∧ ',' ∉ k) →
      List.intercalate [','] ks = [] → ks = [] := by
    intro ks hks hnil
    cases ks with
    | nil => rfl
    | cons k ks =>
      cases ks with
      | nil => exact absurd (by simpa using hnil) (hks k mem_cons_self).1
      | cons k' ks => simp [intercalate_cons_cons] at hnil
  by_cases hnil : ks = []
  · subst hnil
    exact (hempty h' (by simpa using heq.symm)).symm
  · have hnil' : ks' ≠ [] := by
      rintro rfl
      exact hnil (hempty h (by simpa using heq))
    rw [← splitOn_intercalate ',' (fun k hk => (h k hk).2) hnil,
      ← splitOn_intercalate ',' (fun k hk => (h' k hk).2) hnil', heq]

theorem parameterKeys_eq_iff (h : s.WellFormed) (h' : s'.WellFormed) : parameterKeys s = parameterKeys s' ↔
    s.parameters.map typeWords = s'.parameters.map typeWords ∧ s.isVarArg = s'.isVarArg := by
  have hwords : ∀ ts ts' : List TypeNode,
      ts.map typeMangle = ts'.map typeMangle ↔ ts.map typeWords = ts'.map typeWords := by
    intro ts
    induction ts with
    | nil => simp
    | cons t ts ih =>
      intro ts'
      cases ts' with
      | nil => simp
      | cons t' ts' => simp [typeMangle_eq_iff, ih]
  have hdots : ∀ {s : Signature}, s.WellFormed → "...".toList ∉ s.parameters.map typeMangle := by
    intro s hs hmem
    obtain ⟨t, ht, hdot⟩ := mem_map.1 hmem
    have hchar := isKeyChar_typeMangle t (hs.parameters t ht) '.' (hdot ▸ by decide)
    revert hchar
    decide
  unfold parameterKeys
  cases hs : s.isVarArg with
  | false =>
    cases hs' : s'.isVarArg with
    | false => simpa using hwords _ _
    | true =>
      simp only [Bool.false_eq_true, if_false, if_true, append_nil, and_false, iff_false]
      intro heq
      exact hdots h (heq ▸ mem_append_right _ mem_cons_self)
  | true =>
    cases hs' : s'.isVarArg with
    | false =>
      simp only [Bool.false_eq_true, if_false, if_true, append_nil, reduceCtorEq, and_false, iff_false]
      intro heq
      exact hdots h' (heq ▸ mem_append_right _ mem_cons_self)
    | true => simpa using hwords _ _

theorem functionSignatureKey_eq_iff (h : s.WellFormed) (h' : s'.WellFormed) :
    functionSignatureKey s = functionSignatureKey s' ↔ s.name = s'.name ∧
    s.parameters.map typeWords = s'.parameters.map typeWords ∧ s.isVarArg = s'.isVarArg ∧
    s.constraints = s'.constraints := by
  have hkeys : ∀ {s : Signature}, s.WellFormed → ∀ k ∈ parameterKeys s, k ≠ [] ∧ ',' ∉ k := by
    intro s hs k hk
    refine ⟨?_, (mem_parameterKeys hs hk).1⟩
    rcases mem_append.1 hk with hk | hk
    · obtain ⟨t, -, rfl⟩ := mem_map.1 hk
      exact typeMangle_ne_nil t
    · split at hk
      · obtain rfl := mem_singleton.1 hk
        decide
      · cases hk
  constructor
  · intro heq
    have hclose : ∀ {s : Signature}, s.WellFormed → ')' ∉ List.intercalate [','] (parameterKeys s) :=
      fun hs => not_mem_intercalate (by decide) fun k hk => (mem_parameterKeys hs hk).2
    obtain ⟨hname, hrest⟩ := append_cons_inj h.name h'.name heq
    obtain ⟨hparameters, hsuffix⟩ := append_cons_inj (hclose h) (hclose h') hrest
    obtain ⟨hwords, hvar⟩ :=
      (parameterKeys_eq_iff h h').1 (intercalate_inj (hkeys h) (hkeys h') hparameters)
    refine ⟨hname, hwords, hvar, ?_⟩
    by_cases hs : s.constraints = []
    · by_cases hs' : s'.constraints = []
      · rw [hs, hs']
      · rw [if_pos hs, if_neg hs'] at hsuffix
        cases hsuffix
    · by_cases hs' : s'.constraints = []
      · rw [if_neg hs, if_pos hs'] at hsuffix
        cases hsuffix
      · rw [if_neg hs, if_neg hs'] at hsuffix
        exact append_cancel_left hsuffix
  · rintro ⟨hname, hwords, hvar, hconstraints⟩
    have hparameters := (parameterKeys_eq_iff h h').2 ⟨hwords, hvar⟩
    rw [functionSignatureKey, functionSignatureKey, hname, hparameters, hconstraints]

end Mlang.SignatureKeys
