import Mlang.TypeText

namespace Mlang.TypeRoundTrip

open TypeKinds Mangling BracketedText TypeText List Option

variable {c : Char} {ts : List Text} {name : Name} {head : Text}

structure Printed (s : Text) : Prop where
  tight : Tight s
  passes : Passes 0 s
  balanced : Balanced s
  last : s.getLast? ≠ some '-'
  notMutable : ¬ "mut ".toList <+: s

def isWordChar (c : Char) : Bool := isKept c || c = ':'

theorem isWordChar_plain (h : isWordChar c = true) :
    isSpace c = false ∧ isPlain c = true ∧ c ≠ '(' ∧ c ≠ ')' ∧ c ≠ '-' ∧ c ≠ '<' ∧ c ≠ '&' := by
  have hne : ∀ a : Char, isWordChar a = false → c ≠ a := by
    rintro a ha rfl
    rw [h] at ha
    cases ha
  have hspace : isSpace c = false := by
    rw [isSpace, Bool.or_eq_false_iff]
    refine ⟨by simpa using hne ' ' (by decide), ?_⟩
    rw [Bool.and_eq_false_iff]
    by_contra hcon
    rw [not_or] at hcon
    simp only [decide_eq_false_iff_not, not_not] at hcon
    obtain ⟨hlo, hhi⟩ := hcon
    have hchar : c = Char.ofNat c.toNat := (Char.ofNat_toNat c).symm
    have hrange : c.toNat = 9 ∨ c.toNat = 10 ∨ c.toNat = 11 ∨ c.toNat = 12 ∨ c.toNat = 13 := by
      omega
    rcases hrange with hn | hn | hn | hn | hn
    all_goals
      rw [hn] at hchar
      exact hne _ (by decide) hchar
  refine ⟨hspace, ?_, hne _ (by decide), hne _ (by decide), hne _ (by decide), hne _ (by decide),
    hne _ (by decide)⟩
  simp [isPlain, opens, hne '<' (by decide), hne '(' (by decide), hne '[' (by decide),
    hne ')' (by decide), hne ']' (by decide), hne '>' (by decide), hne ',' (by decide)]

def IsWord (s : Text) : Prop := s ≠ [] ∧ ∀ c ∈ s, isWordChar c = true

instance (s : Text) : Decidable (IsWord s) := inferInstanceAs (Decidable (_ ∧ _))

theorem isWord_of_isPath (h : IsPath name) : IsWord name := by
  refine ⟨h.ne_nil, fun c hc => ?_⟩
  rcases h.chars c hc with hkept | rfl
  · simp [isWordChar, hkept]
  · rfl

theorem printed_word {s : Text} (h : IsWord s) : Printed s where
  tight := tight_of_forall h.1 fun c hc => (isWordChar_plain (h.2 c hc)).1
  passes := passes_plain (fun c hc => (isWordChar_plain (h.2 c hc)).2.1) 0
  balanced := balanced_of_forall fun c hc =>
    ⟨(isWordChar_plain (h.2 c hc)).2.2.1, (isWordChar_plain (h.2 c hc)).2.2.2.1⟩
  last := fun hlast =>
    (isWordChar_plain (h.2 _ (mem_of_mem_getLast? hlast))).2.2.2.2.1 rfl
  notMutable := by
    intro hstart
    have hspace := h.2 ' ' (hstart.subset (by decide))
    revert hspace
    decide

theorem printed_intText (n : Nat) : Printed (intText n) := by
  refine printed_word ⟨Nat.toDigits_ne_nil, fun c hc => ?_⟩
  have hdigit := Nat.isDigit_of_mem_toDigits (by decide) (by decide) hc
  simp [isWordChar, isKept, Char.isAlphanum, hdigit]

theorem printed_bracketed {inner : Text} (hhead : IsWord head) (hpasses : Passes 1 inner)
    (hbalanced : Balanced inner) (hlast : inner.getLast? ≠ some '-') : Printed (bracketed head inner) where
  tight := (printed_word hhead).tight.append (Tight.surround rfl rfl)
  passes := (printed_word hhead).passes.append (passes_brackets hpasses hlast rfl (Or.inr rfl))
  balanced := by
    have hopen : Balanced ['<'] := balanced_of_forall (by decide)
    have hclose : Balanced ['>'] := balanced_of_forall (by decide)
    exact (printed_word hhead).balanced.append (hopen.append (hbalanced.append hclose))
  last := by
    rw [bracketed, ← cons_append, ← append_assoc, getLast?_concat]
    decide
  notMutable := by
    intro hstart
    exact (printed_word hhead).notMutable (prefix_of_bracketed (by decide) hstart)

theorem getLast?_commaSeparated : ∀ {ts : List Text}, (∀ t ∈ ts, Printed t) →
    (commaSeparated ts).getLast? ≠ some '-'
  | [], _ => nofun
  | [t], h => (h t mem_cons_self).last
  | t :: t' :: ts, h => by
    have hrest := getLast?_commaSeparated fun s hs => h s (mem_cons_of_mem _ hs)
    have hne : commaSeparated (t' :: ts) ≠ [] := by
      cases ts with
      | nil => exact (h t' (by simp)).tight.ne_nil
      | cons t'' ts => simp [commaSeparated]
    rw [commaSeparated, getLast?_append_of_ne_nil _ (cons_ne_nil _ _),
      getLast?_cons_cons, getLast?_cons_of_ne_nil hne]
    exact hrest

theorem printed_generic (hhead : IsWord head) (h : ∀ t ∈ ts, Printed t) :
    Printed (bracketed head (commaSeparated ts)) :=
  printed_bracketed hhead (passes_commaSeparated fun t ht => (h t ht).passes)
    (balanced_commaSeparated fun t ht => (h t ht).balanced) (getLast?_commaSeparated h)

theorem printed_prefixed {keyword s : Text} (hkeyword : Tight keyword)
    (hpasses : Passes 0 keyword) (hbalanced : Balanced keyword)
    (hmut : ∀ rest, ¬ "mut ".toList <+: keyword ++ rest) (m : Text) (hm : Passes 0 m)
    (hm' : Balanced m) (h : Printed s) : Printed (keyword ++ m ++ s) where
  tight := hkeyword.between h.tight m
  passes := (hpasses.append hm).append h.passes
  balanced := (hbalanced.append hm').append h.balanced
  last := by
    rw [getLast?_append_of_ne_nil _ h.tight.ne_nil]
    exact h.last
  notMutable := by
    rw [append_assoc]
    exact hmut _

theorem printed_reference {s : Text} (h : Printed s) (isMutable : Bool) :
    Printed ((if isMutable then "&mut ".toList else "&".toList) ++ s) := by
  have hmut : ∀ rest, ¬ "mut ".toList <+: "&".toList ++ rest := by
    rintro rest ⟨tail, htail⟩
    exact absurd (List.cons.inj htail).1 (by decide)
  have hpasses : Passes 0 "&".toList := passes_plain (by decide) 0
  have hbalanced : Balanced "&".toList := balanced_of_forall (by decide)
  have htight : Tight "&".toList := tight_of_forall (by decide) (by decide)
  cases isMutable with
  | false =>
    have hprinted := printed_prefixed htight hpasses hbalanced hmut []
      (passes_plain (by decide) 0) (balanced_of_forall (by decide)) h
    rwa [append_nil] at hprinted
  | true =>
    exact printed_prefixed htight hpasses hbalanced hmut "mut ".toList
      (passes_plain (by decide) 0) (balanced_of_forall (by decide)) h

theorem printed_traitObject {name : Text} (h : IsWord name) : Printed ("dyn ".toList ++ name) := by
  refine @printed_prefixed "dyn".toList _ (tight_of_forall (by decide) (by decide))
    (passes_plain (by decide) 0) (balanced_of_forall (by decide)) ?_ " ".toList
    (passes_plain (by decide) 0) (balanced_of_forall (by decide)) (printed_word h)
  rintro rest ⟨tail, htail⟩
  exact absurd (List.cons.inj htail).1 (by decide)

theorem printed_function {s : Text} (hts : ∀ t ∈ ts, Printed t) (h : Printed s) :
    Printed ("fn".toList ++ ('(' :: commaSeparated ts ++ [')']) ++ " -> ".toList ++ s) := by
  have hinner := passes_commaSeparated fun t ht => (hts t ht).passes
  have hbalanced := balanced_commaSeparated fun t ht => (hts t ht).balanced
  have hfn : Tight "fn".toList := tight_of_forall (by decide) (by decide)
  refine printed_prefixed (hfn.append (Tight.surround rfl rfl)) ?_ ?_ ?_ " -> ".toList
    (passes_arrow 0) (balanced_of_forall (by decide)) h
  · exact (passes_plain (by decide) 0).append
      (passes_brackets hinner (getLast?_commaSeparated hts) rfl (Or.inl rfl))
  · exact (balanced_of_forall (by decide)).append hbalanced.parens
  · rintro rest ⟨tail, htail⟩
    exact absurd (List.cons.inj htail).1 (by decide)

theorem printed_kindText (kind : TypeKind) : Printed (kindText kind) := by
  apply printed_word
  cases kind <;> exact ⟨by decide, by decide⟩

mutual

theorem printed_typeText : ∀ (t : TypeNode), WellFormed t → ∀ inside, Printed (typeText inside t)
  | .scalar kind, _, _ => printed_kindText kind
  | .structRef _, h, _ => printed_word (isWord_of_isPath h)
  | .genericStruct _ ts, h, _ =>
    printed_generic (isWord_of_isPath h.1) (printed_typeTexts ts h.2.2)
  | .genericList e, h, _ => by
    have he := printed_typeText e h false
    exact printed_bracketed (by decide) (he.passes.mono (by decide)) he.balanced he.last
  | .array e c, h, true => printed_typeText e h.1 true
  | .array e c, h, false => by
    obtain ⟨n, rfl⟩ := Int.eq_ofNat_of_zero_le h.2.1
    refine printed_generic (by decide) fun t ht => ?_
    rcases mem_pair.1 ht with rfl | rfl
    · exact printed_typeText e h.1 false
    · exact printed_intText n
  | .multiArray e c m, h, true => printed_typeText e h.1 true
  | .multiArray e c m, h, false => by
    refine printed_generic ?_ fun t ht => ?_
    · cases m <;> decide
    · rcases mem_cons.1 ht with rfl | ht
      · exact printed_typeText e h.1 true
      · obtain ⟨d, hd, rfl⟩ := mem_map.1 ht
        have hnonneg : 0 ≤ d := by
          rcases mem_cons.1 hd with rfl | hd
          · exact h.2.1
          · exact (dimensions_bounds e h.1 d hd).1
        obtain ⟨n, rfl⟩ := Int.eq_ofNat_of_zero_le hnonneg
        exact printed_intText n
  | .map k v, h, _ => by
    refine printed_generic (by decide) fun t ht => ?_
    rcases mem_pair.1 ht with rfl | rfl
    · exact printed_typeText k h.1 false
    · exact printed_typeText v h.2 false
  | .tuple ts, h, _ => printed_generic (by decide) (printed_typeTexts ts h.2)
  | .pointer e, h, _ => by
    have he := printed_typeText e h false
    exact printed_bracketed (by decide) (he.passes.mono (by decide)) he.balanced he.last
  | .reference e isMutable, h, _ => printed_reference (printed_typeText e h false) isMutable
  | .function ts r, h, _ =>
    printed_function (printed_typeTexts ts h.1) (printed_typeText r h.2 false)
  | .traitObject _, h, _ => printed_traitObject (isWord_of_isPath h)

theorem printed_typeTexts : ∀ (ts : List TypeNode), AllWellFormed ts → ∀ t ∈ typeTexts ts, Printed t
  | [], _ => nofun
  | t :: ts, h => by
    intro s hs
    rcases mem_cons.1 hs with rfl | hs
    · exact printed_typeText t h.1 false
    · exact printed_typeTexts ts h.2 s hs

theorem dimensions_bounds : ∀ (t : TypeNode), WellFormed t → ∀ d ∈ dimensions t, 0 ≤ d ∧ d < 2 ^ 63
  | .array e c, h, d, hd => by
    rcases mem_cons.1 hd with rfl | hd
    · exact h.2
    · exact dimensions_bounds e h.1 d hd
  | .multiArray e c _, h, d, hd => by
    rcases mem_cons.1 hd with rfl | hd
    · exact h.2
    · exact dimensions_bounds e h.1 d hd
  | .scalar _, _, _, hd | .structRef _, _, _, hd | .genericStruct _ _, _, _, hd
  | .genericList _, _, _, hd | .map _ _, _, _, hd | .tuple _, _, _, hd | .pointer _, _, _, hd
  | .reference _ _, _, _, hd | .function _ _, _, _, hd | .traitObject _, _, _, hd => nomatch hd

end

variable (read : Text → TypeNode)
variable {s inner t : Text}

theorem lookup_primitive_eq_none (hc : c ∈ s) (h : ∀ p ∈ primitiveTypeAliases, c ∉ p.1) :
    primitiveTypeAliases.lookup s = none := by
  rw [lookup_eq_none_iff]
  intro p hp
  rw [bne_iff_ne]
  rintro rfl
  exact h p hp hc

theorem readType_bracketed (hhead : IsWord head) (hinner : inner ≠ []) :
    readType read (bracketed head inner) = if head =
    "ptr".toList then .pointer (read inner) else (arrayFromText read (bracketed head inner)).getD
    (containerFromText read (bracketed head inner)) := by
  have hopen : '<' ∈ bracketed head inner := by simp [bracketed]
  have hnot : '<' ∉ head := fun hmem => (isWordChar_plain (hhead.2 _ hmem)).2.2.2.2.2.1 rfl
  have hvoid : bracketed head inner ≠ "void".toList := by
    intro h
    rw [h] at hopen
    revert hopen
    decide
  have hstart : ∀ (keyword : Text) c, c ∈ keyword → '<' ∉ keyword → isWordChar c = false →
      keyword.isPrefixOf (bracketed head inner) = false := by
    intro keyword c hmem hk hc
    rw [← Bool.not_eq_true, isPrefixOf_iff_prefix]
    intro h
    rw [hhead.2 c ((prefix_of_bracketed hk h).subset hmem)] at hc
    cases hc
  have hlookup := lookup_primitive_eq_none hopen (by decide)
  have hfunction : functionFromText read (bracketed head inner) = none := by
    rw [functionFromText, hstart "fn(".toList '(' (by decide) (by decide) (by decide)]
    rfl
  have hptr : isWrappedGeneric (bracketed head inner) "ptr".toList =
      decide ("ptr".toList = head) := isWrappedGeneric_bracketed (by decide) hnot hinner
  rw [readType, if_neg hvoid, hstart "&mut ".toList '&' (by decide) (by decide) (by decide),
    hstart "&".toList '&' (by decide) (by decide) (by decide), hptr, hlookup,
    hstart "dyn ".toList ' ' (by decide) (by decide) (by decide), hfunction]
  by_cases heq : head = "ptr".toList
  · subst heq
    simp only [decide_true, if_true, Bool.false_eq_true, if_false]
    rw [bracketed, wrapped_bracketed]
  · have hne : ¬ "ptr".toList = head := fun e => heq e.symm
    rw [if_neg heq, decide_eq_false hne]
    rfl

theorem readType_pointer (hinner : inner ≠ []) :
    readType read (bracketed "ptr".toList inner) = .pointer (read inner) := by
  rw [readType_bracketed read (by decide) hinner, if_pos rfl]

theorem find_wrapper (wrapper : ArrayWrapper) (hinner : inner ≠ []) :
    [ArrayWrapper.array, .multiarray, .mutmultiarray].find?
    (fun w => isWrappedGeneric (bracketed wrapper.head inner) w.head) = some wrapper := by
  have hwrapped : ∀ w : ArrayWrapper, isWrappedGeneric (bracketed wrapper.head inner) w.head =
      decide (w.head = wrapper.head) := by
    intro w
    refine isWrappedGeneric_bracketed ?_ ?_ hinner
    · cases w <;> decide
    · cases wrapper <;> decide
  simp only [find?_cons, hwrapped]
  cases wrapper <;> rfl

theorem arrayFromText_eq_none (hhead : IsWord head) (hinner : inner ≠ [])
    (hne : ∀ wrapper : ArrayWrapper, wrapper.head ≠ head) :
    arrayFromText read (bracketed head inner) = none := by
  have hnot : '<' ∉ head := fun hmem => (isWordChar_plain (hhead.2 _ hmem)).2.2.2.2.2.1 rfl
  have hwrapped : ∀ w : ArrayWrapper, isWrappedGeneric (bracketed head inner) w.head = false := by
    intro w
    have hkeyword : '<' ∉ w.head := by cases w <;> decide
    have heq := isWrappedGeneric_bracketed hkeyword hnot hinner
    rwa [decide_eq_false (hne w)] at heq
  rw [arrayFromText]
  simp only [find?_cons, hwrapped, find?_nil]

theorem mapM_int64FromChars : ∀ {ns : List Int}, (∀ n ∈ ns, 0 ≤ n ∧ n < 2 ^ 63) →
    (ns.map intText).mapM int64FromChars = some ns
  | [], _ => rfl
  | n :: ns, h => by
    obtain ⟨hlo, hhi⟩ := h n mem_cons_self
    obtain ⟨k, rfl⟩ := Int.eq_ofNat_of_zero_le hlo
    have hdigits : ∀ c ∈ Nat.toDigits 10 k, c.isDigit = true :=
      fun c hc => Nat.isDigit_of_mem_toDigits (by decide) (by decide) hc
    have hvalue : Nat.ofDigitChars 10 (Nat.toDigits 10 k) 0 = k :=
      Nat.ofDigitChars_toDigits (by decide) (by decide)
    have hfront : int64FromChars (Nat.toDigits 10 k) = some (k : Int) := by
      unfold int64FromChars
      split
      · next ds hds =>
        have hminus := hdigits '-' (hds ▸ mem_cons_self)
        exact absurd hminus (by decide)
      · have hall : (Nat.toDigits 10 k).all Char.isDigit = true := all_eq_true.2 hdigits
        have hlt : k < 2 ^ 63 := by exact_mod_cast hhi
        rw [if_pos ⟨Nat.toDigits_ne_nil, hall, by rwa [hvalue]⟩, hvalue]
    have hrest := mapM_int64FromChars fun m hm => h m (mem_cons_of_mem _ hm)
    rw [map_cons, mapM_cons, hrest]
    exact congrArg (Option.bind · _) hfront

theorem readType_array (wrapper : ArrayWrapper) {element : Text} {n : Int} {ns : List Int}
    (helement : Printed element) (hns : ∀ m ∈ n :: ns, 0 ≤ m ∧ m < 2 ^ 63) :
    readType read
        (bracketed wrapper.head (commaSeparated (element :: (n :: ns).map intText))) =
      (n :: ns).foldr wrapper.build (read element) := by
  have hinner : commaSeparated (element :: (n :: ns).map intText) ≠ [] :=
    append_ne_nil_of_left_ne_nil helement.tight.ne_nil _
  have hword : IsWord wrapper.head := by cases wrapper <;> decide
  have hptr : wrapper.head ≠ "ptr".toList := by cases wrapper <;> decide
  have hsplit : splitTopLevelCommas (commaSeparated (element :: (n :: ns).map intText)) =
      element :: (n :: ns).map intText := by
    refine splitTopLevelCommas_commaSeparated fun t ht => ?_
    rcases mem_cons.1 ht with rfl | ht
    · exact ⟨helement.passes, helement.tight⟩
    · obtain ⟨m, hm, rfl⟩ := mem_map.1 ht
      obtain ⟨k, rfl⟩ := Int.eq_ofNat_of_zero_le (hns m hm).1
      exact ⟨(printed_intText k).passes, (printed_intText k).tight⟩
  have hparse := mapM_int64FromChars hns
  rw [map_cons] at hsplit hparse hinner ⊢
  have harray : arrayFromText read
      (bracketed wrapper.head (commaSeparated (element :: intText n :: ns.map intText))) =
        some ((n :: ns).foldr wrapper.build (read element)) := by
    rw [arrayFromText, find_wrapper wrapper hinner]
    simp only [bracketed, wrapped_bracketed, hsplit, hparse]
  rw [readType_bracketed read hword hinner, if_neg hptr, harray, getD_some]

theorem readType_container (hhead : IsWord head) (hinner : inner ≠ []) (hptr : head ≠ "ptr".toList)
    (harray : ∀ wrapper : ArrayWrapper, wrapper.head ≠ head) :
    readType read (bracketed head inner) = containerFromText read (bracketed head inner) := by
  rw [readType_bracketed read hhead hinner, if_neg hptr,
    arrayFromText_eq_none read hhead hinner harray, getD_none]

theorem isWrappedGeneric_word {keyword : Text} (hhead : IsWord head) (hkeyword : '<' ∉ keyword)
    (hinner : inner ≠ []) : isWrappedGeneric (bracketed head inner) keyword = decide (keyword = head) :=
  isWrappedGeneric_bracketed hkeyword
    (fun hmem => (isWordChar_plain (hhead.2 _ hmem)).2.2.2.2.2.1 rfl) hinner

theorem readType_list (hinner : inner ≠ []) :
    readType read (bracketed "list".toList inner) = .genericList (read inner) := by
  have hwrapped := @isWrappedGeneric_word "list".toList _ "list".toList (by decide) (by decide) hinner
  rw [readType_container read (by decide) hinner (by decide) fun w => by cases w <;> decide,
    containerFromText, hwrapped, decide_eq_true rfl, if_pos rfl, bracketed, wrapped_bracketed]

theorem commaSeparated_ne_nil (h : t ≠ []) : commaSeparated (t :: ts) ≠ [] := by
  cases ts with
  | nil => exact h
  | cons t' ts => exact append_ne_nil_of_left_ne_nil h _

theorem readType_map {key value : Text} (hkey : Printed key) (hvalue : Printed value) :
    readType read (bracketed "map".toList (commaSeparated [key, value])) =
      .map (read key) (read value) := by
  have hinner : commaSeparated [key, value] ≠ [] := commaSeparated_ne_nil hkey.tight.ne_nil
  have hlist := @isWrappedGeneric_word "map".toList _ "list".toList (by decide) (by decide) hinner
  have hmap := @isWrappedGeneric_word "map".toList _ "map".toList (by decide) (by decide) hinner
  have hsplit : splitTopLevelCommas (commaSeparated [key, value]) = [key, value] := by
    refine splitTopLevelCommas_commaSeparated fun t ht => ?_
    rcases mem_pair.1 ht with rfl | rfl
    · exact ⟨hkey.passes, hkey.tight⟩
    · exact ⟨hvalue.passes, hvalue.tight⟩
  rw [readType_container read (by decide) hinner (by decide) fun w => by cases w <;> decide,
    containerFromText, hlist, decide_eq_false (by decide), hmap, decide_eq_true rfl]
  simp only [Bool.false_eq_true, if_false, bracketed, wrapped_bracketed, hsplit]

theorem readType_tuple (h : ∀ s ∈ t :: ts, Printed s) :
    readType read (bracketed "tuple".toList (commaSeparated (t :: ts))) = .tuple ((t :: ts).map read) := by
  have hinner : commaSeparated (t :: ts) ≠ [] :=
    commaSeparated_ne_nil (h t mem_cons_self).tight.ne_nil
  have hlist := @isWrappedGeneric_word "tuple".toList _ "list".toList (by decide) (by decide) hinner
  have hmap := @isWrappedGeneric_word "tuple".toList _ "map".toList (by decide) (by decide) hinner
  have htuple := @isWrappedGeneric_word "tuple".toList _ "tuple".toList (by decide) (by decide) hinner
  have hsplit := splitTopLevelCommas_commaSeparated fun s hs =>
    ⟨(h s hs).passes, (h s hs).tight⟩
  rw [readType_container read (by decide) hinner (by decide) fun w => by cases w <;> decide,
    containerFromText, hlist, decide_eq_false (by decide), hmap, decide_eq_false (by decide),
    htuple, decide_eq_true rfl]
  simp only [Bool.false_eq_true, if_false, if_true, bracketed, wrapped_bracketed, hsplit]

theorem readType_genericStruct {name : Text} (hname : IsPath name) (h : ∀ s ∈ t :: ts, Printed s) :
    readType read (bracketed name (commaSeparated (t :: ts))) = .genericStruct name ((t :: ts).map read) := by
  have hword := isWord_of_isPath hname
  have hinner : commaSeparated (t :: ts) ≠ [] :=
    commaSeparated_ne_nil (h t mem_cons_self).tight.ne_nil
  have hkeyword : ∀ keyword ∈ keywords, keyword ≠ name := by
    rintro keyword hk rfl
    exact hname.notKeyword hk
  have hwrapped : ∀ keyword ∈ keywords, '<' ∉ keyword →
      isWrappedGeneric (bracketed name (commaSeparated (t :: ts))) keyword = false := by
    intro keyword hk hopen
    rw [isWrappedGeneric_word hword hopen hinner, decide_eq_false (hkeyword keyword hk)]
  have hsplit := splitTopLevelCommas_commaSeparated fun s hs =>
    ⟨(h s hs).passes, (h s hs).tight⟩
  have hnot : ∀ c ∈ name, decide (c ≠ '<') = true := fun c hc =>
    decide_eq_true (isWordChar_plain (hword.2 c hc)).2.2.2.2.2.1
  have htake : (bracketed name (commaSeparated (t :: ts))).takeWhile (· ≠ '<') = name := by
    rw [bracketed, takeWhile_append_of_pos hnot, takeWhile_cons_of_neg (by decide), append_nil]
  have hdrop : (bracketed name (commaSeparated (t :: ts))).dropWhile (· ≠ '<') =
      '<' :: (commaSeparated (t :: ts) ++ ['>']) := by
    rw [bracketed, dropWhile_append_of_pos hnot, dropWhile_cons_of_neg (by decide)]
  have hmem : '<' ∈ bracketed name (commaSeparated (t :: ts)) := by simp [bracketed]
  have hlast : (bracketed name (commaSeparated (t :: ts))).getLast? = some '>' := by
    rw [bracketed, ← cons_append, ← append_assoc, getLast?_concat]
  have harray : ∀ wrapper : ArrayWrapper, wrapper.head ≠ name := fun w => by
    cases w <;> exact hkeyword _ (by decide)
  rw [readType_container read hword hinner (hkeyword _ (by decide)).symm harray,
    containerFromText, hwrapped _ (by decide) (by decide), hwrapped "map".toList (by decide)
    (by decide), hwrapped "tuple".toList (by decide) (by decide)]
  simp only [Bool.false_eq_true, if_false]
  rw [genericFromText, if_pos ⟨hmem, hlast⟩, htake, hdrop, (printed_word hword).tight.trimCopy,
    tail_cons, dropLast_concat, hsplit]

theorem readType_kindText (kind : TypeKind) :
    readType read (kindText kind) = reread none (.scalar kind) := by
  cases kind <;> rfl

theorem readType_structRef (hname : IsPath name) : readType read name = .structRef name := by
  have hword := isWord_of_isPath hname
  have hvoid : name ≠ "void".toList := fun e => hname.notKeyword (e ▸ by decide)
  have hstart : ∀ (keyword : Text) c, c ∈ keyword → isWordChar c = false →
      keyword.isPrefixOf name = false := by
    intro keyword c hmem hc
    rw [← Bool.not_eq_true, isPrefixOf_iff_prefix]
    intro h
    rw [hword.2 c (h.subset hmem)] at hc
    cases hc
  have hwrapped : ∀ keyword : Text, isWrappedGeneric name keyword = false := by
    intro keyword
    rw [isWrappedGeneric, hstart (keyword ++ ['<']) '<' (by simp) (by decide), Bool.and_false,
      Bool.false_and]
  have hlookup : primitiveTypeAliases.lookup name = none := by
    rw [lookup_eq_none_iff]
    intro p hp
    rw [bne_iff_ne]
    rintro rfl
    exact hname.notKeyword
      (mem_cons_of_mem _ (mem_append_left _ (mem_map_of_mem hp)))
  have hopen : ¬ ('<' ∈ name ∧ name.getLast? = some '>') := fun h =>
    (isWordChar_plain (hword.2 _ h.1)).2.2.2.2.2.1 rfl
  have hfunction : functionFromText read name = none := by
    rw [functionFromText, hstart "fn(".toList '(' (by decide) (by decide)]
    rfl
  have harray : arrayFromText read name = none := by
    rw [arrayFromText]
    simp only [find?_cons, hwrapped, find?_nil]
  rw [readType, if_neg hvoid, hstart "&mut ".toList '&' (by decide) (by decide),
    hstart "&".toList '&' (by decide) (by decide), hwrapped, hlookup,
    hstart "dyn ".toList ' ' (by decide) (by decide), hfunction, harray]
  simp only [Bool.false_eq_true, if_false, or_none, getD_none]
  rw [containerFromText, hwrapped, hwrapped, hwrapped, genericFromText, if_neg hopen]
  simp

theorem readType_reference (h : Printed s) (isMutable : Bool) :
    readType read ((if isMutable then "&mut ".toList else "&".toList) ++ s) =
    .reference (read s) isMutable := by
  cases isMutable with
  | true => rfl
  | false =>
    have hmut : "&mut ".toList.isPrefixOf ("&".toList ++ s) = "mut ".toList.isPrefixOf s := rfl
    have hnot : "mut ".toList.isPrefixOf s = false := by
      rw [← Bool.not_eq_true, isPrefixOf_iff_prefix]
      exact h.notMutable
    have hvoid : "&".toList ++ s ≠ "void".toList := fun e =>
      absurd (List.cons.inj e).1 (by decide)
    simp only [Bool.false_eq_true, if_false]
    rw [readType, if_neg hvoid, hmut, hnot]
    rfl

theorem readType_traitObject (h : IsWord name) :
    readType read ("dyn ".toList ++ name) = .traitObject name := by
  have hlookup := lookup_primitive_eq_none (s := "dyn ".toList ++ name) (c := ' ')
    (mem_append_left _ (by decide)) (by decide)
  have hvoid : "dyn ".toList ++ name ≠ "void".toList := fun e =>
    absurd (List.cons.inj e).1 (by decide)
  have hptr : isWrappedGeneric ("dyn ".toList ++ name) "ptr".toList = false := by
    rw [isWrappedGeneric]
    have hstart : ("ptr".toList ++ ['<']).isPrefixOf ("dyn ".toList ++ name) = false := rfl
    rw [hstart, Bool.and_false, Bool.false_and]
  have hmut : "&mut ".toList.isPrefixOf ("dyn ".toList ++ name) = false := rfl
  have hand : "&".toList.isPrefixOf ("dyn ".toList ++ name) = false := rfl
  have hdyn : "dyn ".toList.isPrefixOf ("dyn ".toList ++ name) = true := rfl
  have hdrop : ("dyn ".toList ++ name).drop 4 = name := rfl
  rw [readType, if_neg hvoid, hmut, hand, hptr, hlookup, hdyn, hdrop, (printed_word h).tight.trimCopy]
  rfl

theorem tight_commaSeparated : ∀ {t : Text} {ts : List Text}, (∀ s ∈ t :: ts, Tight s) →
    Tight (commaSeparated (t :: ts))
  | t, [], h => h t mem_cons_self
  | t, t' :: ts, h => by
    have hrest := tight_commaSeparated fun s hs => h s (mem_cons_of_mem _ hs)
    have hbetween := (h t mem_cons_self).between hrest [',', ' ']
    rwa [append_assoc] at hbetween

theorem readType_fn (rest : Text) :
    readType read ('f' :: 'n' :: '(' :: rest) = ((functionFromText read ('f' :: 'n' :: '(' :: rest)).or
        (arrayFromText read ('f' :: 'n' :: '(' :: rest))).getD
          (containerFromText read ('f' :: 'n' :: '(' :: rest)) := by
  have hlookup := lookup_primitive_eq_none (s := 'f' :: 'n' :: '(' :: rest) (c := '(') (by simp)
    (by decide)
  have hvoid : 'f' :: 'n' :: '(' :: rest ≠ "void".toList := fun e =>
    absurd (List.cons.inj e).1 (by decide)
  have hptr : isWrappedGeneric ('f' :: 'n' :: '(' :: rest) "ptr".toList = false := by
    have hstart : ("ptr".toList ++ ['<']).isPrefixOf ('f' :: 'n' :: '(' :: rest) = false := rfl
    rw [isWrappedGeneric, hstart, Bool.and_false, Bool.false_and]
  have hmut : "&mut ".toList.isPrefixOf ('f' :: 'n' :: '(' :: rest) = false := rfl
  have hand : "&".toList.isPrefixOf ('f' :: 'n' :: '(' :: rest) = false := rfl
  have hdyn : "dyn ".toList.isPrefixOf ('f' :: 'n' :: '(' :: rest) = false := rfl
  rw [readType, if_neg hvoid, hmut, hand, hptr, hlookup, hdyn]
  rfl

theorem readType_function (hts : ∀ t ∈ ts, Printed t) (h : Printed s) :
    readType read ("fn".toList ++ ('(' :: commaSeparated ts ++ [')']) ++ " -> ".toList ++ s) =
    .function (ts.map read) (read (' ' :: s)) := by
  have htext : "fn".toList ++ ('(' :: commaSeparated ts ++ [')']) ++ " -> ".toList ++ s =
      'f' :: 'n' :: '(' :: (commaSeparated ts ++ ')' :: (' ' :: '-' :: '>' :: ' ' :: s)) := by
    simp
  rw [htext]
  have hclose := closeParen_of_balanced (balanced_commaSeparated fun t ht => (hts t ht).balanced)
    (' ' :: '-' :: '>' :: ' ' :: s)
  have hresult : trimCopy (' ' :: '-' :: '>' :: ' ' :: s) = '-' :: '>' :: ' ' :: s := by
    have harrow : Tight ['-', '>'] := tight_of_forall (by decide) (by decide)
    rw [trimCopy_cons rfl]
    exact (harrow.between h.tight [' ']).trimCopy
  have hparameters : (if trimCopy (commaSeparated ts) = [] then []
      else (splitTopLevelCommas (trimCopy (commaSeparated ts))).map read) = ts.map read := by
    cases ts with
    | nil => rfl
    | cons t ts =>
      have htight := tight_commaSeparated fun s hs => (hts s hs).tight
      have hsplit := splitTopLevelCommas_commaSeparated fun s hs =>
        ⟨(hts s hs).passes, (hts s hs).tight⟩
      rw [htight.trimCopy, if_neg htight.ne_nil, hsplit]
  have hfunction : functionFromText read
      ('f' :: 'n' :: '(' :: (commaSeparated ts ++ ')' :: (' ' :: '-' :: '>' :: ' ' :: s))) =
        some (.function (ts.map read) (read (' ' :: s))) := by
    have hstart : "fn(".toList.isPrefixOf
        ('f' :: 'n' :: '(' :: (commaSeparated ts ++ ')' :: (' ' :: '-' :: '>' :: ' ' :: s))) = true :=
      rfl
    rw [functionFromText, if_pos hstart]
    simp only [drop_succ_cons, drop_zero, hclose, hresult, hparameters]
    rfl
  rw [readType_fn, hfunction]
  rfl

theorem length_le_commaSeparated : ∀ {ts : List Text} {t : Text}, t ∈ ts →
    t.length ≤ (commaSeparated ts).length
  | [s], t, h => by
    obtain rfl := mem_singleton.1 h
    exact Nat.le_refl _
  | s :: s' :: ts, t, h => by
    rw [commaSeparated, length_append, length_cons, length_cons]
    rcases mem_cons.1 h with rfl | h
    · omega
    · have hrest := length_le_commaSeparated h
      omega

theorem length_bracketed (head inner : Text) :
    (bracketed head inner).length = head.length + inner.length + 2 := by
  simp only [bracketed, length_append, length_cons, length_nil]
  omega

theorem typeFromText_succ {s : Text} (h : Tight s) (fuel : Nat) :
    typeFromText (fuel + 1) s = readType (typeFromText fuel) s := by
  rw [typeFromText, h.trimCopy]

theorem typeFromText_blank (fuel : Nat) (s : Text) :
    typeFromText (fuel + 1) (' ' :: s) = typeFromText (fuel + 1) s := by
  rw [typeFromText, typeFromText, trimCopy_cons rfl]

def redimension (elementsMutable : Bool) (dimensions : List Int) (t : TypeNode) : TypeNode :=
  dimensions.foldr (fun capacity t => .multiArray t capacity elementsMutable) t

mutual

theorem typeFromText_typeText : ∀ (t : TypeNode), WellFormed t →
    ∀ fuel, (typeText false t).length < fuel → typeFromText fuel (typeText false t) = reread none t
  | t, h, 0, hfuel => absurd hfuel (Nat.not_lt_zero _)
  | .scalar kind, h, fuel + 1, hfuel => by
    rw [typeFromText_succ (printed_typeText _ h false).tight]
    exact readType_kindText _ kind
  | .structRef name, h, fuel + 1, hfuel => by
    rw [typeFromText_succ (printed_typeText _ h false).tight]
    exact readType_structRef _ h
  | .genericStruct name [], h, fuel + 1, hfuel => absurd rfl h.2.1
  | .genericStruct name (t :: ts), h, fuel + 1, hfuel => by
    rw [typeFromText_succ (printed_typeText _ h false).tight]
    rw [typeText, length_bracketed] at hfuel
    have harguments := typeFromText_typeTexts (t :: ts) h.2.2 fuel fun s hs => by
      have hle := length_le_commaSeparated hs
      omega
    have hprinted := printed_typeTexts (t :: ts) h.2.2
    rw [typeTexts] at harguments hprinted
    rw [typeText, typeTexts, readType_genericStruct _ h.1 hprinted, harguments, reread]
  | .genericList e, h, fuel + 1, hfuel => by
    rw [typeFromText_succ (printed_typeText _ h false).tight]
    rw [typeText, length_bracketed] at hfuel
    rw [typeText, readType_list _ (printed_typeText e h false).tight.ne_nil,
      typeFromText_typeText e h fuel (by omega), reread]
  | .array e c, h, fuel + 1, hfuel => by
    rw [typeFromText_succ (printed_typeText _ h false).tight]
    have hlen := @length_le_commaSeparated [typeText false e, intText c] _ mem_cons_self
    have htext : typeText false (.array e c) =
        bracketed "array".toList (commaSeparated [typeText false e, intText c]) := rfl
    rw [htext, length_bracketed] at hfuel
    have hread := readType_array (typeFromText fuel) .array (printed_typeText e h.1 false)
      fun d (hd : d ∈ [c]) => mem_singleton.1 hd ▸ h.2
    refine hread.trans ?_
    rw [foldr_cons, foldr_nil, typeFromText_typeText e h.1 fuel (by omega)]
    rfl
  | .multiArray e c m, h, fuel + 1, hfuel => by
    rw [typeFromText_succ (printed_typeText _ h false).tight]
    have hbounds : ∀ d ∈ c :: dimensions e, 0 ≤ d ∧ d < 2 ^ 63 := by
      intro d hd
      rcases mem_cons.1 hd with rfl | hd
      · exact h.2
      · exact dimensions_bounds e h.1 d hd
    have hlen := @length_le_commaSeparated
      (typeText true e :: (c :: dimensions e).map intText) _ mem_cons_self
    have htext : typeText false (.multiArray e c m) =
        bracketed (if m then "mutmultiarray".toList else "multiarray".toList)
          (commaSeparated (typeText true e :: (c :: dimensions e).map intText)) := rfl
    rw [htext, length_bracketed] at hfuel
    have hinside := redimension_typeText e h.1 m fuel (by omega)
    have hread : readType (typeFromText fuel) (typeText false (.multiArray e c m)) =
        redimension m (c :: dimensions e) (typeFromText fuel (typeText true e)) := by
      cases m with
      | false =>
        exact readType_array _ .multiarray (printed_typeText e h.1 true) hbounds
      | true =>
        exact readType_array _ .mutmultiarray (printed_typeText e h.1 true) hbounds
    rw [hread, reread, getD_none, ← hinside]
    rfl
  | .map k v, h, fuel + 1, hfuel => by
    rw [typeFromText_succ (printed_typeText _ h false).tight]
    rw [typeText, length_bracketed] at hfuel
    have hk := @length_le_commaSeparated [typeText false k, typeText false v] _ mem_cons_self
    have hv := @length_le_commaSeparated [typeText false k, typeText false v] _
      (mem_cons_of_mem _ mem_cons_self)
    rw [typeText, readType_map _ (printed_typeText k h.1 false) (printed_typeText v h.2 false),
      typeFromText_typeText k h.1 fuel (by omega), typeFromText_typeText v h.2 fuel (by omega),
      reread]
  | .tuple [], h, fuel + 1, hfuel => absurd rfl h.1
  | .tuple (t :: ts), h, fuel + 1, hfuel => by
    rw [typeFromText_succ (printed_typeText _ h false).tight]
    rw [typeText, length_bracketed] at hfuel
    have helements := typeFromText_typeTexts (t :: ts) h.2 fuel fun s hs => by
      have hle := length_le_commaSeparated hs
      omega
    have hprinted := printed_typeTexts (t :: ts) h.2
    rw [typeTexts] at helements hprinted
    rw [typeText, typeTexts, readType_tuple _ hprinted, helements, reread]
  | .pointer e, h, fuel + 1, hfuel => by
    rw [typeFromText_succ (printed_typeText _ h false).tight]
    rw [typeText, length_bracketed] at hfuel
    rw [typeText, readType_pointer _ (printed_typeText e h false).tight.ne_nil,
      typeFromText_typeText e h fuel (by omega), reread]
  | .reference e isMutable, h, fuel + 1, hfuel => by
    rw [typeFromText_succ (printed_typeText _ h false).tight]
    have hlen : (typeText false e).length < fuel := by
      rw [typeText, length_append] at hfuel
      cases isMutable
      · have hone : "&".toList.length = 1 := rfl
        simp only [Bool.false_eq_true, if_false, hone] at hfuel
        omega
      · have hfive : "&mut ".toList.length = 5 := rfl
        simp only [if_true, hfive] at hfuel
        omega
    rw [typeText, readType_reference _ (printed_typeText e h false),
      typeFromText_typeText e h fuel hlen, reread]
  | .function ts r, h, fuel + 1, hfuel => by
    rw [typeFromText_succ (printed_typeText _ h false).tight]
    rw [typeText, length_append, length_append, length_append, length_append, length_cons] at hfuel
    have hparameters := typeFromText_typeTexts ts h.1 fuel fun s hs => by
      have hle := length_le_commaSeparated hs
      omega
    cases fuel with
    | zero => omega
    | succ fuel =>
      rw [typeText, readType_function _ (printed_typeTexts ts h.1) (printed_typeText r h.2 false),
        hparameters, typeFromText_blank, typeFromText_typeText r h.2 (fuel + 1) (by omega),
        reread]
  | .traitObject name, h, fuel + 1, hfuel => by
    rw [typeFromText_succ (printed_typeText _ h false).tight]
    exact readType_traitObject _ (isWord_of_isPath h)

theorem typeFromText_typeTexts : ∀ (ts : List TypeNode), AllWellFormed ts →
    ∀ fuel, (∀ s ∈ typeTexts ts, s.length < fuel) → (typeTexts ts).map (typeFromText fuel) = rereadAll ts
  | [], _, _, _ => rfl
  | t :: ts, h, fuel, hfuel => by
    rw [typeTexts, map_cons, rereadAll, typeFromText_typeText t h.1 fuel (hfuel _ mem_cons_self),
      typeFromText_typeTexts ts h.2 fuel fun s hs => hfuel s (mem_cons_of_mem _ hs)]

theorem redimension_typeText : ∀ (t : TypeNode), WellFormed t →
    ∀ m fuel, (typeText true t).length < fuel →
      redimension m (dimensions t) (typeFromText fuel (typeText true t)) = reread (some m) t
  | .array e c, h, m, fuel, hfuel =>
    congrArg (TypeNode.multiArray · c m) (redimension_typeText e h.1 m fuel hfuel)
  | .multiArray e c _, h, m, fuel, hfuel =>
    congrArg (TypeNode.multiArray · c m) (redimension_typeText e h.1 m fuel hfuel)
  | .scalar kind, h, m, fuel, hfuel => by
    refine (typeFromText_typeText (.scalar kind) h fuel hfuel).trans ?_
    cases kind <;> rfl
  | .structRef name, h, _, fuel, hfuel => typeFromText_typeText (.structRef name) h fuel hfuel
  | .genericStruct name ts, h, _, fuel, hfuel =>
    typeFromText_typeText (.genericStruct name ts) h fuel hfuel
  | .genericList e, h, _, fuel, hfuel => typeFromText_typeText (.genericList e) h fuel hfuel
  | .map k v, h, _, fuel, hfuel => typeFromText_typeText (.map k v) h fuel hfuel
  | .tuple ts, h, _, fuel, hfuel => typeFromText_typeText (.tuple ts) h fuel hfuel
  | .pointer e, h, _, fuel, hfuel => typeFromText_typeText (.pointer e) h fuel hfuel
  | .reference e m, h, _, fuel, hfuel => typeFromText_typeText (.reference e m) h fuel hfuel
  | .function ts r, h, _, fuel, hfuel => typeFromText_typeText (.function ts r) h fuel hfuel
  | .traitObject name, h, _, fuel, hfuel => typeFromText_typeText (.traitObject name) h fuel hfuel

end

variable {typeAliases : Name → Option TypeNode}

theorem canonicalConstexprTypeName_eq (links : Nat) (t : TypeNode) :
    canonicalConstexprTypeName typeAliases links t =
      (aliasedType typeAliases links t).map (typeText false) := by
  induction links generalizing t with
  | zero =>
    cases t with
    | structRef name =>
      cases halias : typeAliases name <;>
        simp [canonicalConstexprTypeName, aliasedType, halias, typeText]
    | _ => rfl
  | succ links ih =>
    cases t with
    | structRef name =>
      cases halias : typeAliases name with
      | none => simp [canonicalConstexprTypeName, aliasedType, halias, typeText]
      | some t => simpa [canonicalConstexprTypeName, aliasedType, halias] using ih t
    | _ => rfl

def readBack (typeAliases : Name → Option TypeNode) (links : Nat) (t : TypeNode) :
    Option TypeNode :=
  (canonicalConstexprTypeName typeAliases links t).map fun text =>
    typeFromText (text.length + 1) text

/-- The text of a type is read back as the type itself where every kind in it has a text of its
own, and as another type otherwise. -/
theorem readBack_iff_rereadable {links : Nat} {t t' : TypeNode}
    (halias : aliasedType typeAliases links t = some t') (h : WellFormed t') :
    readBack typeAliases links t = some t' ↔ Rereadable none t' := by
  have hread := typeFromText_typeText t' h ((typeText false t').length + 1) (Nat.lt_succ_self _)
  rw [readBack, canonicalConstexprTypeName_eq, halias, map_some, map_some, hread,
    some_inj, reread_eq_iff]

def handlerType : TypeNode :=
  .function [.structRef "net::Request".toList, .map (.scalar .str8) (.array (.scalar .u8) 4)]
    (.reference (.genericList (.scalar .bit)) true)

theorem handlerType_readBack :
    readBack (fun _ => none) 0 handlerType = some handlerType ↔ Rereadable none handlerType := by
  refine readBack_iff_rereadable rfl ⟨⟨⟨by decide, by decide, by decide⟩, ?_, trivial⟩, trivial⟩
  exact ⟨trivial, trivial, by decide, by decide⟩

def matrixType : TypeNode := .multiArray (.array (.scalar .i32) 3) 2 false

theorem matrixType_not_readBack :
    ¬ ∀ (typeAliases : Name → Option TypeNode) (links : Nat) (t t' : TypeNode),
      aliasedType typeAliases links t = some t' → WellFormed t' →
        readBack typeAliases links t = some t' := by
  intro hclaim
  have hwell : WellFormed matrixType :=
    ⟨⟨trivial, by decide, by decide⟩, by decide, by decide⟩
  have hread := hclaim (fun _ => none) 0 matrixType matrixType rfl hwell
  have hother : readBack (fun _ => none) 0 matrixType =
      some (.multiArray (.multiArray (.scalar .i32) 3 false) 2 false) := rfl
  rw [hother] at hread
  cases hread

end Mlang.TypeRoundTrip
