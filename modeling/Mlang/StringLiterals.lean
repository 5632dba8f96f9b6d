import Mlang.BracketedText

namespace Mlang.StringLiterals

open BracketedText (Text)
open List Option

/-! A byte is the character of that code. -/

def nul : Char := Char.ofNat 0

/-- What a pointer to characters stands for: they end at the first zero. -/
def CString : Type := {s : Text // nul ∉ s}

namespace CString

def empty : CString := ⟨[], not_mem_nil⟩

def text (s : CString) : Text := s.1

theorem nul_notMem_takeWhile (s : Text) : nul ∉ s.takeWhile (· ≠ nul) := fun h => by
  simpa using mem_takeWhile_imp h

def strcat (s : CString) (t : Text) : CString :=
  ⟨s.text ++ t.takeWhile (· ≠ nul), fun h =>
    (List.mem_append.1 h).elim s.2 (nul_notMem_takeWhile t)⟩

theorem text_strcat (s : CString) {t : Text} (h : nul ∉ t) : (s.strcat t).text = s.text ++ t := by
  have hall : t.takeWhile (· ≠ nul) = t := by
    rw [takeWhile_eq_self_iff]
    intro c hc
    exact decide_eq_true fun heq => h (heq ▸ hc)
  exact congrArg (s.text ++ ·) hall

end CString

def isHexDigit (c : Char) : Bool :=
  ('0' ≤ c && c ≤ '9') || ('a' ≤ c && c ≤ 'f') || ('A' ≤ c && c ≤ 'F')

def mlaLexHexValue (c : Char) : Nat :=
  if '0' ≤ c ∧ c ≤ '9' then c.toNat - '0'.toNat
  else if 'a' ≤ c ∧ c ≤ 'f' then c.toNat - 'a'.toNat + 10
  else if 'A' ≤ c ∧ c ≤ 'F' then c.toNat - 'A'.toNat + 10
  else 0

def named : Char → Option Char
  | 'n' => some '\n'
  | 't' => some '\t'
  | 'r' => some '\r'
  | '"' => some '"'
  | '\\' => some '\\'
  | _ => none

/-- What begins with a backslash: a backslash in front of anything else stands for itself. -/
inductive Escape
  | letter (c : Char)
  | hex (high low : Char)
  | zero
  | stray
  deriving DecidableEq

namespace Escape

def ofLetter (c : Char) (cs : Text) : Escape × Text :=
  if c = '0' then (.zero, cs)
  else if (named c).isSome then (.letter c, cs)
  else (.stray, c :: cs)

def read : Text → Escape × Text
  | [] => (.stray, [])
  | 'x' :: high :: low :: cs =>
    if isHexDigit high && isHexDigit low then (.hex high low, cs)
    else (.stray, 'x' :: high :: low :: cs)
  | c :: cs => ofLetter c cs

def spelling : Escape → Text
  | .letter c => ['\\', c]
  | .hex high low => ['\\', 'x', high, low]
  | .zero => ['\\', '0']
  | .stray => ['\\']

def hexByte (high low : Char) : Char := Char.ofNat (mlaLexHexValue high * 16 + mlaLexHexValue low)

theorem read_spelling (cs : Text) : '\\' :: cs = (read cs).1.spelling ++ (read cs).2 := by
  unfold read
  split
  · rfl
  · split <;> rfl
  · next c cs _ =>
    unfold ofLetter
    split
    · next hc => rw [hc]; rfl
    · split <;> rfl

end Escape

/-- The rules of the state `STRING_`. No rule matches a stray backslash. -/
inductive Rule
  | closing (suffix : Text)
  | newline
  | run (text : Text)
  | escape (e : Escape)

def isPlain (c : Char) : Bool := c ≠ '\\' && c ≠ '\n' && c ≠ '"'

def isSuffixChar (c : Char) : Bool := c.isAlphanum || c = '_'

def closingSuffix : Text → Text
  | '_' :: cs => if cs.takeWhile isSuffixChar = [] then [] else '_' :: cs.takeWhile isSuffixChar
  | _ => []

def nextRule : Text → Option (Rule × Text)
  | [] => none
  | c :: cs =>
    if c = '"' then some (.closing (closingSuffix cs), cs.drop (closingSuffix cs).length)
    else if c = '\n' then some (.newline, cs)
    else if c = '\\' then some (.escape (Escape.read cs).1, (Escape.read cs).2)
    else some (.run (c :: cs.takeWhile isPlain), cs.dropWhile isPlain)

theorem length_read_le (cs : Text) : (Escape.read cs).2.length ≤ cs.length := by
  have h := congrArg List.length (Escape.read_spelling cs)
  have hpos : 1 ≤ (Escape.read cs).1.spelling.length := by
    cases (Escape.read cs).1 <;> simp [Escape.spelling]
  rw [length_append, length_cons] at h
  omega

variable {input rest : Text} {rule : Rule}

theorem nextRule_shorter (h : nextRule input = some (rule, rest)) : rest.length < input.length := by
  cases input with
  | nil => exact nomatch h
  | cons c cs =>
    rw [nextRule] at h
    split at h
    · obtain ⟨-, rfl⟩ := Prod.mk.inj (some.inj h)
      exact Nat.lt_succ_of_le ((length_drop ..).trans_le (Nat.sub_le ..))
    split at h
    · obtain ⟨-, rfl⟩ := Prod.mk.inj (some.inj h)
      exact Nat.lt_succ_self _
    split at h
    · obtain ⟨-, rfl⟩ := Prod.mk.inj (some.inj h)
      exact Nat.lt_succ_of_le (length_read_le cs)
    · obtain ⟨-, rfl⟩ := Prod.mk.inj (some.inj h)
      exact Nat.lt_succ_of_le (dropWhile_suffix _).sublist.length_le

def Rule.Matches (input rest : Text) : Rule → Prop
  | .closing suffix => input = '"' :: (suffix ++ rest)
  | .newline => input = '\n' :: rest
  | .run text => input = text ++ rest ∧ text.all isPlain = true
  | .escape e => ∃ cs, input = '\\' :: cs ∧ Escape.read cs = (e, rest)

theorem closingSuffix_append (cs : Text) :
    closingSuffix cs ++ cs.drop (closingSuffix cs).length = cs := by
  unfold closingSuffix
  split
  · split
    · rfl
    · next cs _ =>
      rw [cons_append, length_cons, drop_succ_cons]
      have hrest := List.prefix_iff_eq_append.1 <| takeWhile_prefix isSuffixChar (l := cs)
      exact congrArg (List.cons '_') hrest
  · rfl

theorem nextRule_spec (h : nextRule input = some (rule, rest)) : rule.Matches input rest := by
  cases input with
  | nil => exact nomatch h
  | cons c cs =>
    rw [nextRule] at h
    split at h
    · next hc =>
      cases h
      rw [Rule.Matches, closingSuffix_append, hc]
    split at h
    · next hc =>
      cases h
      rw [Rule.Matches, hc]
    split at h
    · next hc =>
      cases h
      exact ⟨cs, by rw [hc], rfl⟩
    · next hquote hnewline hescape =>
      cases h
      constructor
      · rw [cons_append, takeWhile_append_dropWhile]
      · rw [all_cons, Bool.and_eq_true]
        exact ⟨by simp [isPlain, hquote, hnewline, hescape], all_takeWhile⟩

/-- The two tokens a string ends as. -/
structure Token where
  value : CString
  suffix : Text

def Escape.act (sval : CString) : Escape → CString
  | .letter c => sval.strcat (named c).toList
  | .hex high low => sval.strcat [hexByte high low]
  | .zero => sval.strcat [nul]
  | .stray => sval

/-- The scanner behind an opening quote. -/
def scanString (sval : CString) (input : Text) : Option (Token × Text) :=
  match h : nextRule input with
  | none => none
  | some (.closing suffix, rest) => some (⟨sval, suffix⟩, rest)
  | some (.newline, rest) =>
    have := nextRule_shorter h
    scanString (sval.strcat ['\n']) rest
  | some (.run text, rest) =>
    have := nextRule_shorter h
    scanString (sval.strcat text) rest
  | some (.escape e, rest) =>
    have := nextRule_shorter h
    scanString (e.act sval) rest
termination_by input.length

inductive Item
  | byte (c : Char)
  | escape (e : Escape)
  deriving DecidableEq

namespace Item

def spelling : Item → Text
  | .byte c => [c]
  | .escape e => e.spelling

def decode : Item → Text
  | .byte c => [c]
  | .escape (.letter c) => (named c).toList
  | .escape (.hex high low) => [Escape.hexByte high low]
  | .escape .zero => [nul]
  | .escape .stray => []

end Item

def itemsOf (input : Text) : Option (List Item × Text) :=
  match input with
  | [] => none
  | c :: cs =>
    if c = '"' then some ([], cs)
    else if c = '\\' then
      have := length_read_le cs
      (itemsOf (Escape.read cs).2).map fun found =>
        (.escape (Escape.read cs).1 :: found.1, found.2)
    else (itemsOf cs).map fun found => (.byte c :: found.1, found.2)
termination_by input.length

def decode (items : List Item) : Text := items.flatMap Item.decode

variable {tail : Text} {items : List Item}

theorem spelling_itemsOf (h : itemsOf input = some (items, tail)) :
    input = items.flatMap Item.spelling ++ '"' :: tail := by
  induction input using itemsOf.induct generalizing items with
  | case1 =>
    rw [itemsOf] at h
    exact nomatch h
  | case2 cs =>
    rw [itemsOf, if_pos rfl] at h
    cases h
    rfl
  | case3 cs _ hquote ih =>
    rw [itemsOf, if_neg hquote, if_pos rfl] at h
    obtain ⟨⟨found, tail'⟩, hfound, hitems⟩ := map_eq_some_iff.1 h
    cases hitems
    rw [Escape.read_spelling cs, flatMap_cons, append_assoc, ← ih hfound]
    rfl
  | case4 c cs hquote hescape ih =>
    rw [itemsOf, if_neg hquote, if_neg hescape] at h
    obtain ⟨⟨found, tail'⟩, hfound, hitems⟩ := map_eq_some_iff.1 h
    cases hitems
    rw [flatMap_cons, append_assoc, ← ih hfound]
    rfl

def DecodesExactly (items : List Item) (value : Text) : Prop :=
  .escape .stray ∉ items ∧ value = decode items

def Kept (items : List Item) : Prop := ∀ item ∈ items, item ≠ .escape .stray ∧ nul ∉ item.decode

theorem itemsOf_run {run : Text} (hrun : run.all isPlain = true) (h : itemsOf rest = some (items, tail)) :
    itemsOf (run ++ rest) = some (run.map Item.byte ++ items, tail) := by
  induction run with
  | nil => exact h
  | cons c run ih =>
    rw [all_cons, Bool.and_eq_true] at hrun
    obtain ⟨hc, hrun⟩ := hrun
    simp only [isPlain, Bool.and_eq_true, decide_eq_true_eq] at hc
    rw [cons_append, itemsOf, if_neg hc.2, if_neg hc.1.1, ih hrun]
    rfl

theorem act_eq (sval : CString) {e : Escape} (h : nul ∉ (Item.escape e).decode) :
    (e.act sval).text = sval.text ++ (Item.escape e).decode := by
  cases e with
  | letter c => exact sval.text_strcat h
  | hex high low => exact sval.text_strcat h
  | zero => exact absurd mem_cons_self h
  | stray => exact (append_nil _).symm

theorem scanString_spec {sval : CString} {token : Token} (h : scanString sval input = some (token, rest)) :
    ∃ items, itemsOf input = some (items, token.suffix ++ rest) ∧
    (Kept items → token.value.text = sval.text ++ decode items) := by
  fun_induction scanString sval input generalizing rest with
  | case1 sval input hrule => exact nomatch h
  | case2 sval input suffix rest' hrule =>
    cases h
    refine ⟨[], ?_, fun _ => (append_nil _).symm⟩
    rw [(nextRule_spec hrule : input = _), itemsOf, if_pos rfl]
  | case3 sval input rest' hrule _ ih =>
    obtain ⟨items, hitems, hvalue⟩ := ih h
    refine ⟨.byte '\n' :: items, ?_, fun hkept => ?_⟩
    · rw [(nextRule_spec hrule : input = _), itemsOf, if_neg (by decide), if_neg (by decide), hitems]
      rfl
    · rw [hvalue fun item hitem => hkept item (mem_cons_of_mem _ hitem),
        sval.text_strcat (by decide), append_assoc]
      rfl
  | case4 sval input text rest' hrule _ ih =>
    obtain ⟨items, hitems, hvalue⟩ := ih h
    obtain ⟨hinput, hplain⟩ := nextRule_spec hrule
    refine ⟨text.map .byte ++ items, hinput ▸ itemsOf_run hplain hitems, fun hkept => ?_⟩
    have hnul : nul ∉ text := fun hmem =>
      (hkept (.byte nul) (mem_append_left _ (mem_map_of_mem hmem))).2 mem_cons_self
    rw [hvalue fun item hitem => hkept item (mem_append_right _ hitem),
      sval.text_strcat hnul, append_assoc, decode, decode, flatMap_append,
      flatMap_map]
    congr 2
    exact (flatMap_singleton' text).symm
  | case5 sval input e rest' hrule _ ih =>
    obtain ⟨items, hitems, hvalue⟩ := ih h
    obtain ⟨cs, rfl, hread⟩ := nextRule_spec hrule
    refine ⟨.escape e :: items, ?_, fun hkept => ?_⟩
    · rw [itemsOf, if_neg (by decide), if_pos rfl, hread, hitems]
      rfl
    · rw [hvalue fun item hitem => hkept item (mem_cons_of_mem _ hitem),
        act_eq sval (hkept _ mem_cons_self).2, append_assoc]
      rfl

/-- The token carries what the items of its literal stand for if and only if none of them is a
zero byte or a backslash that begins no known sequence. -/
theorem scanString_exact_iff {input rest : Text} {token : Token}
    (h : scanString .empty input = some (token, rest)) :
    ∃ items, itemsOf input = some (items, token.suffix ++ rest) ∧
      input = items.flatMap Item.spelling ++ '"' :: (token.suffix ++ rest) ∧
      (DecodesExactly items token.value.text ↔ Kept items) := by
  obtain ⟨items, hitems, hvalue⟩ := scanString_spec h
  refine ⟨items, hitems, spelling_itemsOf hitems, ?_⟩
  constructor
  · rintro ⟨hstray, hexact⟩ item hitem
    refine ⟨fun heq => hstray (heq ▸ hitem), fun hnul => ?_⟩
    -- what a pointer to characters stands for has no zero in it
    have hmem : nul ∈ token.value.text := by
      rw [hexact]
      exact List.mem_flatMap.2 ⟨item, hitem, hnul⟩
    exact token.value.2 hmem
  · intro hkept
    exact ⟨fun hmem => (hkept _ hmem).1 rfl, hvalue hkept⟩

def greeting : Token := ⟨⟨"aA\n".toList, by decide⟩, "_km".toList⟩

theorem scanString_greeting :
    scanString .empty "a\\x41\\n\"_km;".toList = some (greeting, ";".toList) := by
  with_unfolding_all rfl

theorem greeting_exact :
    ∃ items, itemsOf "a\\x41\\n\"_km;".toList = some (items, "_km;".toList) ∧
      DecodesExactly items greeting.value.text := by
  obtain ⟨items, hitems, -, hexact⟩ := scanString_exact_iff scanString_greeting
  have hread : itemsOf "a\\x41\\n\"_km;".toList =
      some ([.byte 'a', .escape (.hex '4' '1'), .escape (.letter 'n')], "_km;".toList) := by
    with_unfolding_all rfl
  obtain ⟨rfl, -⟩ := Prod.mk.inj (some.inj (hread.symm.trans hitems))
  refine ⟨_, hitems, hexact.2 ?_⟩
  rw [Kept]
  decide

/-- An escaped zero is lost. -/
theorem not_decodesExactly :
    ¬ ∀ (input rest : Text) (token : Token) (items : List Item) (tail : Text),
      scanString .empty input = some (token, rest) → itemsOf input = some (items, tail) →
      DecodesExactly items token.value.text := by
  intro hclaim
  have hscan : scanString .empty "a\\0b\"".toList =
      some (⟨⟨"ab".toList, by decide⟩, []⟩, []) := by with_unfolding_all rfl
  have hitems : itemsOf "a\\0b\"".toList =
      some ([.byte 'a', .escape .zero, .byte 'b'], []) := by with_unfolding_all rfl
  have hexact := (hclaim _ _ _ _ _ hscan hitems).2
  exact absurd hexact (by decide)

end Mlang.StringLiterals
