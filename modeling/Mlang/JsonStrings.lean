import Mlang.UnicodeForms

namespace Mlang.JsonStrings

open UnicodeForms (utf8Of)
open List Option

/-- `json_escape_cstr`: a byte for which there is no room ends the loop. -/
def escapeFrom (cap : Nat) : List UInt8 → List UInt8 → List UInt8
  | [], out => out
  | ch :: s, out =>
    if ch = 0x22 ∨ ch = 0x5C then
      if out.length + 2 ≥ cap then out else escapeFrom cap s (out ++ [0x5C, ch])
    else if ch = 0x0A then
      if out.length + 2 ≥ cap then out else escapeFrom cap s (out ++ [0x5C, 0x6E])
    else if ch = 0x0D then
      if out.length + 2 ≥ cap then out else escapeFrom cap s (out ++ [0x5C, 0x72])
    else if out.length + 1 ≥ cap then out
    else escapeFrom cap s (out ++ [ch])

def jsonEscapeCstr (s : List UInt8) : List UInt8 := escapeFrom (s.length * 2 + 16) s []

/-- The byte for the letter of an escape, other than `u`. -/
def letterByte (c : UInt8) : UInt8 :=
  if c = 0x62 then 0x08
  else if c = 0x66 then 0x0C
  else if c = 0x6E then 0x0A
  else if c = 0x72 then 0x0D
  else if c = 0x74 then 0x09
  else c

/-- The loop of `json_decode_string`, with the text behind the closing quote. -/
def decodeFrom : List UInt8 → List UInt8 → Option (List UInt8 × List UInt8)
  | [], _ => none
  | c :: s, out =>
    if c = 0x22 then some (out, s)
    else if c ≠ 0x5C then decodeFrom s (out ++ [c])
    else
      match s with
      | [] => none
      | e :: s' =>
        if e = 0x75 then decodeFrom (s'.drop 4) (out ++ [0x3F])
        else decodeFrom s' (out ++ [letterByte e])
termination_by s => s.length
decreasing_by all_goals simp only [length_cons, length_drop]; omega

def jsonDecodeString : List UInt8 → Option (List UInt8 × List UInt8)
  | [] => none
  | q :: s => if q = 0x22 then decodeFrom s [] else none

def Plain (b : UInt8) : Prop := 0x20 ≤ b ∧ b ≠ 0x22 ∧ b ≠ 0x5C

def Letter (e : UInt8) : Prop := e ∈ ([0x22, 0x5C, 0x2F, 0x62, 0x66, 0x6E, 0x72, 0x74] : List UInt8)

instance (e : UInt8) : Decidable (Letter e) := inferInstanceAs (Decidable (_ ∈ _))

def hexDigit (b : UInt8) : Option Nat :=
  if 0x30 ≤ b ∧ b ≤ 0x39 then some (b.toNat - 0x30)
  else if 0x41 ≤ b ∧ b ≤ 0x46 then some (b.toNat - 0x37)
  else if 0x61 ≤ b ∧ b ≤ 0x66 then some (b.toNat - 0x57)
  else none

structure Digits where
  bytes : List UInt8
  unit : Nat
  length_eq : bytes.length = 4
  value : bytes.foldl (fun v b => v.bind fun v => (hexDigit b).map (16 * v + ·)) (some 0) = some unit

inductive Item
  | plain (b : UInt8) (h : Plain b)
  | letter (e : UInt8) (h : Letter e)
  | unicode (digits : Digits)

def Item.text : Item → List UInt8
  | .plain b _ => [b]
  | .letter e _ => [0x5C, e]
  | .unicode digits => 0x5C :: 0x75 :: digits.bytes

def body (items : List Item) : List UInt8 := items.flatMap Item.text

def literal (items : List Item) : List UInt8 := 0x22 :: (body items ++ [0x22])

def IsHigh (u : Nat) : Prop := 0xD800 ≤ u ∧ u < 0xDC00

def IsLow (u : Nat) : Prop := 0xDC00 ≤ u ∧ u < 0xE000

inductive Denotes : List Item → List UInt8 → Prop
  | nil : Denotes [] []
  | plain {b h items text} : Denotes items text → Denotes (.plain b h :: items) (b :: text)
  | letter {e h items text} : Denotes items text → Denotes (.letter e h :: items) (letterByte e :: text)
  | unicode {digits items text} : ¬IsHigh digits.unit → ¬IsLow digits.unit → Denotes items text →
    Denotes (.unicode digits :: items) (utf8Of digits.unit ++ text)
  | pair {first second items text} : IsHigh first.unit → IsLow second.unit → Denotes items text →
    Denotes (.unicode first :: .unicode second :: items)
      (utf8Of (0x10000 + (first.unit - 0xD800) * 0x400 + (second.unit - 0xDC00)) ++ text)

variable {items : List Item} {text : List UInt8} {out rest : List UInt8}

def Item.decoded : Item → UInt8
  | .plain b _ => b
  | .letter e _ => letterByte e
  | .unicode _ => 0x3F

theorem decodeFrom_body :
    decodeFrom (body items ++ 0x22 :: rest) out = some (out ++ items.map Item.decoded, rest) := by
  induction items generalizing out with
  | nil =>
    rw [body, flatMap_nil, nil_append, decodeFrom.eq_def]
    simp only [if_true, map_nil, append_nil]
  | cons item items ih =>
    have hassoc : ∀ b, out ++ [b] ++ items.map Item.decoded = out ++ b :: items.map Item.decoded := fun b => by
      rw [append_assoc, singleton_append]
    have hquote : (0x5C : UInt8) ≠ 0x22 := by decide
    rw [body, flatMap_cons, ← body, append_assoc]
    cases item with
    | plain b h =>
      rw [Item.text, singleton_append, decodeFrom.eq_def]
      simp only [if_neg h.2.1, if_pos h.2.2, ih, hassoc]
      rfl
    | letter e h =>
      have hu : e ≠ 0x75 := fun he => absurd (he ▸ h) (by decide)
      rw [Item.text, cons_append, singleton_append, decodeFrom.eq_def]
      simp only [if_neg hquote, ne_eq, not_true, if_false, if_neg hu, ih, hassoc]
      rfl
    | unicode digits =>
      rw [Item.text, cons_append, cons_append, decodeFrom.eq_def]
      simp only [if_neg hquote, ne_eq, not_true, if_false, if_true, drop_left' digits.length_eq, ih, hassoc]
      rfl

theorem jsonDecodeString_literal (items : List Item) :
    jsonDecodeString (literal items) = some (items.map Item.decoded, []) := by
  rw [literal, jsonDecodeString, if_pos rfl, decodeFrom_body, nil_append]

def OnlyQuestions (items : List Item) : Prop := ∀ digits, Item.unicode digits ∈ items → digits.unit = 0x3F

theorem length_utf8Of (c : Nat) : 1 ≤ (utf8Of c).length ∧ ((utf8Of c).length = 1 → utf8Of c = [.ofNat c] ∧ c < 0x80) ∧
    (0x10000 ≤ c → (utf8Of c).length = 4) := by
  unfold utf8Of
  split_ifs with h1 h2 h3
  · exact ⟨Nat.le_refl 1, fun _ => ⟨rfl, h1⟩, fun _ => by omega⟩
  · exact ⟨Nat.le_add_left _ _, fun h => absurd h (by simp), fun _ => by omega⟩
  · exact ⟨Nat.le_add_left _ _, fun h => absurd h (by simp), fun _ => by omega⟩
  · exact ⟨Nat.le_add_left _ _, fun h => absurd h (by simp), fun _ => rfl⟩

/-- A question mark is never longer than the character it stands for, so that no two differences make up for each other. -/
theorem Denotes.decoded_iff (h : Denotes items text) : items.length ≤ text.length ∧
    (items.map Item.decoded = text ↔ OnlyQuestions items) := by
  induction h with
  | nil => exact ⟨Nat.le_refl 0, iff_of_true rfl fun _ hin => by cases hin⟩
  | plain h ih | letter h ih =>
    refine ⟨Nat.succ_le_succ ih.1, ?_⟩
    rw [map_cons, Item.decoded, cons_inj_right, ih.2]
    exact ⟨fun hall d hd => hall d ((mem_cons.1 hd).resolve_left (by simp)),
      fun hall d hd => hall d (mem_cons_of_mem _ hd)⟩
  | @unicode digits items text hhigh hlow h ih =>
    obtain ⟨hpos, hone, -⟩ := length_utf8Of digits.unit
    refine ⟨by rw [length_cons, length_append]; omega, ?_, fun hall => ?_⟩
    · intro heq
      have hlength := congrArg List.length heq
      rw [length_map, length_cons, length_append] at hlength
      obtain ⟨hbytes, hlt⟩ := hone (by omega)
      rw [map_cons, Item.decoded, hbytes, singleton_append] at heq
      obtain ⟨hhead, htail⟩ := List.cons.inj heq
      have hunit : digits.unit = 0x3F := by
        have hnat := congrArg UInt8.toNat hhead
        rw [UInt8.toNat_ofNat_of_lt' (Nat.lt_trans hlt (by decide))] at hnat
        exact hnat.symm
      intro d hd
      rcases mem_cons.1 hd with hd | hd
      · cases hd
        exact hunit
      · exact ih.2.1 htail d hd
    · have hunit := hall digits mem_cons_self
      rw [hunit, map_cons, ih.2.2 fun d hd => hall d (mem_cons_of_mem _ hd)]
      rfl
  | @pair first second items text hhigh hlow h ih =>
    obtain ⟨-, -, hfour⟩ := length_utf8Of (0x10000 + (first.unit - 0xD800) * 0x400 + (second.unit - 0xDC00))
    have hlength := hfour (by omega)
    refine ⟨by rw [length_cons, length_cons, length_append]; omega, iff_of_false ?_ ?_⟩
    · intro heq
      have hsame := congrArg List.length heq
      rw [length_map, length_cons, length_cons, length_append] at hsame
      omega
    · intro hall
      have hunit := hall first mem_cons_self
      obtain ⟨hmin, -⟩ := hhigh
      omega

variable {b : UInt8} {s : List UInt8} {cap : Nat}

def escaped (ch : UInt8) : List UInt8 :=
  if ch = 0x22 ∨ ch = 0x5C then [0x5C, ch]
  else if ch = 0x0A then [0x5C, 0x6E]
  else if ch = 0x0D then [0x5C, 0x72]
  else [ch]

theorem escapeFrom_eq (h : out.length + 2 * s.length < cap) :
    escapeFrom cap s out = out ++ s.flatMap escaped := by
  induction s generalizing out with
  | nil => rw [escapeFrom, flatMap_nil, append_nil]
  | cons ch s ih =>
    rw [length_cons] at h
    have htwo : ¬out.length + 2 ≥ cap := by omega
    have hone : ¬out.length + 1 ≥ cap := by omega
    rw [escapeFrom, flatMap_cons, escaped, if_neg htwo, if_neg htwo, if_neg htwo, if_neg hone]
    split_ifs
    all_goals
      rw [ih (by simp only [length_append, length_cons, length_nil]; omega), append_assoc]

theorem jsonEscapeCstr_eq (s : List UInt8) : jsonEscapeCstr s = s.flatMap escaped := by
  rw [jsonEscapeCstr, escapeFrom_eq (by rw [length_nil]; omega), nil_append]

def Escapable (ch : UInt8) : Prop := 0x20 ≤ ch ∨ ch = 0x0A ∨ ch = 0x0D

theorem exists_item {ch : UInt8} (h : Escapable ch) : ∃ item : Item, item.text = escaped ch ∧ item.decoded = ch := by
  unfold escaped
  split_ifs with hquote hline hreturn
  · exact ⟨.letter ch (by rcases hquote with rfl | rfl <;> decide), rfl, by rcases hquote with rfl | rfl <;> rfl⟩
  · exact ⟨.letter 0x6E (by decide), rfl, hline.symm⟩
  · exact ⟨.letter 0x72 (by decide), rfl, hreturn.symm⟩
  · rw [not_or] at hquote
    exact ⟨.plain ch ⟨h.resolve_right fun h => h.elim hline hreturn, hquote⟩, rfl, rfl⟩

theorem exists_items (h : ∀ ch ∈ s, Escapable ch) :
    ∃ items, body items = s.flatMap escaped ∧ items.map Item.decoded = s := by
  induction s with
  | nil => exact ⟨[], rfl, rfl⟩
  | cons ch s ih =>
    obtain ⟨hch, hs⟩ := forall_mem_cons.1 h
    obtain ⟨item, htext, hdecoded⟩ := exists_item hch
    obtain ⟨items, hbody, hmap⟩ := ih hs
    refine ⟨item :: items, ?_, by rw [map_cons, hdecoded, hmap]⟩
    rw [body, flatMap_cons, ← body, htext, hbody, flatMap_cons]

theorem hexDigit_ge {v : Nat} (h : hexDigit b = some v) : 0x20 ≤ b := by
  unfold hexDigit at h
  split_ifs at h with h1 h2 h3
  · exact UInt8.le_trans (by decide) h1.1
  · exact UInt8.le_trans (by decide) h2.1
  · exact UInt8.le_trans (by decide) h3.1

theorem hexValue_ge {bytes : List UInt8} {v : Option Nat} {u : Nat}
    (h : bytes.foldl (fun v b => v.bind fun v => (hexDigit b).map (16 * v + ·)) v = some u) :
    v ≠ none ∧ ∀ b ∈ bytes, 0x20 ≤ b := by
  induction bytes generalizing v with
  | nil => exact ⟨fun hnone => (by rw [hnone] at h; cases h), fun b hb => (by cases hb)⟩
  | cons b bytes ih =>
    obtain ⟨hstep, hrest⟩ := ih h
    obtain ⟨w, hw⟩ := ne_none_iff_exists'.1 hstep
    obtain ⟨v', hv', hmap⟩ := bind_eq_some_iff.1 hw
    obtain ⟨d, hd, -⟩ := map_eq_some_iff.1 hmap
    exact ⟨fun hnone => (by rw [hnone] at hv'; cases hv'), forall_mem_cons.2 ⟨hexDigit_ge hd, hrest⟩⟩

theorem letter_ge {e : UInt8} (h : Letter e) : 0x20 ≤ e := by
  simp only [Letter, mem_cons, not_mem_nil, or_false] at h
  rcases h with rfl | rfl | rfl | rfl | rfl | rfl | rfl | rfl <;> decide

theorem ge_of_mem_body (h : b ∈ body items) : 0x20 ≤ b := by
  obtain ⟨item, -, hb⟩ := mem_flatMap.1 h
  cases item with
  | plain c hc => exact mem_singleton.1 hb ▸ hc.1
  | letter e he =>
    rcases mem_cons.1 hb with rfl | hb
    · decide
    · rw [mem_singleton.1 hb]
      exact letter_ge he
  | unicode digits =>
    rcases mem_cons.1 hb with rfl | hb
    · decide
    · rcases mem_cons.1 hb with rfl | hb
      · decide
      · exact (hexValue_ge digits.value).2 b hb

theorem escapable_of_body (h : s.flatMap escaped = body items) : ∀ ch ∈ s, Escapable ch := by
  intro ch hch
  by_contra hnot
  unfold Escapable at hnot
  simp only [not_or] at hnot
  have hplain : escaped ch = [ch] := by
    have hquote : ¬(ch = 0x22 ∨ ch = 0x5C) := by
      rintro (rfl | rfl)
      · exact hnot.1 (by decide)
      · exact hnot.1 (by decide)
    rw [escaped, if_neg hquote, if_neg hnot.2.1, if_neg hnot.2.2]
  refine hnot.1 (@ge_of_mem_body items _ ?_)
  rw [← h]
  exact mem_flatMap.2 ⟨ch, hch, by rw [hplain]; exact mem_singleton_self ch⟩

/-- The escaped text is the body of a literal, and decoding that literal gives the text back. -/
def EscapesWell (s : List UInt8) : Prop :=
  (∃ items, body items = jsonEscapeCstr s) ∧
    jsonDecodeString (0x22 :: (jsonEscapeCstr s ++ [0x22])) = some (s, [])

def DecodesWell (items : List Item) (text : List UInt8) : Prop :=
  jsonDecodeString (literal items) = some (text, [])

theorem decodesWell_iff (h : Denotes items text) : DecodesWell items text ↔ OnlyQuestions items := by
  rw [DecodesWell, jsonDecodeString_literal, some_inj, Prod.mk.injEq, eq_self, and_true, h.decoded_iff.2]

/-- Escaping is right where no control byte is left over, decoding where only question marks are escaped by number. -/
theorem strings_iff (s : List UInt8) (items : List Item) (text : List UInt8) :
    (EscapesWell s ↔ ∀ ch ∈ s, Escapable ch) ∧
    (Denotes items text → (DecodesWell items text ↔ OnlyQuestions items)) := by
  refine ⟨⟨fun ⟨⟨items, hbody⟩, _⟩ => ?_, fun h => ?_⟩, decodesWell_iff⟩
  · exact escapable_of_body (by rw [← jsonEscapeCstr_eq, hbody])
  · obtain ⟨items, hbody, hmap⟩ := exists_items h
    rw [← jsonEscapeCstr_eq] at hbody
    refine ⟨⟨items, hbody⟩, ?_⟩
    have hdecoded := jsonDecodeString_literal items
    rwa [literal, hbody, hmap] at hdecoded

def numbered : Digits where
  bytes := [0x30, 0x30, 0x34, 0x31]
  unit := 0x41
  length_eq := rfl
  value := rfl

theorem denotes_numbered : Denotes [.unicode numbered] [0x41] :=
  .unicode (by unfold IsHigh; decide) (by unfold IsLow; decide) .nil

theorem strings_iff_numbered : EscapesWell [0x41, 0x0A] ∧ ¬DecodesWell [.unicode numbered] [0x41] := by
  obtain ⟨hescapes, hdecodes⟩ := strings_iff [0x41, 0x0A] [.unicode numbered] [0x41]
  have hbytes : ∀ ch ∈ [0x41, 0x0A], Escapable ch :=
    forall_mem_cons.2 ⟨.inl (by decide), forall_mem_singleton.2 (.inr (.inl rfl))⟩
  refine ⟨hescapes.2 hbytes, fun h => ?_⟩
  exact absurd ((hdecodes denotes_numbered).1 h numbered mem_cons_self) (by decide)

/-- A tab stays as it is, and the letter A becomes a question mark. -/
theorem not_strings : (¬∀ s : List UInt8, 0 ∉ s → EscapesWell s) ∧
    ¬∀ items text, Denotes items text → DecodesWell items text := by
  refine ⟨fun h => ?_, fun h => ?_⟩
  · obtain ⟨⟨items, hbody⟩, -⟩ := h [0x09] (by decide)
    have htab := escapable_of_body (by rw [← jsonEscapeCstr_eq, hbody]) 0x09 mem_cons_self
    exact absurd htab (by unfold Escapable; decide)
  · have hunit := (decodesWell_iff denotes_numbered).1 (h _ _ denotes_numbered) numbered mem_cons_self
    exact absurd hunit (by decide)

end Mlang.JsonStrings
