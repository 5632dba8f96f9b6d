import Mathlib
import Mlang.StringLiterals
import Mlang.TypeKinds

namespace Mlang.NumericLiterals

open BracketedText (Text)
open StringLiterals (isSuffixChar)
open TypeKinds List

/-- The digit that a character is to `strtoll`. -/
def digitValue (c : Char) : Nat :=
  if '0' ≤ c ∧ c ≤ '9' then c.toNat - '0'.toNat
  else if 'a' ≤ c ∧ c ≤ 'z' then c.toNat - 'a'.toNat + 10
  else if 'A' ≤ c ∧ c ≤ 'Z' then c.toNat - 'A'.toNat + 10
  else 36

def isDigitIn (base : Nat) (c : Char) : Bool := digitValue c < base

def valueOf (base : Nat) (digits : Text) : Nat :=
  digits.foldl (fun n c => n * base + digitValue c) 0

def subject (base : Nat) : Text → Text
  | '0' :: x :: digit :: rest =>
    if base = 16 ∧ (x = 'x' ∨ x = 'X') ∧ isDigitIn 16 digit then
      (digit :: rest).takeWhile (isDigitIn 16)
    else ('0' :: x :: digit :: rest).takeWhile (isDigitIn base)
  | s => s.takeWhile (isDigitIn base)

def strtoll (s : Text) (base : Nat) : BitVec 64 :=
  BitVec.ofNat 64 (min (valueOf base (subject base s)) (2 ^ 63 - 1))

/-- The value, and whether `errno` is `ERANGE`. -/
def strtoull (s : Text) (base : Nat) : BitVec 64 × Bool :=
  (BitVec.ofNat 64 (min (valueOf base (subject base s)) (2 ^ 64 - 1)),
    2 ^ 64 ≤ valueOf base (subject base s))

/-- A token of an integer literal; `suffix` is empty but for the literal of an operator. -/
structure Token where
  value : BitVec 64
  explicitType : TypeKind
  suffix : Text
  reported : Bool

def mlaLexIntSuffixKind : Text → TypeKind
  | c :: bits =>
    if c ≠ 'i' ∧ c ≠ 'u' then .void
    else
      match valueOf 10 (bits.takeWhile (isDigitIn 10)), decide (c = 'u') with
      | 8, true => .u8
      | 8, false => .i8
      | 16, true => .u16
      | 16, false => .i16
      | 32, true => .u32
      | 32, false => .i32
      | 64, true => .u64
      | 64, false => .i64
      | _, _ => .void
  | [] => .void

def mlaLexMakeTypedInt (value : BitVec 64) (suffix : Text) : Token :=
  ⟨value, mlaLexIntSuffixKind suffix, [], false⟩

def mlaLexUserInteger (text : Text) (base : Nat) : Token :=
  ⟨(strtoull text base).1, .u64, text.dropWhile (· ≠ '_'), (strtoull text base).2⟩

def plainLiteral (value : BitVec 64) : Token := ⟨value, .void, [], false⟩

/-! One action for each rule, on the text that the rule has matched. -/

def userHex (yytext : Text) : Token := mlaLexUserInteger yytext 16

def userBinary (yytext : Text) : Token := mlaLexUserInteger (yytext.drop 2) 2

def userDecimal (yytext : Text) : Token := mlaLexUserInteger yytext 10

def typedBinary (yytext : Text) : Token :=
  mlaLexMakeTypedInt (strtoll (yytext.drop 2) 2)
    ((yytext.drop 2).dropWhile fun c => c = '0' || c = '1')

def typedHex (yytext : Text) : Token :=
  mlaLexMakeTypedInt (strtoll (yytext.drop 2) 16)
    ((yytext.drop 2).dropWhile fun c =>
      ('0' ≤ c && c ≤ '9') || ('a' ≤ c && c ≤ 'f') || ('A' ≤ c && c ≤ 'F'))

def typedDecimal (yytext : Text) : Token :=
  mlaLexMakeTypedInt (strtoll yytext 10) (yytext.dropWhile fun c => '0' ≤ c && c ≤ '9')

def plainBinary (yytext : Text) : Token := plainLiteral (strtoll (yytext.drop 2) 2)

def plainHex (yytext : Text) : Token := plainLiteral (strtoll (yytext.drop 2) 16)

def plainDecimal (yytext : Text) : Token := plainLiteral (strtoll yytext 10)

inductive Base
  | binary | hex | decimal
  deriving DecidableEq

def Base.radix : Base → Nat
  | .binary => 2
  | .hex => 16
  | .decimal => 10

inductive Bits
  | b8 | b16 | b32 | b64
  deriving DecidableEq

def Bits.width : Bits → Nat
  | .b8 => 8
  | .b16 => 16
  | .b32 => 32
  | .b64 => 64

inductive Suffix
  | none
  | typed (isUnsigned : Bool) (bits : Bits)
  | user (name : Text)
  deriving DecidableEq

namespace Suffix

def text : Suffix → Text
  | .none => []
  | .typed isUnsigned bits => (if isUnsigned then 'u' else 'i') :: (toString bits.width).toList
  | .user name => '_' :: name

def kind : Suffix → TypeKind
  | .none => .void
  | .typed true .b8 => .u8
  | .typed false .b8 => .i8
  | .typed true .b16 => .u16
  | .typed false .b16 => .i16
  | .typed true .b32 => .u32
  | .typed false .b32 => .i32
  | .typed true .b64 => .u64
  | .typed false .b64 => .i64
  | .user _ => .u64

/-- The numbers of the type of a literal with that suffix. Without one a literal is of any type of
64 bits, as an operator's literal is of `u64`. -/
def Fits : Suffix → Nat → Prop
  | .none, n => n < 2 ^ 64
  | .typed true bits, n => n < 2 ^ bits.width
  | .typed false bits, n => n < 2 ^ (bits.width - 1)
  | .user _, n => n < 2 ^ 64

end Suffix

structure Literal where
  base : Base
  upper : Bool
  digits : Text
  suffix : Suffix
  digits_ne : digits ≠ []
  digits_ok : ∀ c ∈ digits, isDigitIn base.radix c = true
  suffix_ok : ∀ name, suffix = .user name → name ≠ [] ∧ name.all isSuffixChar = true

namespace Literal

def lead (l : Literal) : Text :=
  match l.base with
  | .binary => ['0', if l.upper then 'B' else 'b']
  | .hex => ['0', if l.upper then 'X' else 'x']
  | .decimal => []

def text (l : Literal) : Text := l.lead ++ (l.digits ++ l.suffix.text)

def value (l : Literal) : Nat := valueOf l.base.radix l.digits

def token (l : Literal) : Token :=
  match l.base, l.suffix with
  | .hex, .user _ => userHex l.text
  | .binary, .user _ => userBinary l.text
  | .decimal, .user _ => userDecimal l.text
  | .binary, .typed _ _ => typedBinary l.text
  | .hex, .typed _ _ => typedHex l.text
  | .decimal, .typed _ _ => typedDecimal l.text
  | .binary, .none => plainBinary l.text
  | .hex, .none => plainHex l.text
  | .decimal, .none => plainDecimal l.text

/-- A value of the literal's type comes out as it is, and one of more than 64 bits is reported. -/
def MeansValue (l : Literal) : Prop :=
  (l.suffix.Fits l.value → l.token.value.toNat = l.value ∧ l.token.reported = false) ∧
    (2 ^ 64 ≤ l.value → l.token.reported = true)

end Literal

variable {digits rest : Text} {suffix : Suffix} {base : Base}

theorem takeWhile_digits {p : Char → Bool} (h : ∀ c ∈ digits, p c = true)
    (hrest : ∀ c ∈ rest.head?, p c = false) : (digits ++ rest).takeWhile p = digits := by
  rw [takeWhile_append_of_pos h]
  cases rest with
  | nil => exact append_nil _
  | cons c rest =>
    rw [takeWhile_cons_of_neg (Bool.eq_false_iff.1 (hrest c rfl)), append_nil]

theorem head_suffix : ∀ c ∈ suffix.text.head?, isDigitIn base.radix c = false := by
  intro c hc
  cases suffix with
  | none => exact nomatch hc
  | typed isUnsigned bits =>
    cases hc
    cases isUnsigned <;> cases base <;> rfl
  | user name =>
    cases hc
    cases base <;> rfl

theorem subject_eq_takeWhile {base : Nat} {s : Text}
    (h : ∀ c ∈ s.tail.head?, c ≠ 'x' ∧ c ≠ 'X') : subject base s = s.takeWhile (isDigitIn base) := by
  unfold subject
  split
  · next x digit rest =>
    obtain ⟨hx, hX⟩ := h x rfl
    exact if_neg fun hlead => hlead.2.1.elim hx hX
  · rfl

theorem subject_lead {x : Char} (hx : x = 'x' ∨ x = 'X') (hne : digits ≠ [])
    (h : ∀ c ∈ digits, isDigitIn 16 c = true) (hrest : ∀ c ∈ rest.head?, isDigitIn 16 c = false) :
    subject 16 ('0' :: x :: (digits ++ rest)) = digits := by
  obtain ⟨digit, digits, rfl⟩ := exists_cons_of_ne_nil hne
  rw [cons_append, subject, if_pos ⟨rfl, hx, h digit mem_cons_self⟩, ← cons_append,
    takeWhile_digits h hrest]

theorem ne_x_of_isDigitIn {c : Char} (h : isDigitIn base.radix c = true) : c ≠ 'x' ∧ c ≠ 'X' := by
  constructor <;> rintro rfl <;> cases base <;> exact absurd h (by decide)

theorem ne_x_of_head_suffix : ∀ c ∈ suffix.text.head?, c ≠ 'x' ∧ c ≠ 'X' := by
  intro c hc
  cases suffix with
  | none => exact nomatch hc
  | typed isUnsigned bits =>
    cases hc
    cases isUnsigned <;> decide
  | user name =>
    cases hc
    decide

theorem subject_digits (hne : digits ≠ []) (h : ∀ c ∈ digits, isDigitIn base.radix c = true)
    (suffix : Suffix) : subject base.radix (digits ++ suffix.text) = digits := by
  rw [subject_eq_takeWhile, takeWhile_digits h head_suffix]
  intro c hc
  obtain ⟨digit, digits, rfl⟩ := exists_cons_of_ne_nil hne
  cases digits with
  | nil =>
    exact ne_x_of_head_suffix c hc
  | cons second digits =>
    obtain rfl := Option.some.inj hc
    exact ne_x_of_isDigitIn (h second (mem_cons_of_mem _ mem_cons_self))

variable (l : Literal)

theorem drop_lead (h : l.base ≠ .decimal) : l.text.drop 2 = l.digits ++ l.suffix.text := by
  unfold Literal.text Literal.lead
  cases hbase : l.base with
  | binary => rfl
  | hex => rfl
  | decimal => exact absurd hbase h

theorem text_decimal (h : l.base = .decimal) : l.text = l.digits ++ l.suffix.text := by
  rw [Literal.text, Literal.lead, h, nil_append]

theorem subject_text : subject l.base.radix (l.digits ++ l.suffix.text) = l.digits :=
  subject_digits l.digits_ne l.digits_ok l.suffix

theorem subject_hex (h : l.base = .hex) : subject 16 l.text = l.digits := by
  rw [Literal.text, Literal.lead, h]
  refine subject_lead ?_ l.digits_ne ?_ (@head_suffix l.suffix Base.hex)
  · cases l.upper
    · exact Or.inl rfl
    · exact Or.inr rfl
  · simpa only [h, Base.radix] using l.digits_ok

def saturated (limit : Nat) : BitVec 64 := BitVec.ofNat 64 (min l.value limit)

theorem strtoll_text : strtoll (l.digits ++ l.suffix.text) l.base.radix = saturated l (2 ^ 63 - 1) := by
  rw [strtoll, subject_text]
  rfl

theorem strtoull_text : strtoull (l.digits ++ l.suffix.text) l.base.radix =
    (saturated l (2 ^ 64 - 1), decide (2 ^ 64 ≤ l.value)) := by
  rw [strtoull, subject_text]
  rfl

theorem token_of_user {name : Text} (h : l.suffix = .user name) :
    l.token.value = saturated l (2 ^ 64 - 1) ∧ l.token.reported = decide (2 ^ 64 ≤ l.value) := by
  have hstrtoull := strtoull_text l
  cases hbase : l.base with
  | binary =>
    simp only [hbase, Base.radix] at hstrtoull
    simp only [Literal.token, hbase, h, userBinary, mlaLexUserInteger,
      drop_lead l (by rw [hbase]; decide)]
    rw [← h, hstrtoull]
    exact ⟨rfl, rfl⟩
  | hex =>
    have hvalue : valueOf 16 l.digits = l.value := by
      rw [Literal.value, hbase]
      rfl
    simp only [Literal.token, hbase, h, userHex, mlaLexUserInteger, strtoull, subject_hex l hbase,
      hvalue, saturated, and_self]
  | decimal =>
    simp only [hbase, Base.radix] at hstrtoull
    simp only [Literal.token, hbase, h, userDecimal, mlaLexUserInteger, text_decimal l hbase]
    rw [← h, hstrtoull]
    exact ⟨rfl, rfl⟩

theorem token_of_not_user (h : ∀ name, l.suffix ≠ .user name) :
    l.token.value = saturated l (2 ^ 63 - 1) ∧ l.token.reported = false := by
  have hstrtoll := strtoll_text l
  cases hbase : l.base with
  | binary =>
    simp only [hbase, Base.radix] at hstrtoll
    have htext := drop_lead l (by rw [hbase]; decide)
    cases hsuffix : l.suffix with
    | none =>
      simp only [Literal.token, hbase, hsuffix, plainBinary, plainLiteral, htext, ← hstrtoll, and_self]
    | typed isUnsigned bits =>
      simp only [Literal.token, hbase, hsuffix, typedBinary, mlaLexMakeTypedInt, htext,
        ← hstrtoll, and_self]
    | user name => exact absurd hsuffix (h name)
  | hex =>
    simp only [hbase, Base.radix] at hstrtoll
    have htext := drop_lead l (by rw [hbase]; decide)
    cases hsuffix : l.suffix with
    | none =>
      simp only [Literal.token, hbase, hsuffix, plainHex, plainLiteral, htext, ← hstrtoll, and_self]
    | typed isUnsigned bits =>
      simp only [Literal.token, hbase, hsuffix, typedHex, mlaLexMakeTypedInt, htext,
        ← hstrtoll, and_self]
    | user name => exact absurd hsuffix (h name)
  | decimal =>
    simp only [hbase, Base.radix] at hstrtoll
    have htext := text_decimal l hbase
    cases hsuffix : l.suffix with
    | none =>
      simp only [Literal.token, hbase, hsuffix, plainDecimal, plainLiteral, htext, ← hstrtoll, and_self]
    | typed isUnsigned bits =>
      simp only [Literal.token, hbase, hsuffix, typedDecimal, mlaLexMakeTypedInt, htext,
        ← hstrtoll, and_self]
    | user name => exact absurd hsuffix (h name)

theorem toNat_saturated {limit : Nat} (hlimit : limit < 2 ^ 64) :
    (saturated l limit).toNat = min l.value limit := by
  rw [saturated, BitVec.toNat_ofNat]
  exact Nat.mod_eq_of_lt (Nat.lt_of_le_of_lt (Nat.min_le_right _ _) hlimit)

/-- A literal of an operator is converted without a sign and checked. -/
theorem meansValue_iff :
    l.MeansValue ↔ (∃ name, l.suffix = .user name) ∨ l.value < 2 ^ 63 ∨
      (l.value < 2 ^ 64 ∧ ¬ l.suffix.Fits l.value) := by
  by_cases huser : ∃ name, l.suffix = .user name
  · refine iff_of_true ?_ (Or.inl huser)
    obtain ⟨name, hname⟩ := huser
    obtain ⟨hvalue, hreported⟩ := token_of_user l hname
    refine ⟨fun hfits => ?_, fun hlarge => ?_⟩
    · rw [hname] at hfits
      have hlt : l.value < 2 ^ 64 := hfits
      rw [hvalue, hreported, toNat_saturated l (by decide)]
      exact ⟨Nat.min_eq_left (Nat.le_pred_of_lt hlt), decide_eq_false (Nat.not_le.2 hlt)⟩
    · rw [hreported]
      exact decide_eq_true hlarge
  · obtain ⟨hvalue, hreported⟩ := token_of_not_user l fun name hname => huser ⟨name, hname⟩
    rw [Literal.MeansValue, hvalue, hreported, toNat_saturated l (by decide)]
    constructor
    · rintro ⟨hfits, hlarge⟩
      have hlt : l.value < 2 ^ 64 := Nat.lt_of_not_le fun h => Bool.false_ne_true (hlarge h)
      by_cases hfit : l.suffix.Fits l.value
      · have hmin := (hfits hfit).1
        exact Or.inr (Or.inl (by omega))
      · exact Or.inr (Or.inr ⟨hlt, hfit⟩)
    · rintro (h | h | ⟨hlt, hfit⟩)
      · exact absurd h huser
      · exact ⟨fun _ => ⟨by omega, rfl⟩, fun hlarge => absurd hlarge (by omega)⟩
      · exact ⟨fun hfits => absurd hfits hfit, fun hlarge => absurd hlarge (Nat.not_le.2 hlt)⟩

/-- The largest number of `u64`, as its type's own literal. -/
def maxU64 : Literal :=
  ⟨.hex, false, "FFFFFFFFFFFFFFFF".toList, .typed true .b64, by decide, by decide,
    fun _ h => (nomatch h)⟩

theorem not_meansValue_maxU64 : ¬ maxU64.MeansValue := fun h =>
  absurd (h.1 (show maxU64.value < 2 ^ 64 by decide)).1 (by decide)

end Mlang.NumericLiterals
