import Mlang.VersionPrecedence

namespace Mlang.VersionRequirements

open BracketedText (Text)
open SemanticVersions VersionPrecedence

def tagCharacter (c : Char) : Bool := c.isAlphanum || c = '-'

structure Comparison where
  operator : Option Operator
  numbers : List Nat
  tag : List Text
  numbers_ne_nil : numbers ≠ []
  numbers_length : numbers.length ≤ 3
  tag_valid : ∀ part ∈ tag, validIdentifier part = true
  tag_characters : ∀ part ∈ tag, part.all tagCharacter = true

structure Wildcard where
  numbers : List Nat
  marks : List Char
  marks_ne_nil : marks ≠ []
  marks_wild : ∀ c ∈ marks, isWildcard c = true
  length_le : numbers.length + marks.length ≤ 3

inductive Term
  | comparison (comparison : Comparison)
  | wildcard (wildcard : Wildcard)

def dotted (parts : List Text) : Text := ['.'].intercalate parts

def Comparison.versionText (c : Comparison) : Text :=
  dotted (c.numbers.map (Nat.toDigits 10)) ++
    (if c.tag = [] then [] else '-' :: dotted c.tag)

def Comparison.text (c : Comparison) : Text :=
  (c.operator.map Operator.text).getD [] ++ c.versionText

def Wildcard.text (w : Wildcard) : Text :=
  dotted (w.numbers.map (Nat.toDigits 10) ++ w.marks.map fun mark => [mark])

def Term.text : Term → Text
  | .comparison c => c.text
  | .wildcard w => w.text

inductive SpelledTerms : List Term → Text → Prop
  | nothing : SpelledTerms [] []
  | blank {separator : Char} {ts : List Term} {s : Text} :
      separator = ' ' ∨ separator = ',' → SpelledTerms ts s → SpelledTerms ts (separator :: s)
  | term {separator : Char} {ts : List Term} {s : Text} (t : Term) :
      separator = ' ' ∨ separator = ',' → SpelledTerms ts s →
      SpelledTerms (t :: ts) (t.text ++ separator :: s)
  | last (t : Term) : SpelledTerms [t] t.text

/-- Alternatives, each of some terms, with `||` between them. -/
structure Spelled (requirement : List (List Term)) (text : Text) : Prop where
  ne_nil : requirement ≠ []
  terms_ne_nil : ∀ alternative ∈ requirement, alternative ≠ []
  spelled : ∃ texts, List.Forall₂ SpelledTerms requirement texts ∧
    text = "||".toList.intercalate texts

def Comparison.component (c : Comparison) (i : Nat) : Nat := c.numbers.getD i 0

def Comparison.components (c : Comparison) : List Nat :=
  [c.component 0, c.component 1, c.component 2]

def Comparison.wanted (c : Comparison) : SemanticVersion :=
  ⟨c.component 0, c.component 1, c.component 2, c.tag⟩

def Keeps (version : SemanticVersion) (written : List Nat) : Prop :=
  written.map Int.ofNat <+: [version.major, version.minor, version.patch]

def throughNonzero : List Nat → List Nat
  | [] => []
  | n :: ns => if n = 0 then n :: throughNonzero ns else [n]

def Comparison.Contains (c : Comparison) (version : SemanticVersion) : Prop :=
  match c.operator with
  | none =>
    if c.tag = [] ∧ c.numbers.length < 3 then Keeps version c.numbers
    else precedence version = precedence c.wanted
  | some .equal => precedence version = precedence c.wanted
  | some .atLeast => precedence c.wanted ≤ precedence version
  | some .atMost => precedence version ≤ precedence c.wanted
  | some .above => precedence c.wanted < precedence version
  | some .below => precedence version < precedence c.wanted
  | some .caret =>
    precedence c.wanted ≤ precedence version ∧ Keeps version (throughNonzero c.components)
  | some .tilde =>
    precedence c.wanted ≤ precedence version ∧ Keeps version (c.components.take 2)

def Term.Admits (version : SemanticVersion) : Term → Prop
  | .comparison c => (version.prerelease ≠ [] → c.tag ≠ []) ∧ c.Contains version
  | .wildcard w => version.prerelease = [] ∧ Keeps version w.numbers

def Admits (version : SemanticVersion) (requirement : List (List Term)) : Prop :=
  ∃ alternative ∈ requirement, ∀ t ∈ alternative, t.Admits version

def Comparison.counted (c : Comparison) : Option Nat :=
  match c.operator with
  | some .caret => (throughNonzero c.components).getLast?
  | some .tilde => some (c.component 1)
  | _ => none

/-- A letter of the tag is taken for a wildcard, or a component is no `int`, or is the last one and
counted up. -/
def Term.Misread : Term → Prop
  | .comparison c =>
    (∃ part ∈ c.tag, part.any isWildcard = true) ∨ (∃ n ∈ c.numbers, intMax < n) ∨
      ∃ n, c.counted = some n ∧ (n : Int) = intMax
  | .wildcard _ => False

/-- The version is a pre-release of the excluded upper bound of a range that names a pre-release. -/
def Term.Overshoots (version : SemanticVersion) : Term → Prop
  | .comparison c =>
    c.tag ≠ [] ∧ version.prerelease ≠ [] ∧
      ∃ bound, (c.operator = some .caret ∧ bound = caretBound c.wanted ∨
          c.operator = some .tilde ∧ bound = tildeBound c.wanted) ∧
        version.major = bound.major ∧ version.minor = bound.minor ∧ version.patch = bound.patch
  | .wildcard _ => False

end Mlang.VersionRequirements

namespace Mlang.VersionReading

open BracketedText (Text isSpace trimCopy)
open SemanticVersions VersionPrecedence VersionRequirements DecimalTexts List

theorem mem_dotted {parts : List Text} {c : Char} (h : c ∈ dotted parts) :
    c = '.' ∨ ∃ part ∈ parts, c ∈ part := by
  induction parts with
  | nil => cases h
  | cons part rest ih =>
    cases rest with
    | nil => exact .inr ⟨part, mem_cons_self, by simpa [dotted] using h⟩
    | cons next rest =>
      rw [dotted, intercalate_cons_cons, append_assoc] at h
      rcases mem_append.1 h with h | h
      · exact .inr ⟨part, mem_cons_self, h⟩
      · rcases mem_append.1 h with h | h
        · exact .inl (mem_singleton.1 h)
        · exact (ih h).imp id fun ⟨p, hp, hc⟩ => ⟨p, mem_cons_of_mem _ hp, hc⟩

theorem trimCopy_of_unspaced {s : Text} (h : ∀ c ∈ s, isSpace c = false) : trimCopy s = s := by
  have hfront : s.dropWhile isSpace = s := by
    cases s with
    | nil => rfl
    | cons c cs => exact dropWhile_cons_of_neg (by simp [h c mem_cons_self])
  rw [trimCopy, hfront, rdropWhile_eq_self_iff]
  intro hne
  simp [h _ (getLast_mem hne)]

theorem parseNumber_toDigits (n : Nat) :
    parseNumber (Nat.toDigits 10 n) = if (n : Int) ≤ intMax then some (n : Int) else none := by
  have hcanonical := canonical_toDigits n
  have hzero : leadingZero (Nat.toDigits 10 n) = false := by
    rw [leadingZero, Bool.and_eq_false_iff, decide_eq_false_iff_not, decide_eq_false_iff_not]
    by_cases hlong : 1 < (Nat.toDigits 10 n).length
    · exact .inr (hcanonical.head hlong)
    · exact .inl hlong
  have hvalue : Nat.ofDigitChars 10 (Nat.toDigits 10 n) 0 = n := value_toDigits n
  rw [parseNumber, hvalue]
  have hdigits : allDigits (Nat.toDigits 10 n) = true := hcanonical.digits
  simp [hcanonical.ne_nil, hdigits, hzero]

theorem mapM_parseNumber (numbers : List Nat) :
    (numbers.map (Nat.toDigits 10)).mapM parseNumber =
      if ∃ n ∈ numbers, intMax < (n : Int) then none else some (numbers.map Int.ofNat) := by
  induction numbers with
  | nil => simp
  | cons n rest ih =>
    rw [map_cons, mapM_cons, parseNumber_toDigits, ih]
    by_cases hn : (n : Int) ≤ intMax
    · by_cases hrest : ∃ n ∈ rest, intMax < (n : Int)
      · simp [hn, hrest]
      · simp [hn, hrest]
    · have hlarge : intMax < (n : Int) := Int.not_le.1 hn
      simp [hn, hlarge]

theorem toNat_of_tagCharacter {c : Char} (h : tagCharacter c = true) :
    45 ≤ c.toNat ∧ c.toNat ≤ 122 ∧ c.toNat ≠ 46 := by
  rw [tagCharacter, Bool.or_eq_true, decide_eq_true_iff] at h
  rcases h with h | rfl
  · have hbounds := toNat_of_isAlphanum h
    omega
  · decide

theorem tagCharacter_of_isDigit {c : Char} (h : c.isDigit = true) : tagCharacter c = true := by
  simp [tagCharacter, Char.isAlphanum, h]

theorem digit_of_mem_numbers {numbers : List Nat} {c : Char}
    (h : c ∈ dotted (numbers.map (Nat.toDigits 10))) : c = '.' ∨ c.isDigit = true := by
  refine (mem_dotted h).imp id ?_
  rintro ⟨part, hpart, hc⟩
  obtain ⟨n, -, rfl⟩ := mem_map.1 hpart
  exact all_eq_true.1 (canonical_toDigits n).digits c hc

namespace Comparison

variable (c : Comparison)
variable {a : Char}

theorem tagCharacter_of_mem (h : a ∈ dotted c.tag) : a = '.' ∨ tagCharacter a = true := by
  refine (mem_dotted h).imp id ?_
  rintro ⟨part, hpart, ha⟩
  exact all_eq_true.1 (c.tag_characters part hpart) a ha

theorem mem_versionText (h : a ∈ c.versionText) : a = '.' ∨ tagCharacter a = true := by
  rw [Comparison.versionText, mem_append] at h
  rcases h with h | h
  · exact (digit_of_mem_numbers h).imp id tagCharacter_of_isDigit
  · by_cases htag : c.tag = []
    · rw [if_pos htag] at h
      cases h
    · rw [if_neg htag] at h
      rcases mem_cons.1 h with rfl | h
      · exact .inr rfl
      · exact tagCharacter_of_mem c h

theorem toNat_of_mem_versionText (h : a ∈ c.versionText) : 45 ≤ a.toNat ∧ a.toNat ≤ 122 := by
  rcases mem_versionText c h with rfl | h
  · exact ⟨by decide, by decide⟩
  · exact ⟨(toNat_of_tagCharacter h).1, (toNat_of_tagCharacter h).2.1⟩

theorem versionText_eq_cons : ∃ d rest, c.versionText = d :: rest ∧ d.isDigit = true := by
  cases hnumbers : c.numbers with
  | nil => exact absurd hnumbers c.numbers_ne_nil
  | cons n ns =>
    have hcanonical := canonical_toDigits n
    cases hdigits : Nat.toDigits 10 n with
    | nil => exact absurd hdigits hcanonical.ne_nil
    | cons d ds =>
      have hd : d.isDigit = true := (digits_cons.1 (hdigits ▸ hcanonical.digits)).1
      rw [Comparison.versionText, hnumbers, map_cons, hdigits]
      cases ns with
      | nil => exact ⟨d, _, by simp [dotted]; rfl, hd⟩
      | cons m ms => exact ⟨d, _, by simp [dotted, intercalate_cons_cons]; rfl, hd⟩

theorem dotted_tag_ne_nil (htag : c.tag ≠ []) : dotted c.tag ≠ [] := by
  cases h : c.tag with
  | nil => exact absurd h htag
  | cons part rest =>
    have hpart := c.tag_valid part (h ▸ mem_cons_self)
    have hne : part ≠ [] := by
      rintro rfl
      simp [validIdentifier] at hpart
    cases rest with
    | nil => simpa [dotted] using hne
    | cons next rest =>
      rw [dotted, intercalate_cons_cons]
      simp

theorem dash_mem_versionText : '-' ∈ c.versionText ↔ c.tag ≠ [] := by
  rw [Comparison.versionText, mem_append]
  constructor
  · rintro (h | h)
    · rcases digit_of_mem_numbers h with h | h
      · exact absurd h (by decide)
      · exact absurd h (by decide)
    · rintro htag
      rw [if_pos htag] at h
      cases h
  · intro htag
    rw [if_neg htag]
    exact .inr mem_cons_self

theorem stripMark_versionText : stripMark c.versionText = c.versionText := by
  obtain ⟨d, rest, h, hd⟩ := versionText_eq_cons c
  rw [h, stripMark]
  · rintro rest' h
    obtain rfl := (List.cons.inj h).1
    exact absurd hd (by decide)
  · rintro rest' h
    obtain rfl := (List.cons.inj h).1
    exact absurd hd (by decide)

theorem trimCopy_versionText : trimCopy c.versionText = c.versionText := by
  refine trimCopy_of_unspaced fun a ha => ?_
  have hbounds := toNat_of_mem_versionText c ha
  rw [isSpace, Bool.or_eq_false_iff, decide_eq_false_iff_not, Bool.and_eq_false_iff,
    decide_eq_false_iff_not, decide_eq_false_iff_not]
  constructor
  · rintro rfl
    exact absurd hbounds.1 (by decide)
  · omega

theorem splitOn_numbers : (dotted (c.numbers.map (Nat.toDigits 10))).splitOn '.' =
    c.numbers.map (Nat.toDigits 10) := by
  refine splitOn_intercalate _ (fun part hpart hdot => ?_) (by simpa using c.numbers_ne_nil)
  obtain ⟨n, -, rfl⟩ := mem_map.1 hpart
  exact absurd (all_eq_true.1 (canonical_toDigits n).digits '.' hdot) (by decide)

theorem splitOn_tag (htag : c.tag ≠ []) : (dotted c.tag).splitOn '.' = c.tag := by
  refine splitOn_intercalate _ (fun part hpart hdot => ?_) htag
  exact absurd (all_eq_true.1 (c.tag_characters part hpart) '.' hdot) (by decide)

theorem numbers_undashed : ∀ a ∈ dotted (c.numbers.map (Nat.toDigits 10)), a ≠ '-' := by
  rintro a ha rfl
  rcases digit_of_mem_numbers ha with h | h
  · exact absurd h (by decide)
  · exact absurd h (by decide)

theorem takeWhile_versionText :
    c.versionText.takeWhile (· ≠ '-') = dotted (c.numbers.map (Nat.toDigits 10)) := by
  have hall : ∀ a ∈ dotted (c.numbers.map (Nat.toDigits 10)), decide (a ≠ '-') = true :=
    fun a ha => decide_eq_true (numbers_undashed c a ha)
  rw [Comparison.versionText, takeWhile_append_of_pos hall]
  split_ifs
  · simp
  · simp

theorem dropWhile_versionText :
    (c.versionText.dropWhile (· ≠ '-')).tail = if c.tag = [] then [] else dotted c.tag := by
  have hall : ∀ a ∈ dotted (c.numbers.map (Nat.toDigits 10)), decide (a ≠ '-') = true :=
    fun a ha => decide_eq_true (numbers_undashed c a ha)
  rw [Comparison.versionText, dropWhile_append_of_pos hall]
  split_ifs
  · simp
  · simp

theorem parse_versionText : parseSemanticVersion c.versionText =
    if ∃ n ∈ c.numbers, intMax < (n : Int) then none else some c.wanted := by
  have hplus : c.versionText.takeWhile (· ≠ '+') = c.versionText := by
    refine takeWhile_eq_self_iff.2 fun a ha => decide_eq_true ?_
    rintro rfl
    exact absurd (toNat_of_mem_versionText c ha).1 (by decide)
  rw [parseSemanticVersion, trimCopy_versionText, stripMark_versionText, hplus]
  dsimp only
  rw [dropWhile_versionText, takeWhile_versionText, splitOn_numbers, mapM_parseNumber]
  have hdash : ¬ ('-' ∈ c.versionText ∧ (if c.tag = [] then [] else dotted c.tag) = []) := by
    rintro ⟨hdash, hempty⟩
    have htag := (dash_mem_versionText c).1 hdash
    rw [if_neg htag] at hempty
    exact dotted_tag_ne_nil c htag hempty
  rw [if_neg hdash]
  have hidentifiers : prereleaseIdentifiers (if c.tag = [] then [] else dotted c.tag) = c.tag := by
    rw [prereleaseIdentifiers]
    by_cases htag : c.tag = []
    · simp [htag]
    · simp [htag, dotted_tag_ne_nil c htag, splitOn_tag c htag]
  rw [hidentifiers]
  by_cases hlarge : ∃ n ∈ c.numbers, intMax < (n : Int)
  · simp only [if_pos hlarge]
  · simp only [if_neg hlarge]
    have hlength := c.numbers_length
    rw [if_neg (by simpa [c.numbers_ne_nil] using hlength), if_pos (all_eq_true.2 c.tag_valid)]
    have hcomponent : ∀ i, (c.numbers.map Int.ofNat).getD i 0 = (c.component i : Int) :=
      fun i => by
        rw [Comparison.component, getD_eq_getElem?_getD, getD_eq_getElem?_getD, getElem?_map]
        cases c.numbers[i]? with
        | none => rfl
        | some n => rfl
    rw [hcomponent, hcomponent, hcomponent, Comparison.wanted]

end Comparison

structure WellRead (version : SemanticVersion) : Prop where
  major : 0 ≤ version.major ∧ version.major ≤ intMax
  minor : 0 ≤ version.minor ∧ version.minor ≤ intMax
  patch : 0 ≤ version.patch ∧ version.patch ≤ intMax
  valid : Valid version

theorem bounds_of_parseNumber {part : Text} {n : Int} (h : parseNumber part = some n) :
    0 ≤ n ∧ n ≤ intMax := by
  rw [parseNumber] at h
  split_ifs at h with hpart
  cases h
  exact ⟨Int.natCast_nonneg _, hpart.2.2.2⟩

theorem bounds_of_mapM {parts : List Text} {numbers : List Int}
    (h : parts.mapM parseNumber = some numbers) : ∀ n ∈ numbers, 0 ≤ n ∧ n ≤ intMax := by
  induction parts generalizing numbers with
  | nil =>
    obtain rfl : [] = numbers := by simpa using h
    exact fun n hn => absurd hn not_mem_nil
  | cons part rest ih =>
    rw [mapM_cons] at h
    obtain ⟨n, hn, h⟩ := Option.bind_eq_some_iff.1 h
    obtain ⟨ns, hns, h⟩ := Option.bind_eq_some_iff.1 h
    cases h
    exact forall_mem_cons.2 ⟨bounds_of_parseNumber hn, ih hns⟩

variable {version a b : SemanticVersion}

theorem wellRead_of_parse {text : Text} (h : parseSemanticVersion text = some version) :
    WellRead version := by
  rw [parseSemanticVersion] at h
  dsimp only at h
  split at h
  · cases h
  split at h
  · cases h
  next numbers hnumbers =>
    have hbounds := bounds_of_mapM hnumbers
    have hget : ∀ i, 0 ≤ numbers.getD i 0 ∧ numbers.getD i 0 ≤ intMax := by
      intro i
      rw [getD_eq_getElem?_getD]
      cases hi : numbers[i]? with
      | none => exact ⟨le_refl _, by decide⟩
      | some n => exact hbounds n (mem_of_getElem? hi)
    split at h
    · cases h
    split at h
    next hvalid =>
      cases h
      exact ⟨hget 0, hget 1, hget 2, all_eq_true.1 hvalid⟩
    · cases h

theorem valid_wanted (c : Comparison) : Valid c.wanted := c.tag_valid

theorem tag_lt_top {prerelease : List Text} : tag prerelease < ⊤ ↔ prerelease ≠ [] := by
  rw [tag]
  by_cases h : prerelease = []
  · simp [h]
  · simp [h, WithTop.coe_lt_top]

theorem precedence_lt : precedence a < precedence b ↔ a.major < b.major ∨
    (a.major = b.major ∧ (a.minor < b.minor ∨ (a.minor = b.minor ∧ (a.patch < b.patch ∨ (a.patch = b.patch ∧
      tag a.prerelease < tag b.prerelease))))) := by
  rw [precedence, precedence, Prod.Lex.toLex_lt_toLex, Prod.Lex.toLex_lt_toLex, Prod.Lex.toLex_lt_toLex]

theorem precedence_lt_release {major minor patch : Int} :
    precedence version < precedence ⟨major, minor, patch, []⟩ ↔
    (version.major < major ∨ (version.major = major ∧ (version.minor < minor ∨ (version.minor = minor ∧
      version.patch < patch))))
    ∨ (version.prerelease ≠ [] ∧ version.major = major ∧ version.minor = minor ∧ version.patch = patch) := by
  rw [precedence_lt, ← tag_lt_top]
  have htop : tag [] = ⊤ := rfl
  rw [htop]
  tauto

theorem components_of_le (h : precedence a ≤ precedence b) : a.major < b.major ∨
    (a.major = b.major ∧ (a.minor < b.minor ∨ (a.minor = b.minor ∧ a.patch ≤ b.patch))) := by
  have hnot := not_lt_of_ge h
  rw [precedence_lt] at hnot
  omega

end Mlang.VersionReading
