import Mathlib
import Mlang.BracketedText
import Mlang.OrderedTables

namespace Mlang.TomlText

open BracketedText (Text isSpace trimCopy)
open OrderedTables

/-! The characters of a text are the bytes of a file. -/

inductive Quotes
  | outside
  | double (escaped : Bool)
  | single
  deriving DecidableEq

def Quotes.step : Quotes → Char → Quotes
  | .outside, c => if c = '"' then .double false else if c = '\'' then .single else .outside
  | .double true, _ => .double false
  | .double false, c => if c = '\\' then .double true else if c = '"' then .outside else .double false
  | .single, c => if c = '\'' then .outside else .single

def beforeComment : Quotes → Text → Text
  | _, [] => []
  | quotes, c :: rest =>
    if quotes = .outside ∧ c = '#' then [] else c :: beforeComment (quotes.step c) rest

def stripTomlComment (line : Text) : Text := trimCopy (beforeComment .outside line)

def arrayDepth : Quotes → Nat → Text → Nat
  | _, depth, [] => depth
  | quotes, depth, c :: rest =>
    arrayDepth (quotes.step c)
      (if quotes = .outside ∧ c = '[' then depth + 1
        else if quotes = .outside ∧ c = ']' then depth - 1
        else depth)
      rest

def tomlArrayIsComplete (input : Text) : Bool := arrayDepth .outside 0 input = 0

def closesAtEnd : Bool → Text → Bool
  | _, [] => false
  | true, _ :: rest => closesAtEnd false rest
  | false, c :: rest =>
    if c = '\\' then closesAtEnd true rest
    else if c = '"' then rest.isEmpty
    else closesAtEnd false rest

def tomlValueIsComplete (input : Text) : Bool :=
  match trimCopy input with
  | '[' :: rest => tomlArrayIsComplete ('[' :: rest)
  | '"' :: rest => closesAtEnd false rest
  | '\'' :: rest => rest.getLast? = some '\''
  | _ => true

/-- The lines that `std::getline` takes from a text in turn. -/
def textLines (text : Text) : List Text :=
  let parts := text.splitOn '\n'
  if parts.getLast? = some [] then parts.dropLast else parts

def collectLines : Text → List Text → Text × Nat
  | value, [] => (value, 0)
  | value, extra :: rest =>
    let value := value ++ '\n' :: stripTomlComment extra
    if tomlArrayIsComplete value then (value, 1)
    else
      let collected := collectLines value rest
      (collected.1, collected.2 + 1)

def collectMultilineTomlValue (value : Text) (lines : List Text) : Text × Nat :=
  if tomlValueIsComplete value then (value, 0) else collectLines value lines

theorem collectLines_front {value y : Text} {front ys : List Text}
    (h : (collectLines value (front ++ y :: ys)).2 ≤ front.length) (zs : List Text) :
    collectLines value (front ++ zs) = collectLines value (front ++ y :: ys) := by
  induction front generalizing value with
  | nil =>
    rw [List.nil_append, collectLines] at h
    dsimp only at h
    split_ifs at h
    · exact absurd h (Nat.not_succ_le_zero 0)
    · exact absurd h (Nat.not_succ_le_zero _)
  | cons line front ih =>
    rw [List.cons_append, collectLines] at h
    rw [List.cons_append, List.cons_append, collectLines, collectLines]
    dsimp only at h ⊢
    by_cases hcomplete : tomlArrayIsComplete (value ++ '\n' :: stripTomlComment line) = true
    · rw [if_pos hcomplete, if_pos hcomplete]
    · rw [if_neg hcomplete] at h
      rw [if_neg hcomplete, if_neg hcomplete, ih (Nat.le_of_succ_le_succ h)]

theorem collectMultilineTomlValue_front {value y : Text} {front ys : List Text}
    (h : (collectMultilineTomlValue value (front ++ y :: ys)).2 ≤ front.length) (zs : List Text) :
    collectMultilineTomlValue value (front ++ zs) =
      collectMultilineTomlValue value (front ++ y :: ys) := by
  rw [collectMultilineTomlValue] at h
  rw [collectMultilineTomlValue, collectMultilineTomlValue]
  by_cases hcomplete : tomlValueIsComplete value = true
  · rw [if_pos hcomplete, if_pos hcomplete]
  · rw [if_neg hcomplete] at h
    rw [if_neg hcomplete, if_neg hcomplete, collectLines_front h]

structure ParsedTomlAssignment where
  key : Text
  value : Text
  append : Bool
  deriving DecidableEq

/-- What stands in front of the first `=` outside of quotes, and behind it. -/
def splitAssignment : Quotes → Text → Option (Text × Text)
  | _, [] => none
  | quotes, c :: rest =>
    if quotes = .outside ∧ c = '=' then some ([], rest)
    else (splitAssignment (quotes.step c) rest).map fun parts => (c :: parts.1, parts.2)

/-- The assignment of a line, and how many of the following `lines` belong to it. -/
def parseTomlAssignment (line : Text) (lines : List Text) : Option ParsedTomlAssignment × Nat :=
  match splitAssignment .outside line with
  | none => (none, 0)
  | some (front, value) =>
    let append := front.getLast? = some '+'
    let key := trimCopy (if append then front.dropLast else front)
    let collected := collectMultilineTomlValue (trimCopy value) lines
    (if key = [] then none else some ⟨key, collected.1, append⟩, collected.2)

def hexDigit (c : Char) : Option Nat :=
  if '0' ≤ c ∧ c ≤ '9' then some (c.toNat - '0'.toNat)
  else if 'a' ≤ c ∧ c ≤ 'f' then some (10 + (c.toNat - 'a'.toNat))
  else if 'A' ≤ c ∧ c ≤ 'F' then some (10 + (c.toNat - 'A'.toNat))
  else none

def parseHexCodepoint (text : Text) : Option Nat :=
  if text = [] then none
  else text.foldl (fun value c => value.bind fun v => (hexDigit c).map (v * 16 + ·)) (some 0)

def appendUtf8Codepoint (codepoint : Nat) : Text :=
  let tail := fun shift => Char.ofNat (128 + codepoint / 2 ^ shift % 64)
  if codepoint ≤ 0x7F then [Char.ofNat codepoint]
  else if codepoint ≤ 0x7FF then [Char.ofNat (192 + codepoint / 2 ^ 6 % 32), tail 0]
  else if codepoint ≤ 0xFFFF then [Char.ofNat (224 + codepoint / 2 ^ 12 % 16), tail 6, tail 0]
  else [Char.ofNat (240 + codepoint / 2 ^ 18 % 8), tail 12, tail 6, tail 0]

/-- What an escaped character stands for, and how many of the characters behind it are used up. -/
def escapeSequence (escaped : Char) (rest : Text) : Text × Nat :=
  match escaped with
  | 'b' => ([Char.ofNat 8], 0)
  | 't' => (['\t'], 0)
  | 'n' => (['\n'], 0)
  | 'f' => ([Char.ofNat 12], 0)
  | 'r' => (['\r'], 0)
  | 'u' => codepoint 4
  | 'U' => codepoint 8
  | c => ([c], 0)
where
  codepoint (hexDigits : Nat) : Text × Nat :=
    if rest.length < hexDigits then (['\\', escaped], 0)
    else
      match parseHexCodepoint (rest.take hexDigits) with
      | none => (['\\', escaped], 0)
      | some codepoint => (appendUtf8Codepoint codepoint, hexDigits)

def unescapeFrom : Nat → Text → Text
  | _, [] => []
  | skipped + 1, _ :: rest => unescapeFrom skipped rest
  | 0, c :: rest =>
    match c, rest with
    | '\\', escaped :: behind =>
      (escapeSequence escaped behind).1 ++
        unescapeFrom ((escapeSequence escaped behind).2 + 1) rest
    | c, _ => c :: unescapeFrom 0 rest

def unescapeTomlBasicString (v : Text) : Text := unescapeFrom 0 v

def collapseBlanks : Bool → Text → Text
  | _, [] => []
  | previousWasSpace, c :: rest =>
    if c = '\n' ∨ c = '\r' ∨ c = ' ' ∨ c = '\t' then
      if previousWasSpace then collapseBlanks true rest else ' ' :: collapseBlanks true rest
    else c :: collapseBlanks false rest

/-- A text without its first and its last character, where these are `quote`. -/
def quoted (quote : Char) (t : Text) : Option Text :=
  if 2 ≤ t.length ∧ t.head? = some quote ∧ t.getLast? = some quote then some t.tail.dropLast
  else none

def unquote (v : Text) : Text :=
  let t := trimCopy v
  match quoted '"' t with
  | some inner => trimCopy (collapseBlanks false (unescapeTomlBasicString inner))
  | none => (quoted '\'' t).getD t

def parseTomlBoolValue (value : Text) : Bool :=
  let t := (trimCopy value).map Char.toLower
  t = "true".toList || t = "1".toList || t = "\"true\"".toList

/-- `std::stoi`: the digits behind blanks and a sign, where they make up an `int`. -/
def stoi (text : Text) : Option Int :=
  let signed := text.dropWhile isSpace
  let negative := signed.head? = some '-'
  let digits :=
    (if negative ∨ signed.head? = some '+' then signed.tail else signed).takeWhile Char.isDigit
  let value : Int := Nat.ofDigitChars 10 digits 0
  let value := if negative then -value else value
  if digits ≠ [] ∧ -2 ^ 31 ≤ value ∧ value < 2 ^ 31 then some value else none

def parseIntOrDefault (text : Text) (fallback : Int) : Int :=
  if text = [] then fallback else (stoi text).getD fallback

def splitCommas (depthAfter : Int → Char → Int) : Quotes → Int → Text → Text → List Text
  | _, _, part, [] => if part = [] then [] else [trimCopy part]
  | quotes, depth, part, c :: rest =>
    let depth := if quotes = .outside then depthAfter depth c else depth
    if quotes = .outside ∧ c = ',' ∧ depth = 0 then
      trimCopy part :: splitCommas depthAfter .outside depth [] rest
    else splitCommas depthAfter (quotes.step c) depth (part ++ [c]) rest

def splitCsv (input : Text) : List Text :=
  splitCommas (fun depth c => if c = '{' then depth + 1 else if c = '}' then depth - 1 else depth)
    .outside 0 [] input

def splitTomlArray (input : Text) : List Text :=
  splitCommas (fun depth c =>
    if c = '[' then depth + 1 else if c = ']' ∧ 0 < depth then depth - 1 else depth)
    .outside 0 [] input

/-- The texts that `append_toml_string_list_value` appends. -/
def tomlStringList (value : Text) : List Text :=
  let t := trimCopy value
  let parts :=
    if t.head? = some '[' ∧ t.getLast? = some ']' then splitTomlArray t.tail.dropLast else [t]
  (parts.map unquote).filter (· ≠ [])

/-- What stands between the first `{` of a line and its last `}`. -/
def betweenBraces (line : Text) : Option Text :=
  let behind := (line.dropWhile (· ≠ '{')).tail
  if '}' ∈ behind then some (behind.rdropWhile (· ≠ '}')).dropLast else none

def parseInlineTable (line : Text) : Table Text Text :=
  (splitCsv ((betweenBraces line).getD [])).foldl (fun kv part =>
    if '=' ∈ part then
      insert (fun a b => a < b) kv (trimCopy (part.takeWhile (· ≠ '=')))
        (unquote (part.dropWhile (· ≠ '=')).tail)
    else kv) []

end Mlang.TomlText
