import Mlang.TypeText

namespace Mlang.SemanticVersions

open BracketedText (Text isSpace trimCopy)
open TypeText (intText)

structure SemanticVersion where
  major : Int
  minor : Int
  patch : Int
  prerelease : List Text
  deriving DecidableEq

def intMax : Int := 2 ^ 31 - 1

/-- `++` on an `int`. -/
def increment (n : Int) : Int := if n = intMax then -intMax - 1 else n + 1

def allDigits (part : Text) : Bool := part.all Char.isDigit

def leadingZero (part : Text) : Bool := 1 < part.length && part.head? = some '0'

/-- A numeric component, as `std::stoi` reads it. -/
def parseNumber (part : Text) : Option Int :=
  if part ≠ [] ∧ allDigits part = true ∧ leadingZero part = false ∧
      (Nat.ofDigitChars 10 part 0 : Int) ≤ intMax then
    some (Nat.ofDigitChars 10 part 0)
  else none

def validIdentifier (part : Text) : Bool :=
  part ≠ [] && !(leadingZero part && allDigits part)

def stripMark (text : Text) : Text :=
  match text with
  | 'v' :: rest => rest
  | 'V' :: rest => rest
  | text => text

def prereleaseIdentifiers (prerelease : Text) : List Text :=
  if prerelease = [] then [] else prerelease.splitOn '.'

def parseSemanticVersion (text : Text) : Option SemanticVersion :=
  let text := (stripMark (trimCopy text)).takeWhile (· ≠ '+')
  let prerelease := (text.dropWhile (· ≠ '-')).tail
  if '-' ∈ text ∧ prerelease = [] then none
  else
    match ((text.takeWhile (· ≠ '-')).splitOn '.').mapM parseNumber with
    | none => none
    | some numbers =>
      let identifiers := prereleaseIdentifiers prerelease
      if numbers = [] ∨ 3 < numbers.length then none
      else if identifiers.all validIdentifier then
        some ⟨numbers.getD 0 0, numbers.getD 1 0, numbers.getD 2 0, identifiers⟩
      else none

def isCompleteSemanticVersion (text : Text) : Bool :=
  let core := (stripMark (trimCopy text)).takeWhile fun c => c ≠ '-' && c ≠ '+'
  core.count '.' = 2 && (parseSemanticVersion text).isSome

def normalizedNumber (part : Text) : Text :=
  if part.dropWhile (· = '0') = [] then ['0'] else part.dropWhile (· = '0')

def compareIdentifiers (lhs rhs : Text) : Ordering :=
  if allDigits lhs && allDigits rhs then
    let a := normalizedNumber lhs
    let b := normalizedNumber rhs
    if a.length ≠ b.length then (if a.length < b.length then .lt else .gt)
    else if a < b then .lt else .gt
  else if allDigits lhs ≠ allDigits rhs then (if allDigits lhs then .lt else .gt)
  else if lhs < rhs then .lt else .gt

def comparePrereleases : List Text → List Text → Ordering
  | a :: lhs, b :: rhs => if a = b then comparePrereleases lhs rhs else compareIdentifiers a b
  | lhs, rhs =>
    if lhs.length = rhs.length then .eq else if lhs.length < rhs.length then .lt else .gt

def compareSemanticVersions (lhs rhs : SemanticVersion) : Ordering :=
  if lhs.major ≠ rhs.major then (if lhs.major < rhs.major then .lt else .gt)
  else if lhs.minor ≠ rhs.minor then (if lhs.minor < rhs.minor then .lt else .gt)
  else if lhs.patch ≠ rhs.patch then (if lhs.patch < rhs.patch then .lt else .gt)
  else if lhs.prerelease.isEmpty ≠ rhs.prerelease.isEmpty then
    (if lhs.prerelease.isEmpty then .gt else .lt)
  else comparePrereleases lhs.prerelease rhs.prerelease

inductive Operator
  | atLeast | atMost | above | below | equal | caret | tilde
  deriving DecidableEq

def Operator.text : Operator → Text
  | .atLeast => ">=".toList
  | .atMost => "<=".toList
  | .above => ">".toList
  | .below => "<".toList
  | .equal => "=".toList
  | .caret => "^".toList
  | .tilde => "~".toList

def splitOperator (requirement : Text) : Option Operator × Text :=
  match [Operator.atLeast, .atMost, .above, .below, .equal, .caret, .tilde].find?
      fun op => op.text.isPrefixOf requirement with
  | none => (none, requirement)
  | some op => (some op, trimCopy (requirement.drop op.text.length))

def isWildcard (c : Char) : Bool := c = 'x' || c = 'X' || c = '*'

def renderedVersion (version : SemanticVersion) : Text :=
  intText version.major ++ '.' :: intText version.minor ++ '.' :: intText version.patch

def caretBound (wanted : SemanticVersion) : SemanticVersion :=
  if 0 < wanted.major then ⟨increment wanted.major, 0, 0, []⟩
  else if 0 < wanted.minor then ⟨wanted.major, increment wanted.minor, 0, []⟩
  else ⟨wanted.major, wanted.minor, increment wanted.patch, []⟩

def tildeBound (wanted : SemanticVersion) : SemanticVersion :=
  ⟨wanted.major, increment wanted.minor, 0, []⟩

def satisfiesOperator (version wanted : SemanticVersion) (requirement : Text) :
    Option Operator → Bool
  | some .atLeast => compareSemanticVersions version wanted ≠ .lt
  | some .atMost => compareSemanticVersions version wanted ≠ .gt
  | some .above => compareSemanticVersions version wanted = .gt
  | some .below => compareSemanticVersions version wanted = .lt
  | some .equal => compareSemanticVersions version wanted = .eq
  | some .caret =>
    compareSemanticVersions version wanted ≠ .lt &&
      compareSemanticVersions version (caretBound wanted) = .lt
  | some .tilde =>
    compareSemanticVersions version wanted ≠ .lt &&
      compareSemanticVersions version (tildeBound wanted) = .lt
  | none =>
    if '-' ∉ requirement ∧ requirement.count '.' = 0 then version.major = wanted.major
    else if '-' ∉ requirement ∧ requirement.count '.' = 1 then
      version.major = wanted.major && version.minor = wanted.minor
    else compareSemanticVersions version wanted = .eq

def semanticVersionSatisfiesOne (version : SemanticVersion) (requirement : Text) : Bool :=
  let requirement := trimCopy requirement
  if requirement = [] ∨ requirement = ['*'] ∨ requirement = ['x'] ∨ requirement = ['X'] then
    version.prerelease.isEmpty
  else if version.prerelease ≠ [] ∧ '-' ∉ requirement then false
  else
    let split := splitOperator requirement
    if split.2.any isWildcard then
      (split.2.takeWhile fun c => !isWildcard c).isPrefixOf (renderedVersion version)
    else
      match parseSemanticVersion split.2 with
      | none => false
      | some wanted => satisfiesOperator version wanted split.2 split.1

/-- A text cut at each `||`. -/
def alternatives : Text → List Text
  | [] => [[]]
  | '|' :: '|' :: rest => [] :: alternatives rest
  | c :: rest => (alternatives rest).modifyHead (c :: ·)

def terms (alternative : Text) : List Text :=
  (((trimCopy alternative).map fun c => if c = ',' then ' ' else c).splitOnP isSpace).filter
    (· ≠ [])

def semanticVersionSatisfies (versionText requirementText : Text) : Bool :=
  match parseSemanticVersion versionText with
  | none => false
  | some version =>
    ((alternatives requirementText).any fun alternative =>
      (terms alternative).all (semanticVersionSatisfiesOne version) && terms alternative ≠ []) ||
    (trimCopy requirementText).isEmpty

end Mlang.SemanticVersions
