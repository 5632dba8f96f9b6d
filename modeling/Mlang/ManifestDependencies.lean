import Mlang.DependencyLocks
import Mlang.TomlText

namespace Mlang.ManifestDependencies

open BracketedText (Text trimCopy)
open OrderedTables DependencyLocks TomlText

def sectionHeader (t : Text) : Option Text :=
  if t.head? = some '[' ∧ t.getLast? = some ']' then some t.tail.dropLast else none

def hasSection (content wanted : Text) : Bool :=
  (textLines content).any fun line => stripTomlComment line = '[' :: wanted ++ [']']

/-- The value of the first line with the key in the section; `current` is the section so far. -/
def findInLines (wanted key : Text) : Text → List Text → Option Text
  | _, [] => none
  | current, line :: lines =>
    let t := stripTomlComment line
    match sectionHeader t with
    | some header => findInLines wanted key header lines
    | none =>
      if current = wanted ∧ '=' ∈ t ∧ trimCopy (t.takeWhile (· ≠ '=')) = key then
        some (unquote (trimCopy (t.dropWhile (· ≠ '=')).tail))
      else findInLines wanted key current lines

def findSectionTomlString (content wanted key : Text) : Option Text :=
  findInLines wanted key [] (textLines content)

structure SectionAssignment where
  header : Text
  line : Text
  assignment : ParsedTomlAssignment
  deriving DecidableEq

/-- The assignments in the sections that are wanted. -/
def assignmentsIn (wanted : Text → Bool) : Nat → Text → List Text → List SectionAssignment
  | _, _, [] => []
  | collected + 1, current, _ :: lines => assignmentsIn wanted collected current lines
  | 0, current, line :: lines =>
    let t := stripTomlComment line
    if t = [] then assignmentsIn wanted 0 current lines
    else
      match sectionHeader t with
      | some header => assignmentsIn wanted 0 header lines
      | none =>
        if wanted current then
          let parsed := parseTomlAssignment t lines
          (parsed.1.map fun assignment => ⟨current, t, assignment⟩).toList ++
            assignmentsIn wanted parsed.2 current lines
        else assignmentsIn wanted 0 current lines

def sectionAssignments (wanted : Text → Bool) (content : Text) : List SectionAssignment :=
  assignmentsIn wanted 0 [] (textLines content)

def archiveTypeOf (url : Text) : Text :=
  if ".tar.gz".toList <:+ url ∨ ".tgz".toList <:+ url then "tar.gz".toList else []

/-- The dependency that an inline table describes; `cDependencies` says in which section. -/
def depSpecOf (cDependencies : Bool) (name : Text) (kv : Table Text Text) : Option DepSpec :=
  let entry := fun key : String => find kv key.toList
  let text := fun key : String => (entry key).getD []
  let flag := fun (key : String) (default : Bool) => ((entry key).map parseTomlBoolValue).getD default
  if cDependencies ∧ entry "git" = none ∧ entry "url" = none ∧ entry "path" = none then none
  else
    some {
      name := name
      git := text "git"
      url := text "url"
      path := text "path"
      versionRequirement := text "version"
      features := ((entry "features").map tomlStringList).getD []
      archiveType := if text "archive" = [] then archiveTypeOf (text "url") else text "archive"
      rev := text "rev"
      tag := text "tag"
      build :=
        if text "build" ≠ [] then text "build"
        else if text "path" = [] then "cmake".toList else "mlang".toList
      subdir := text "subdir"
      stripComponents := ((entry "strip_components").map fun v => parseIntOrDefault v 1).getD 1
      submodules := flag "submodules" false
      optional := flag "optional" false
      defaultFeatures := flag "default_features" true }

def parseSourceDeps (content : Text) : List DepSpec :=
  (sectionAssignments (fun header =>
    header = "dependencies".toList || header = "c-dependencies".toList) content).filterMap
    fun entry =>
      if '{' ∈ entry.line then
        depSpecOf (entry.header = "c-dependencies".toList) entry.assignment.key
          (parseInlineTable entry.line)
      else none

end Mlang.ManifestDependencies
