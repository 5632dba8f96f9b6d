import Mlang.LexicalPaths
import Mlang.LockFiles
import Mlang.VersionOrder

namespace Mlang.RegistryIndex

open BracketedText (Text)
open TomlText LockFiles DependencyLocks SemanticVersions
open BuildCommands (isAbsolute)

structure RegistryVersionEntry where
  version : Text := []
  archive : Text := []
  checksum : Text := []
  signature : Text := []
  yanked : Text := []
  deriving DecidableEq

def safeRegistryReference (reference : Text) : Bool :=
  "://".toList <:+: reference ∨
    (isAbsolute reference = false ∧
      "..".toList ∉ (LexicalPaths.normalNames false [] false (reference.splitOn '/')).1)

def incompleteEntry (entry : RegistryVersionEntry) : Bool :=
  !isCompleteSemanticVersion entry.version || entry.archive = [] || entry.checksum = [] ||
    !safeRegistryReference entry.archive ||
    (entry.signature ≠ [] && !safeRegistryReference entry.signature)

structure IndexReader where
  entries : List RegistryVersionEntry := []
  current : Option RegistryVersionEntry := none
  header : Text := []
  protocolOk : Bool := false
  packageName : Text := []
  deriving DecidableEq

def flush (reader : IndexReader) : IndexReader :=
  { reader with entries := reader.entries ++ reader.current.toList, current := none }

def assignEntry (entry : RegistryVersionEntry) (key value : Text) : RegistryVersionEntry :=
  if key = "version".toList then { entry with version := value }
  else if key = "archive".toList then { entry with archive := value }
  else if key = "checksum".toList then
    { entry with checksum := if "sha256:".toList <+: value then value.drop 7 else value }
  else if key = "signature".toList then { entry with signature := value }
  else if key = "yanked".toList then { entry with yanked := value }
  else entry

def assign (reader : IndexReader) (assignment : ParsedTomlAssignment) : IndexReader :=
  let value := unquote assignment.value
  if reader.header = [] ∧ assignment.key = "protocol".toList then
    { reader with protocolOk := value = "1".toList }
  else if reader.header = [] ∧ assignment.key = "name".toList then { reader with packageName := value }
  else if reader.header = "version".toList then
    { reader with current := reader.current.map fun entry => assignEntry entry assignment.key value }
  else reader

def readLine (reader : IndexReader) (line : Text) (lines : List Text) : IndexReader × Nat :=
  let text := stripTomlComment line
  if text = [] then (reader, 0)
  else if text = "[[version]]".toList then
    ({ flush reader with current := some {}, header := "version".toList }, 0)
  else if text.head? = some '[' ∧ text.getLast? = some ']' then
    ({ flush reader with header := text.tail.dropLast }, 0)
  else
    let parsed := parseTomlAssignment text lines
    ((parsed.1.map fun assignment => assign reader assignment).getD reader, parsed.2)

def readLines : Nat → List Text → IndexReader → IndexReader
  | _, [], reader => reader
  | collected + 1, _ :: lines, reader => readLines collected lines reader
  | 0, line :: lines, reader =>
    let result := readLine reader line lines
    readLines result.2 lines result.1

structure ParsedIndex where
  entries : List RegistryVersionEntry
  packageName : Text
  error : Text
  deriving DecidableEq

def parseRegistryIndex (content : Text) : ParsedIndex :=
  let reader := flush (readLines 0 (textLines content) {})
  { entries := reader.entries
    packageName := reader.packageName
    error :=
      if reader.entries.any incompleteEntry then
        "Registry index contains an incomplete version entry".toList
      else if reader.protocolOk then []
      else "Unsupported or missing registry protocol version".toList }

/-- The entries that an index lists for a package. -/
def indexedEntries (name : Text) (existing : Option Text) : Except Text (List RegistryVersionEntry) :=
  match existing with
  | none => .ok []
  | some content =>
    let index := parseRegistryIndex content
    if index.error ≠ [] then .error index.error
    else if index.packageName ≠ [] ∧ index.packageName ≠ name then
      .error "Registry package name mismatch".toList
    else .ok index.entries

def publishedEntries (name : Text) (published : RegistryVersionEntry) (allowExisting : Bool)
    (existing : Option Text) : Except Text (List RegistryVersionEntry) :=
  if name = [] ∨ isCompleteSemanticVersion published.version = false then
    .error
      "Publishing requires [package].name and a complete semantic [package].version".toList
  else
    (indexedEntries name existing).bind fun entries =>
      if (entries.any fun entry => entry.version = published.version) ∧ allowExisting = false then
        .error ("Registry already contains ".toList ++ name ++ " v".toList ++ published.version ++
          "; use --allow-existing to replace it".toList)
      else .ok ((entries.filter fun entry => entry.version ≠ published.version) ++ [published])

def entryLess (lhs rhs : RegistryVersionEntry) : Bool :=
  match parseSemanticVersion lhs.version, parseSemanticVersion rhs.version with
  | some a, some b => compareSemanticVersions a b = .lt
  | _, _ => textBefore lhs.version rhs.version

/-- What `std::sort` makes of a list. -/
structure SortedEntries (entries written : List RegistryVersionEntry) : Prop where
  perm : written.Perm entries
  ordered : written.Pairwise fun lhs rhs => entryLess rhs lhs = false

def entryLines (entry : RegistryVersionEntry) : List Text :=
  [[], "[[version]]".toList, quotedLine "version" entry.version, quotedLine "archive" entry.archive,
    quotedLine "checksum" ("sha256:".toList ++ entry.checksum)] ++
  optionalLine "signature" entry.signature ++
  (if entry.yanked = [] then [] else ["yanked = ".toList ++ entry.yanked])

def indexText (name : Text) (written : List RegistryVersionEntry) : Text :=
  (["protocol = 1".toList, quotedLine "name" name] ++ written.flatMap entryLines).flatMap (· ++ ['\n'])

end Mlang.RegistryIndex
