import Mlang.DependencyLocks
import Mlang.TomlText
import Mlang.TypeText

namespace Mlang.LockFiles

open BracketedText (Text)
open OrderedTables DependencyLocks TomlText

def lockQuote (value : Text) : Text :=
  '"' :: (value.flatMap fun c =>
    (if c = '\\' ∨ c = '"' then ['\\'] else []) ++ (if c = '\n' then ['\\', 'n'] else [c])) ++ ['"']

def quotedLine (key : String) (value : Text) : Text := key.toList ++ " = ".toList ++ lockQuote value

def optionalLine (key : String) (value : Text) : List Text :=
  if value = [] then [] else [quotedLine key value]

def entryLines (entry : DependencyLockEntry) : List Text :=
  [[], "[[package]]".toList, quotedLine "manifest" entry.manifest, quotedLine "name" entry.name,
    quotedLine "source" entry.source] ++
  optionalLine "url" entry.url ++
  optionalLine "path" entry.path ++
  optionalLine "requirement" entry.versionRequirement ++
  optionalLine "resolved_version" entry.resolvedVersion ++
  optionalLine "features" entry.requestedFeatures ++
  optionalLine "requested_rev" entry.requestedRev ++
  optionalLine "requested_tag" entry.requestedTag ++
  optionalLine "revision" entry.revision ++
  (if entry.checksum = [] then []
    else [quotedLine "checksum" ("sha256:".toList ++ entry.checksum)]) ++
  optionalLine "archive" entry.archiveType ++
  optionalLine "subdir" entry.subdir ++
  (if entry.stripComponents = 1 then []
    else ["strip_components = ".toList ++ TypeText.intText entry.stripComponents]) ++
  (if entry.submodules then ["submodules = true".toList] else []) ++
  (if entry.optional then ["optional = true".toList] else []) ++
  (if entry.defaultFeatures then [] else ["default_features = false".toList])

def headerLines : List Text :=
  ["# Generated by mlang pkg. Do not edit manually.".toList, "version = 1".toList]

def writeDependencyLock (entries : Lock) : Text :=
  (headerLines ++ entries.flatMap fun e => entryLines e.2).flatMap (· ++ ['\n'])

structure Reader where
  entries : Lock
  current : Option DependencyLockEntry
  versionSeen : Bool
  deriving DecidableEq

def incomplete (entry : DependencyLockEntry) : Bool :=
  entry.manifest = [] || entry.name = [] || entry.source = [] ||
    (entry.source ≠ "path".toList && entry.url = []) ||
    (entry.source = "path".toList && entry.path = [])

variable (path : Text)

def flush (reader : Reader) : Except Text Reader :=
  match reader.current with
  | none => .ok reader
  | some current =>
    if incomplete current then .error ("Invalid incomplete package entry in ".toList ++ path)
    else
      let key := dependencyLockKey current.manifest current.name
      if (find reader.entries key).isSome then
        .error ("Duplicate dependency '".toList ++ current.name ++ "' for ".toList ++
          current.manifest ++ " in ".toList ++ path)
      else
        .ok { reader with entries := insert textBefore reader.entries key current, current := none }

def assignField (entry : DependencyLockEntry) (key value : Text) : DependencyLockEntry :=
  if key = "manifest".toList then { entry with manifest := value }
  else if key = "name".toList then { entry with name := value }
  else if key = "source".toList then { entry with source := value }
  else if key = "url".toList then { entry with url := value }
  else if key = "path".toList then { entry with path := value }
  else if key = "requirement".toList then { entry with versionRequirement := value }
  else if key = "resolved_version".toList then { entry with resolvedVersion := value }
  else if key = "features".toList then { entry with requestedFeatures := value }
  else if key = "requested_rev".toList then { entry with requestedRev := value }
  else if key = "requested_tag".toList then { entry with requestedTag := value }
  else if key = "revision".toList then { entry with revision := value }
  else if key = "checksum".toList then
    { entry with checksum := if "sha256:".toList <+: value then value.drop 7 else value }
  else if key = "archive".toList then { entry with archiveType := value }
  else if key = "subdir".toList then { entry with subdir := value }
  else if key = "strip_components".toList then
    { entry with stripComponents := parseIntOrDefault value 1 }
  else if key = "submodules".toList then { entry with submodules := parseTomlBoolValue value }
  else if key = "optional".toList then { entry with optional := parseTomlBoolValue value }
  else if key = "default_features".toList then
    { entry with defaultFeatures := parseTomlBoolValue value }
  else entry

def assign (reader : Reader) (assignment : ParsedTomlAssignment) : Except Text Reader :=
  match reader.current with
  | none =>
    if assignment.key = "version".toList then
      if unquote assignment.value ≠ "1".toList then
        .error ("Unsupported mlang.lock version in ".toList ++ path)
      else .ok { reader with versionSeen := true }
    else .ok reader
  | some current =>
    .ok { reader with
      current := some (assignField current assignment.key (unquote assignment.value)) }

def readLine (reader : Reader) (line : Text) (lines : List Text) : Except Text (Reader × Nat) :=
  let text := stripTomlComment line
  if text = [] then .ok (reader, 0)
  else if text = "[[package]]".toList then
    (flush path reader).map fun reader => ({ reader with current := some {} }, 0)
  else if text.head? = some '[' ∧ text.getLast? = some ']' then
    .error ("Unsupported section in ".toList ++ path ++ ": ".toList ++ text)
  else
    match parseTomlAssignment text lines with
    | (none, collected) => .ok (reader, collected)
    | (some assignment, collected) =>
      (assign path reader assignment).map fun reader => (reader, collected)

def readLines : Nat → List Text → Reader → Except Text Reader
  | _, [], reader => .ok reader
  | collected + 1, _ :: lines, reader => readLines collected lines reader
  | 0, line :: lines, reader =>
    (readLine path reader line lines).bind fun result => readLines result.2 lines result.1

def readDependencyLock (text : Text) : Except Text Lock :=
  (readLines path 0 (textLines text) ⟨[], none, false⟩).bind fun reader =>
    (flush path reader).bind fun reader =>
      if reader.versionSeen then .ok reader.entries
      else .error ("Missing lockfile version in ".toList ++ path)

end Mlang.LockFiles
