import Mlang.SignatureKeys

namespace Mlang.ModuleLoader

open Mangling SignatureKeys List

abbrev NodeId := Nat

/-- `declaredIn` stands for nothing in the code. -/
structure FunctionDefNode where
  signature : Signature
  isPublic : Bool
  sourceModule : Name
  declaredIn : Name

structure DefinitionNode where
  name : Name
  isPublic : Bool
  sourceModule : Name
  declaredIn : Name

structure UseDeclNode where
  moduleName : Name
  itemName : Name
  aliasName : Name
  importAll : Bool
  moduleAlias : Bool

structure ProgramNode where
  functionList : List NodeId
  structList : List NodeId
  enumList : List NodeId
  traitDefs : List NodeId
  conceptDefs : List NodeId
  typeAliases : List Name
  modules : List Name
  imports : List UseDeclNode

structure ParsedFile where
  functions : List (Signature × Bool)
  structs : List (Name × Bool)
  enums : List (Name × Bool)
  traits : List (Name × Bool)
  concepts : List (Name × Bool)
  typeAliases : List Name
  modules : List Name
  imports : List UseDeclNode

structure Loader where
  functions : NodeId → FunctionDefNode
  nextFunction : NodeId
  definitions : NodeId → DefinitionNode
  nextDefinition : NodeId
  modules : List (Name × ProgramNode)

/-- A loader that imports into a program. `merged` lists the modules whose symbols have been
merged into the program. -/
structure Importer extends Loader where
  program : ProgramNode
  moduleAliases : List (Name × Name)
  merged : List Name

inductive ModuleError
  | circularImport (moduleName : Name)
  | moduleNotFound (moduleName : Name)
  | moduleNotLoaded (moduleName : Name)
  | ambiguousLiteralOperator (suffix input : Name)
  | privateItem (itemName moduleName : Name)
  | itemNotFound (itemName moduleName : Name)
  | cannotAlias (itemName moduleName : Name)
  | foreignStruct (moduleName : Name)
  | outOfFuel
  deriving DecidableEq

def getModule (l : Loader) (moduleName : Name) : Option ProgramNode := l.modules.lookup moduleName

theorem mem_of_getModule {l : Loader} {moduleName : Name} {m : ProgramNode}
    (h : getModule l moduleName = some m) : (moduleName, m) ∈ l.modules := by
  obtain ⟨before, after, hmodules, -⟩ := List.lookup_eq_some_iff.1 h
  rw [hmodules]
  exact mem_append_right _ mem_cons_self

def tagFunction (moduleName : Name) (id : NodeId) (l : Loader) : Loader :=
  if (l.functions id).sourceModule = [] then
    { l with
      functions :=
        Function.update l.functions id { l.functions id with sourceModule := moduleName } }
  else l

def tagDefinition (moduleName : Name) (id : NodeId) (l : Loader) : Loader :=
  if (l.definitions id).sourceModule = [] then
    { l with
      definitions :=
        Function.update l.definitions id { l.definitions id with sourceModule := moduleName } }
  else l

def tagStruct (moduleName : Name) (id : NodeId) (l : Loader) : Loader :=
  { l with
    definitions :=
      Function.update l.definitions id { l.definitions id with sourceModule := moduleName } }

/-- A name up to its first `::`, and the rest from there. -/
def splitHead : Name → Name × Name
  | [] => ([], [])
  | c :: cs =>
    if c = ':' ∧ cs.head? = some ':' then ([], c :: cs)
    else (c :: (splitHead cs).1, (splitHead cs).2)

def resolveModuleAlias (moduleAliases : List (Name × Name)) (rawModule : Name) : Name :=
  match moduleAliases.lookup (splitHead rawModule).1 with
  | none => rawModule
  | some moduleName => moduleName ++ (splitHead rawModule).2

def qualified (n n' : Name) : Name := n ++ ':' :: ':' :: n'

def isSameModuleFamily (a b : Name) : Bool :=
  if a = [] ∨ b = [] then a = b
  else a = b || (qualified a []).isPrefixOf b || (qualified b []).isPrefixOf a

def splitLast (text : Name) : Name → Option (Name × Name)
  | [] => none
  | c :: cs =>
    match splitLast text cs with
    | some (before, rest) => some (c :: before, rest)
    | none => if text.isPrefixOf (c :: cs) then some ([], (c :: cs).drop text.length) else none

def decodeOperatorName (name : Name) : Option (Name × Name) :=
  match splitLast "__mlang_literal$".toList name with
  | none => none
  | some (before, rest) =>
    if before = [] ∨ [':', ':'].isSuffixOf before then
      if '$' ∈ rest then some ((rest.dropWhile (· ≠ '$')).tail, rest.takeWhile (· ≠ '$')) else none
    else none

namespace Importer

def signatureKey (s : Importer) (id : NodeId) : Name := functionSignatureKey (s.functions id).signature

def setFunctions (s : Importer) (ids : List NodeId) : Importer :=
  { s with program := { s.program with functionList := ids } }

def findDuplicate (s : Importer) (id : NodeId) : Option NodeId :=
  s.program.functionList.find? (fun existing => s.signatureKey existing = s.signatureKey id)

theorem replace_of_mem {ids : List NodeId} {existing : NodeId} (h : existing ∈ ids) (id : NodeId) :
    ∃ before after, ids = before ++ existing :: after ∧
      ids.replace existing id = before ++ id :: after := by
  obtain ⟨before, after, hids, hbefore⟩ := eq_append_cons_of_mem h
  refine ⟨before, after, hids, ?_⟩
  rw [hids, replace_append_right hbefore, replace_cons_self]

def copyFunction (moduleName name : Name) (id : NodeId) (l : Loader) : Loader :=
  tagFunction moduleName l.nextFunction
    { l with
      functions := Function.update l.functions l.nextFunction
        { l.functions id with signature := { (l.functions id).signature with name := name } }
      nextFunction := l.nextFunction + 1 }

def addFunctionAlias (moduleName name : Name) (id : NodeId) (s : Importer) : Importer :=
  let s' : Importer := { s with toLoader := copyFunction moduleName name id s.toLoader }
  match s'.findDuplicate s.nextFunction with
  | some _ => s'
  | none => s'.setFunctions (s'.program.functionList ++ [s.nextFunction])

def addConcept (id : NodeId) (s : Importer) : Importer :=
  { s with program := { s.program with conceptDefs := s.program.conceptDefs ++ [id] } }

def addConceptAlias (name : Name) (id : NodeId) (s : Importer) : Importer :=
  addConcept s.nextDefinition
    { s with
      definitions := Function.update s.definitions s.nextDefinition
        { s.definitions id with name := name }
      nextDefinition := s.nextDefinition + 1 }

def each (f : NodeId → Importer → Importer) : List NodeId → Importer → Importer
  | [], s => s
  | id :: ids, s => each f ids (f id s)

def bindModuleAlias (targetModuleName aliasName : Name) (s : Importer) :
    Except ModuleError Importer :=
  match getModule s.toLoader targetModuleName with
  | none => .error (.moduleNotLoaded targetModuleName)
  | some aliasedModule =>
    let s₁ : Importer := { s with moduleAliases := (aliasName, targetModuleName) :: s.moduleAliases }
    let s₂ := each (fun id s =>
        if (s.functions id).signature.name = [] then s
        else addFunctionAlias targetModuleName
          (qualified aliasName (s.functions id).signature.name) id s)
      aliasedModule.functionList s₁
    .ok (each (fun id s =>
        if s.program.conceptDefs.any
          (fun item => (s.definitions item).name = qualified aliasName (s.definitions id).name) then s
        else addConceptAlias (qualified aliasName (s.definitions id).name) id s)
      aliasedModule.conceptDefs s₂)

def ambiguousOperator (s : Importer) (existing id : NodeId) : Option (Name × Name) :=
  if existing ≠ id ∧ (s.functions existing).sourceModule ≠ (s.functions id).sourceModule ∧
      ((s.functions existing).sourceModule = [] ∨ (s.functions existing).isPublic) ∧
      ((s.functions id).sourceModule = [] ∨ (s.functions id).isPublic) then
    decodeOperatorName (s.functions id).signature.name
  else none

def importFunction (moduleName : Name) (id : NodeId) (s : Importer) : Except ModuleError Importer :=
  let s' : Importer := { s with toLoader := tagFunction moduleName id s.toLoader }
  match s'.findDuplicate id with
  | none => .ok (s'.setFunctions (s'.program.functionList ++ [id]))
  | some existing =>
    match s'.ambiguousOperator existing id with
    | some (suffix, input) => .error (.ambiguousLiteralOperator suffix input)
    | none =>
      if !(s'.functions existing).isPublic && (s'.functions id).isPublic then
        .ok (s'.setFunctions (s'.program.functionList.replace existing id))
      else .ok s'

def importFunctions (moduleName : Name) : List NodeId → Importer → Except ModuleError Importer
  | [], s => .ok s
  | id :: ids, s =>
    match importFunction moduleName id s with
    | .error e => .error e
    | .ok s' => importFunctions moduleName ids s'

def hasName (s : Importer) (ids : List NodeId) (id : NodeId) : Bool :=
  ids.any (fun existing => (s.definitions existing).name = (s.definitions id).name)

def importStruct (moduleName : Name) (id : NodeId) (s : Importer) : Importer :=
  let s' : Importer := { s with toLoader := tagStruct moduleName id s.toLoader }
  if s'.hasName s'.program.structList id then s'
  else { s' with program := { s'.program with structList := s'.program.structList ++ [id] } }

def importEnum (moduleName : Name) (id : NodeId) (s : Importer) : Importer :=
  let s' : Importer := { s with toLoader := tagDefinition moduleName id s.toLoader }
  if s'.hasName s'.program.enumList id then s'
  else { s' with program := { s'.program with enumList := s'.program.enumList ++ [id] } }

def importConcept (id : NodeId) (s : Importer) : Importer :=
  if id ∈ s.program.conceptDefs then s else addConcept id s

def importTrait (id : NodeId) (s : Importer) : Importer :=
  if s.hasName s.program.traitDefs id then s
  else { s with program := { s.program with traitDefs := s.program.traitDefs ++ [id] } }

def importTypeAliases (aliases : List Name) (s : Importer) : Importer :=
  { s with
    program := { s.program with
      typeAliases := aliases.foldl (fun as a => if a ∈ as then as else as ++ [a])
        s.program.typeAliases } }

def importModule (moduleName : Name) (m : ProgramNode) (s : Importer) : Except ModuleError Importer :=
  match importFunctions moduleName m.functionList s with
  | .error e => .error e
  | .ok s₁ =>
    let s₂ := each (importEnum moduleName) m.enumList (each (importStruct moduleName) m.structList s₁)
    let s₃ := each importConcept m.conceptDefs (importTypeAliases m.typeAliases s₂)
    let s₄ := each importTrait m.traitDefs s₃
    .ok { s₄ with merged := moduleName :: s₄.merged }

def named (s : Importer) (ids : List NodeId) (name : Name) : Option DefinitionNode :=
  (ids.map s.definitions).find? (fun d => d.name = name)

def checkItem (currentModuleName moduleName itemName : Name) (m : ProgramNode) (s : Importer) :
    Except ModuleError Unit :=
  let family := isSameModuleFamily currentModuleName moduleName
  let found := m.functionList.filter (fun id => (s.functions id).signature.name = itemName)
  if found ≠ [] then
    if found.any (fun id => (s.functions id).isPublic) || family then .ok ()
    else .error (.privateItem itemName moduleName)
  else
    match s.named m.structList itemName with
    | some d => if d.isPublic || family then .ok () else .error (.privateItem itemName moduleName)
    | none =>
      if itemName ∈ m.typeAliases then .ok ()
      else
        match s.named m.enumList itemName with
        | some d =>
          if d.isPublic || family then .ok () else .error (.privateItem itemName moduleName)
        | none =>
          match s.named m.conceptDefs itemName with
          | some d => if d.isPublic then .ok () else .error (.privateItem itemName moduleName)
          | none =>
            if (s.named m.traitDefs itemName).isSome then .ok ()
            else .error (.itemNotFound itemName moduleName)

def addTypeAlias (aliasName : Name) (s : Importer) : Importer :=
  if aliasName ∈ s.program.typeAliases then s
  else
    { s with program := { s.program with typeAliases := s.program.typeAliases ++ [aliasName] } }

def bindItemAlias (moduleName itemName aliasName : Name) (m : ProgramNode) (s : Importer) :
    Except ModuleError Importer :=
  let concepts := m.conceptDefs.filter (fun id => (s.definitions id).name = itemName)
  let functions := m.functionList.filter (fun id => (s.functions id).signature.name = itemName)
  let s₁ := each (addConceptAlias aliasName) (concepts.take 1) s
  let s₂ := each (addFunctionAlias moduleName aliasName) functions s₁
  if concepts ≠ [] ∨ functions ≠ [] then .ok s₂
  else if (s.named m.structList itemName).isSome ∨ (s.named m.enumList itemName).isSome then
    .ok (addTypeAlias aliasName s₂)
  else .error (.cannotAlias itemName moduleName)

/-- With `tracked`, no module is used whose structs are not all its own. -/
def importUse (tracked : Bool) (currentModuleName : Name) (useDecl : UseDeclNode)
    (skipSpecificImportCheck : Bool) (moduleName : Name) (s : Importer) :
    Except ModuleError Importer :=
  match getModule s.toLoader moduleName with
  | none => .error (.moduleNotLoaded moduleName)
  | some m =>
    if tracked && m.structList.any (fun id => (s.definitions id).declaredIn ≠ moduleName) then
      .error (.foreignStruct moduleName)
    else
      match importModule moduleName m s with
      | .error e => .error e
      | .ok s' =>
        if useDecl.importAll || skipSpecificImportCheck then .ok s'
        else
          match checkItem currentModuleName moduleName useDecl.itemName m s' with
          | .error e => .error e
          | .ok () =>
            if useDecl.aliasName = [] then .ok s'
            else bindItemAlias moduleName useDecl.itemName useDecl.aliasName m s'

/-- `use a::b as x` is parsed as an alias of the item `b`, and means the module `a::b` where that
is loaded and `a` is not. -/
def processUse (tracked : Bool) (currentModuleName : Name) (useDecl : UseDeclNode) (s : Importer) :
    Except ModuleError Importer :=
  let moduleName := resolveModuleAlias s.moduleAliases useDecl.moduleName
  if useDecl.moduleAlias then
    match bindModuleAlias moduleName useDecl.aliasName s with
    | .error e => .error e
    | .ok s' => importUse tracked currentModuleName useDecl true moduleName s'
  else
    let combinedModuleName :=
      resolveModuleAlias s.moduleAliases (qualified useDecl.moduleName useDecl.itemName)
    if !useDecl.importAll ∧ useDecl.aliasName ≠ [] ∧ (getModule s.toLoader moduleName).isNone ∧
        (getModule s.toLoader combinedModuleName).isSome then
      match bindModuleAlias combinedModuleName useDecl.aliasName s with
      | .error e => .error e
      | .ok s' => importUse tracked currentModuleName useDecl true combinedModuleName s'
    else importUse tracked currentModuleName useDecl false moduleName s

def processUses (tracked : Bool) (currentModuleName : Name) :
    List UseDeclNode → Importer → Except ModuleError Importer
  | [], s => .ok s
  | useDecl :: useDecls, s =>
    match processUse tracked currentModuleName useDecl s with
    | .error e => .error e
    | .ok s' => processUses tracked currentModuleName useDecls s'

end Importer

def processUseDeclarations (tracked : Bool) (program : ProgramNode) (currentModuleName : Name)
    (l : Loader) : Except ModuleError Importer :=
  Importer.processUses tracked currentModuleName program.imports ⟨l, program, [], []⟩

def addNodes {α : Type} (add : α → Loader → NodeId × Loader) :
    List α → Loader → List NodeId × Loader
  | [], l => ([], l)
  | a :: as, l => ((add a l).1 :: (addNodes add as (add a l).2).1, (addNodes add as (add a l).2).2)

def addFunction (moduleName : Name) (f : Signature × Bool) (l : Loader) : NodeId × Loader :=
  (l.nextFunction,
    { l with
      functions := Function.update l.functions l.nextFunction ⟨f.1, f.2, [], moduleName⟩
      nextFunction := l.nextFunction + 1 })

def addDefinition (moduleName : Name) (d : Name × Bool) (l : Loader) : NodeId × Loader :=
  (l.nextDefinition,
    { l with
      definitions := Function.update l.definitions l.nextDefinition ⟨d.1, d.2, [], moduleName⟩
      nextDefinition := l.nextDefinition + 1 })

def parseFile (moduleName : Name) (file : ParsedFile) (l : Loader) : ProgramNode × Loader :=
  let functions := addNodes (addFunction moduleName) file.functions l
  let structs := addNodes (addDefinition moduleName) file.structs functions.2
  let enums := addNodes (addDefinition moduleName) file.enums structs.2
  let traits := addNodes (addDefinition moduleName) file.traits enums.2
  let concepts := addNodes (addDefinition moduleName) file.concepts traits.2
  (⟨functions.1, structs.1, enums.1, traits.1, concepts.1, file.typeAliases, file.modules,
    file.imports⟩, concepts.2)

def tagEach (tag : NodeId → Loader → Loader) : List NodeId → Loader → Loader
  | [], l => l
  | id :: ids, l => tagEach tag ids (tag id l)

def tagProgram (moduleName : Name) (p : ProgramNode) (l : Loader) : Loader :=
  tagEach (tagDefinition moduleName) p.conceptDefs
    (tagEach (tagDefinition moduleName) p.traitDefs (tagEach (tagDefinition moduleName) p.enumList
        (tagEach (tagDefinition moduleName) p.structList
          (tagEach (tagFunction moduleName) p.functionList l))))

def processModDeclarations (load : Name → Loader → Except ModuleError Loader) :
    List Name → Loader → Except ModuleError Loader
  | [], l => .ok l
  | moduleName :: moduleNames, l =>
    match load moduleName l with
    | .error e => .error e
    | .ok l' => processModDeclarations load moduleNames l'

/-- `files` are the modules that are found and can be parsed. Every nested load puts another of
them on the stack, so that `fuel` is never used up where it exceeds their number. -/
def loadModule (tracked : Bool) (files : List (Name × ParsedFile)) :
    Nat → List Name → Name → Loader → Except ModuleError Loader
  | fuel, loadingStack, moduleName, l =>
    if (getModule l moduleName).isSome then .ok l
    else if moduleName ∈ loadingStack then .error (.circularImport moduleName)
    else
      match files.lookup moduleName, fuel with
      | none, _ => .error (.moduleNotFound moduleName)
      | some _, 0 => .error .outOfFuel
      | some file, fuel + 1 =>
        let parsed := parseFile moduleName file l
        match processModDeclarations
            (loadModule tracked files fuel (moduleName :: loadingStack)) parsed.1.modules
            (tagProgram moduleName parsed.1 parsed.2) with
        | .error e => .error e
        | .ok l' =>
          match processUseDeclarations tracked parsed.1 moduleName l' with
          | .error e => .error e
          | .ok s => .ok { s.toLoader with modules := (moduleName, s.program) :: s.modules }

def emptyLoader : Loader :=
  ⟨fun _ => ⟨⟨[], [], false, []⟩, false, [], []⟩, 0, fun _ => ⟨[], false, [], []⟩, 0, []⟩

def loadProgram (tracked : Bool) (files : List (Name × ParsedFile)) (main : ParsedFile) :
    Except ModuleError Importer :=
  let parsed := parseFile [] main emptyLoader
  if parsed.1.modules = [] then .ok ⟨parsed.2, parsed.1, [], []⟩
  else
    match processModDeclarations (loadModule tracked files (files.length + 1) []) parsed.1.modules
        parsed.2 with
    | .error e => .error e
    | .ok l => processUseDeclarations tracked parsed.1 [] l

end Mlang.ModuleLoader
