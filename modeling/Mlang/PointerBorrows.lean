import Mathlib
import Mlang.OrderedTables
import Mlang.Mangling

namespace Mlang.PointerBorrows

open Mangling (Name)
open OrderedTables

inductive Segment
  | field (name : Name)
  | index (text : Name)
  deriving DecidableEq

structure Place where
  owner : Name
  path : List Segment
  deriving DecidableEq

def Place.whole (name : Name) : Place := ⟨name, []⟩

def Place.extend (place : Place) (path : List Segment) : Place := ⟨place.owner, place.path ++ path⟩

/-- An index that is not known is written `*`. -/
def Segment.overlaps : Segment → Segment → Bool
  | .field a, .field b => a == b
  | .index a, .index b => a == b || a == ['*'] || b == ['*']
  | _, _ => false

def pathsOverlap : List Segment → List Segment → Bool
  | a :: as, b :: bs => a.overlaps b && pathsOverlap as bs
  | _, _ => true

def borrowPlacesOverlap (left right : Place) : Bool :=
  left.owner == right.owner && pathsOverlap left.path right.path

/-- A key of the table of exclusive borrows. -/
inductive BorrowKey
  | place (place : Place)
  | reborrow (pointer : Name) (owner : Place)
  deriving DecidableEq

/-- What is recorded of the borrows that pointers hold. -/
structure BorrowState where
  pointerBorrowTarget : Table Name Place
  pointerBorrowPlace : Table Name Place
  pointerBorrowParent : Table Name Name
  activeBorrowers : List (Place × Name)
  activeMutBorrower : Table BorrowKey Name
  aggregateBorrowPlaces : List (Name × Place × Place)

structure Orders where
  names : Name → Name → Bool
  keys : BorrowKey → BorrowKey → Bool

def Segment.text : Segment → Name
  | .field name => '.' :: name
  | .index text => '[' :: text ++ [']']

def Place.text (place : Place) : Name := place.owner ++ place.path.flatMap Segment.text

def BorrowKey.text : BorrowKey → Name
  | .place p => p.text
  | .reborrow pointer owner =>
    ['@', 'r', 'e', 'b', 'o', 'r', 'r', 'o', 'w', ':'] ++ pointer ++ ':' :: owner.text

def textOrders : Orders := ⟨fun a b => decide (a < b), fun a b => decide (a.text < b.text)⟩

structure Surroundings where
  movedVariables : List Place
  isGlobal : Place → Bool
  scopeDepth : Place → Option Nat
  isConstant : Place → Bool
  enforceExclusive : Name → Place → Bool

variable (σ : BorrowState)

def isMutBorrower (pointer : Name) : Bool :=
  σ.activeMutBorrower.any fun borrow => borrow.2 == pointer

def borrowerPlaceOverlaps (borrower : Name) (owner place : Place) : Bool :=
  if σ.aggregateBorrowPlaces.any fun e => e.1 == borrower then
    σ.aggregateBorrowPlaces.any fun e =>
      e.1 == borrower && e.2.1 == owner && borrowPlacesOverlap e.2.2 place
  else
    match find σ.pointerBorrowTarget borrower with
    | some target =>
      if target ≠ owner then find σ.activeMutBorrower (.place owner) == some borrower
      else borrowPlacesOverlap ((find σ.pointerBorrowPlace borrower).getD owner) place
    | none => borrowPlacesOverlap ((find σ.pointerBorrowPlace borrower).getD owner) place

def findAncestor (parents : Table Name Name) (ancestor : Name) : Nat → List Name → Name → Bool
  | 0, _, _ => false
  | steps + 1, visited, current =>
    if current ∈ visited then false
    else
      match find parents current with
      | none => false
      | some parent =>
        if parent = ancestor then true
        else findAncestor parents ancestor steps (current :: visited) parent

def isPointerBorrowAncestor (ancestor pointer : Name) : Bool :=
  findAncestor σ.pointerBorrowParent ancestor (σ.pointerBorrowParent.length + 1) [] pointer

variable (orders : Orders)

def restoreRootBorrow (pointer : Name) (targets : Table Name Place) (borrows : Table BorrowKey Name)
    (borrow : Name × Place) : Table BorrowKey Name :=
  if borrow.1 = pointer ∨ (find borrows (.place borrow.2)).isSome = true then borrows
  else
    match borrows.find? fun active => find targets active.2 == some borrow.2 with
    | none => borrows
    | some candidate =>
      let restored := insert orders.keys borrows (.place borrow.2) candidate.2
      if candidate.1 ≠ .place borrow.2 then erase restored candidate.1 else restored

def releaseBorrow (σ : BorrowState) (pointer : Name) : BorrowState where
  pointerBorrowTarget := erase σ.pointerBorrowTarget pointer
  pointerBorrowPlace := erase σ.pointerBorrowPlace pointer
  pointerBorrowParent := erase σ.pointerBorrowParent pointer
  activeBorrowers := σ.activeBorrowers.filter fun borrower => decide (borrower.2 ≠ pointer)
  activeMutBorrower := σ.pointerBorrowTarget.foldl
    (restoreRootBorrow orders pointer σ.pointerBorrowTarget)
    (σ.activeMutBorrower.filter fun borrow => decide (borrow.2 ≠ pointer))
  aggregateBorrowPlaces := σ.aggregateBorrowPlaces

/-- A pointer that is itself borrowed is not cleared. -/
def clearRounds : Nat → BorrowState → Name → BorrowState
  | 0, σ, _ => σ
  | rounds + 1, σ, pointer =>
    if σ.pointerBorrowTarget.any fun borrow =>
        borrow.1 != pointer && borrow.2 == Place.whole pointer then σ
    else
      let released := releaseBorrow orders σ pointer
      match find σ.pointerBorrowTarget pointer with
      | none => released
      | some owner =>
        if owner.path = [] ∧ owner.owner ≠ pointer ∧
            (find released.pointerBorrowTarget owner.owner).isSome = true ∧
            (released.pointerBorrowTarget.any fun borrow =>
              borrow.1 != owner.owner && borrow.2 == owner) = false then
          clearRounds rounds released owner.owner
        else released

def clearPointerBorrow (σ : BorrowState) (pointer : Name) : BorrowState :=
  clearRounds orders (σ.pointerBorrowTarget.length + 1) σ pointer

variable (env : Surroundings)

def isReborrowAncestor (σ : BorrowState) (exclusiveReborrowParent : Option Name) (borrower : Name) :
    Bool :=
  match exclusiveReborrowParent with
  | none => false
  | some parent => borrower == parent || isPointerBorrowAncestor σ borrower parent

def canBorrow (pointer : Name) (owner place : Place) : Bool :=
  (env.isGlobal owner || !env.movedVariables.any fun moved => borrowPlacesOverlap place moved) &&
    match env.scopeDepth (.whole pointer), env.scopeDepth owner with
    | some pointerDepth, some ownerDepth => decide (ownerDepth ≤ pointerDepth)
    | _, _ => true

def recordPlace (σ : BorrowState) (pointer : Name) (owner place : Place) : BorrowState :=
  { σ with
    pointerBorrowTarget := insert orders.names σ.pointerBorrowTarget pointer owner
    pointerBorrowPlace := insert orders.names σ.pointerBorrowPlace pointer place }

def hasRootMutableBorrow (σ : BorrowState) (pointer : Name) (owner : Place) : Bool :=
  σ.activeMutBorrower.any fun borrow =>
    borrow.2 != pointer && borrowerPlaceOverlaps σ borrow.2 owner owner

def mutableConflict (σ : BorrowState) (pointer : Name) (owner place : Place)
    (exclusiveReborrowParent : Option Name) : Bool :=
  (σ.activeBorrowers.any fun borrower =>
      borrower.1 == owner && borrowerPlaceOverlaps σ borrower.2 owner place) ||
    σ.activeMutBorrower.any fun borrow =>
      (borrow.2 != pointer && borrowerPlaceOverlaps σ borrow.2 owner owner) &&
        (!isReborrowAncestor σ exclusiveReborrowParent borrow.2 &&
          borrowerPlaceOverlaps σ borrow.2 owner place)

def borrowKey (σ : BorrowState) (pointer : Name) (owner place : Place)
    (exclusiveReborrowParent : Option Name) : BorrowKey :=
  if hasRootMutableBorrow σ pointer owner = false then .place owner
  else
    match exclusiveReborrowParent with
    | some _ => .reborrow pointer owner
    | none => .place place

def sharedConflict (σ : BorrowState) (pointer : Name) (owner place : Place)
    (exclusiveReborrowParent : Option Name) (enforceExclusive : Bool) : Bool :=
  (σ.activeMutBorrower.any fun borrow =>
      !isReborrowAncestor σ exclusiveReborrowParent borrow.2 &&
        borrowerPlaceOverlaps σ borrow.2 owner place) ||
    (enforceExclusive && σ.activeBorrowers.any fun borrower =>
      borrower.1 == owner && (borrower.2 != pointer && borrowerPlaceOverlaps σ borrower.2 owner place))

def addBorrower (borrowers : List (Place × Name)) (owner : Place) (pointer : Name) :
    List (Place × Name) :=
  if (owner, pointer) ∈ borrowers then borrowers else (owner, pointer) :: borrowers

def addPlace (places : List (Name × Place × Place)) (pointer : Name) (owner place : Place) :
    List (Name × Place × Place) :=
  if (pointer, owner, place) ∈ places then places else (pointer, owner, place) :: places

def registerOwnerBorrow (σ : BorrowState) (pointer : Name) (isMutable : Bool)
    (exclusiveReborrowParent : Option Name) (owner place : Place) (enforceExclusive : Bool) :
    Option BorrowState :=
  if canBorrow env pointer owner place = false then none
  else if isMutable then
    if mutableConflict σ pointer owner place exclusiveReborrowParent || env.isConstant owner then none
    else
      some { recordPlace orders σ pointer owner place with
        activeMutBorrower := insert orders.keys σ.activeMutBorrower
          (borrowKey σ pointer owner place exclusiveReborrowParent) pointer }
  else if sharedConflict σ pointer owner place exclusiveReborrowParent enforceExclusive then none
  else
    some { recordPlace orders σ pointer owner place with
      activeBorrowers := addBorrower σ.activeBorrowers owner pointer }

/-- What an address is taken of: a place of a variable, or one behind a pointer. -/
inductive LValue
  | named (name : Name) (path : List Segment)
  | deref (pointer : Name) (path : List Segment)

inductive Source
  | address (isMutable : Bool) (operand : LValue)
  | copy (pointer : Name)

def resolveBorrowOwnerFromLValue (σ : BorrowState) : LValue → Place
  | .named name _ => .whole name
  | .deref pointer _ => (find σ.pointerBorrowTarget pointer).getD (.whole pointer)

def resolveBorrowPlaceFromLValue (σ : BorrowState) : LValue → Place
  | .named name path => ⟨name, path⟩
  | .deref pointer path => ((find σ.pointerBorrowPlace pointer).getD (.whole pointer)).extend path

def reborrowParent (σ : BorrowState) : LValue → Option Name
  | .deref pointer [] =>
    if isMutBorrower σ pointer || σ.activeBorrowers.any (fun borrower => borrower.2 == pointer) then
      some pointer
    else none
  | _ => none

def possibleOwners (σ : BorrowState) (pointer : Name) : List Place :=
  (find σ.pointerBorrowTarget pointer).toList ++
    (σ.activeMutBorrower.filterMap fun borrow =>
      if borrow.2 = pointer then
        match borrow.1 with
        | .place owner => some owner
        | .reborrow holder owner => if holder = pointer then some owner else none
      else none) ++
    σ.activeBorrowers.filterMap fun borrower =>
      if borrower.2 = pointer then some borrower.1 else none

def reborrowedPlaces (σ : BorrowState) (parent : Name) (owner : Place) : List Place :=
  let precise := (σ.aggregateBorrowPlaces.filter fun e => e.1 == parent && e.2.1 == owner).map (·.2.2)
  if precise ≠ [] then precise
  else
    match find σ.pointerBorrowTarget parent, find σ.pointerBorrowPlace parent with
    | some target, some place => if target = owner then [place] else [owner]
    | _, _ => [owner]

def reborrowOwner (pointer parent : Name) (isMutable : Bool) (σ : BorrowState) (owner : Place) :
    BorrowState :=
  { σ with
    activeMutBorrower :=
      if isMutable then insert orders.keys σ.activeMutBorrower (.reborrow pointer owner) pointer
      else σ.activeMutBorrower
    activeBorrowers :=
      if isMutable then σ.activeBorrowers else addBorrower σ.activeBorrowers owner pointer
    aggregateBorrowPlaces := (reborrowedPlaces σ parent owner).foldl
      (fun places place => addPlace places pointer owner place) σ.aggregateBorrowPlaces }

def recordReborrow (σ : BorrowState) (pointer parent : Name) (isMutable : Bool) : BorrowState :=
  let linked := { σ with
    pointerBorrowParent := insert orders.names σ.pointerBorrowParent pointer parent }
  (possibleOwners linked parent).foldl (reborrowOwner orders pointer parent isMutable) linked

def copiedPlaces (σ : BorrowState) (pointer : Name) (primaryOwner : Place) : List (Place × Place) :=
  let precise := (σ.aggregateBorrowPlaces.filter fun e => e.1 == pointer).map (·.2)
  let owners := primaryOwner :: (σ.activeBorrowers.filterMap fun borrower =>
    if borrower.2 = pointer then some borrower.1 else none) ++ precise.map Prod.fst
  owners.flatMap fun owner =>
    let ownerPaths := (precise.filter fun e => e.1 == owner).map Prod.snd
    if ownerPaths ≠ [] then ownerPaths.map fun place => (owner, place)
    else
      match find σ.pointerBorrowPlace pointer with
      | some place => if owner = primaryOwner then [(owner, place)] else [(owner, owner)]
      | none => [(owner, owner)]

def copyPlaces (pointer : Name) (isMutable : Bool) : BorrowState → List (Place × Place) →
    Option BorrowState
  | σ, [] => some σ
  | σ, (owner, place) :: rest =>
    match registerOwnerBorrow orders env σ pointer isMutable none owner place false with
    | none => none
    | some σ' =>
      copyPlaces pointer isMutable
        { σ' with aggregateBorrowPlaces := addPlace σ'.aggregateBorrowPlaces pointer owner place } rest

def registerSource (σ : BorrowState) (pointer : Name) (source : Source) (isMutable : Bool) :
    Option BorrowState :=
  let σ := clearPointerBorrow orders σ pointer
  match source with
  | .copy copied =>
    match find σ.pointerBorrowTarget copied with
    | none => some σ
    | some primaryOwner =>
      let place := (find σ.pointerBorrowPlace copied).getD primaryOwner
      if copied = pointer then
        registerOwnerBorrow orders env σ pointer isMutable none primaryOwner place true
      else if isMutBorrower σ copied then none
      else
        (copyPlaces orders env pointer isMutable σ (copiedPlaces σ copied primaryOwner)).map
          fun σ' => recordPlace orders σ' pointer primaryOwner place
  | .address _ operand =>
    let owner := resolveBorrowOwnerFromLValue σ operand
    let place := resolveBorrowPlaceFromLValue σ operand
    let parent := reborrowParent σ operand
    match registerOwnerBorrow orders env σ pointer isMutable (parent.filter (isMutBorrower σ)) owner
        place (env.enforceExclusive pointer owner) with
    | none => none
    | some σ' =>
      match parent with
      | none => some σ'
      | some parent => some (recordReborrow orders σ' pointer parent isMutable)

/-- An alternative is exclusive if it is a `&mut`, or a pointer that is. -/
def sourceIsMutable (σ : BorrowState) : Source → Bool
  | .address isMutable _ => isMutable
  | .copy pointer => isMutBorrower σ pointer

def commonValue {ν : Type} [DecidableEq ν] : List (Option ν) → Option ν
  | [] => none
  | none :: _ => none
  | some v :: rest => if rest.all fun other => other == some v then some v else none

def isWithin (owner place : Place) : Bool :=
  owner.owner == place.owner && owner.path.isPrefixOf place.path

def ownPlaces (branch : BorrowState) (pointer : Name) : List (Place × Place) :=
  match find branch.pointerBorrowTarget pointer with
  | none => []
  | some owner =>
    if isMutBorrower branch pointer || (owner, pointer) ∈ branch.activeBorrowers then
      match find branch.pointerBorrowPlace pointer with
      | some place => [(owner, if isWithin owner place then place else owner)]
      | none => [(owner, owner)]
    else []

def mergeBranch (pointer : Name) (merged branch : BorrowState) : BorrowState :=
  { merged with
    activeBorrowers := branch.activeBorrowers.foldl
      (fun borrowers b => if b.2 = pointer then addBorrower borrowers b.1 pointer else borrowers)
      merged.activeBorrowers
    activeMutBorrower := branch.activeMutBorrower.foldl
      (fun borrows b =>
        if b.2 = pointer ∧ find borrows b.1 = none then insert orders.keys borrows b.1 pointer
        else borrows)
      merged.activeMutBorrower
    aggregateBorrowPlaces :=
      (ownPlaces branch pointer).foldl (fun places e => addPlace places pointer e.1 e.2)
        (branch.aggregateBorrowPlaces.foldl (fun places e => addPlace places e.1 e.2.1 e.2.2)
          merged.aggregateBorrowPlaces) }

def joinBranches (σ : BorrowState) (pointer : Name) (branches : List BorrowState) : BorrowState :=
  { pointerBorrowTarget :=
      match branches.findSome? fun branch => find branch.pointerBorrowTarget pointer with
      | some owner => insert orders.names σ.pointerBorrowTarget pointer owner
      | none => erase σ.pointerBorrowTarget pointer
    pointerBorrowPlace :=
      match commonValue (branches.map fun branch => find branch.pointerBorrowPlace pointer) with
      | some place => insert orders.names σ.pointerBorrowPlace pointer place
      | none => erase σ.pointerBorrowPlace pointer
    pointerBorrowParent :=
      match commonValue (branches.map fun branch => find branch.pointerBorrowParent pointer) with
      | some parent => insert orders.names σ.pointerBorrowParent pointer parent
      | none => erase σ.pointerBorrowParent pointer
    activeBorrowers := σ.activeBorrowers.filter fun borrower => decide (borrower.2 ≠ pointer)
    activeMutBorrower := σ.activeMutBorrower.filter fun borrow => decide (borrow.2 ≠ pointer)
    aggregateBorrowPlaces := σ.aggregateBorrowPlaces }

def registerPointerBorrowAlternatives (σ : BorrowState) (pointer : Name) (alternatives : List Source)
    (preserveIncoming : Bool) : Option BorrowState :=
  if alternatives.isEmpty && !preserveIncoming then some σ
  else
    match alternatives.mapM fun s => registerSource orders env σ pointer s (sourceIsMutable σ s) with
    | none => none
    | some registered =>
      let branches := if preserveIncoming then σ :: registered else registered
      some (branches.foldl (mergeBranch orders pointer) (joinBranches orders σ pointer branches))

/-- What a pointer is bound to: one source, or the alternatives of a ternary. -/
inductive Binding
  | source (s : Source)
  | alternatives (first : Source) (rest : List Source)

def Binding.sources : Binding → List Source
  | .source s => [s]
  | .alternatives first rest => first :: rest

def registerPointerBorrow (σ : BorrowState) (pointer : Name) : Binding → Option BorrowState
  | .source (.address isMutable operand) =>
    registerSource orders env σ pointer (.address isMutable operand) isMutable
  | .source (.copy copied) => registerSource orders env σ pointer (.copy copied) false
  | .alternatives first rest =>
    registerPointerBorrowAlternatives orders env σ pointer (first :: rest) false

end Mlang.PointerBorrows
