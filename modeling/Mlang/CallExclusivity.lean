import Mlang.BorrowRecords
import Mlang.CallBorrows

namespace Mlang.CallExclusivity

open Mangling (Name)
open BorrowRecords (pathsOverlap_nil pathsOverlap_comm)
open CallBorrows OrderedTables PointerBorrows List

variable (ctx : Context)

/-- The borrow that an argument is registered with. -/
def argumentBorrow (sharedReference : Bool) : ExpressionNode → Option ArgumentBorrow
  | .identifier name =>
    (find ctx.borrows.pointerBorrowTarget name).bind fun target =>
      if ctx.isPointer name && ctx.isMoveOnlyVariable target then
        some ⟨target, ((find ctx.borrows.pointerBorrowPlace name).map (pathBelow target)).getD [], true⟩
      else none
  | .unary .addr operand =>
    (describeBorrowPath ctx operand).map fun d => ⟨d.1, d.2, !sharedReference⟩
  | .unary .addrMut operand =>
    (describeBorrowPath ctx operand).map fun d => ⟨d.1, d.2, !sharedReference⟩
  | _ => none

def argumentBorrows : List ExpressionNode → List Bool → List ArgumentBorrow
  | [], _ => []
  | arg :: args, shared =>
    (argumentBorrow ctx (shared.headD false) arg).toList ++ argumentBorrows args shared.tail

def implicitBorrows (implicitWholeOwner : Option Place) : List ArgumentBorrow :=
  implicitWholeOwner.toList.map fun owner => ⟨owner, [], true⟩

def Conflicts (b b' : ArgumentBorrow) : Prop :=
  b.owner = b'.owner ∧ pathsOverlap b.path b'.path = true ∧
    (b.isExclusive = true ∨ b'.isExclusive = true)

instance (b b' : ArgumentBorrow) : Decidable (Conflicts b b') :=
  inferInstanceAs (Decidable (_ ∧ _ ∧ _))

/-- An address is taken of nothing that was moved or is borrowed in a way that excludes it. -/
def AddressAllowed (isMutable sharedReference : Bool) (operand : ExpressionNode) : Prop :=
  ∀ owner path, describeBorrowPath ctx operand = some (owner, path) →
    borrowsMoved ctx owner operand = false ∧
      activeConflict ctx isMutable sharedReference operand owner path = false

def Allowed (sharedReference : Bool) : ExpressionNode → Prop
  | .unary .addr operand => AddressAllowed ctx false sharedReference operand
  | .unary .addrMut operand => AddressAllowed ctx true sharedReference operand
  | _ => True

def AllAllowed : List ExpressionNode → List Bool → Prop
  | [], _ => True
  | arg :: args, shared => Allowed ctx (shared.headD false) arg ∧ AllAllowed args shared.tail

def movedOwners (args : List ExpressionNode) : List Name :=
  args.flatMap fun arg => collectMovedOwners ctx arg false

variable {b : ArgumentBorrow} {s : InCall} {bs : List ArgumentBorrow}

structure Holds (bs : List ArgumentBorrow) (s : InCall) : Prop where
  whole : ∀ owner, owner ∈ s.wholeOwners ↔ ∃ b ∈ bs, b.owner = owner ∧ b.path = []
  exclusiveWhole : ∀ owner, owner ∈ s.exclusiveWholeOwners ↔
    ∃ b ∈ bs, (b.owner = owner ∧ b.path = []) ∧ b.isExclusive = true
  subpath : ∀ owner path, (owner, path) ∈ s.subpaths ↔
    ∃ b ∈ bs, b.owner = owner ∧ b.path = path ∧ path ≠ []
  exclusiveSubpath : ∀ owner path, (owner, path) ∈ s.exclusiveSubpaths ↔
    ∃ b ∈ bs, (b.owner = owner ∧ b.path = path ∧ path ≠ []) ∧ b.isExclusive = true

variable {s' : InCall}
variable {paths : List (Place × List Segment)} {owner : Place}

theorem hasPath_iff : hasPath paths owner = true ↔ ∃ path, (owner, path) ∈ paths := by
  rw [hasPath, any_eq_true]
  constructor
  · rintro ⟨⟨o, path⟩, hmem, heq⟩
    obtain rfl := beq_iff_eq.1 heq
    exact ⟨path, hmem⟩
  · rintro ⟨path, hmem⟩
    exact ⟨_, hmem, beq_self_eq_true owner⟩

theorem hasOverlap_iff {path : List Segment} : hasOverlap paths owner path = true ↔ ∃ other,
    (owner, other) ∈ paths ∧ pathsOverlap other path = true := by
  rw [hasOverlap, any_eq_true]
  constructor
  · rintro ⟨⟨o, other⟩, hmem, hboth⟩
    obtain ⟨heq, hoverlap⟩ := Bool.and_eq_true_iff.1 hboth
    obtain rfl := beq_iff_eq.1 heq
    exact ⟨other, hmem, hoverlap⟩
  · rintro ⟨other, hmem, hoverlap⟩
    exact ⟨_, hmem, Bool.and_eq_true_iff.2 ⟨beq_self_eq_true owner, hoverlap⟩⟩

theorem refused_iff {P : ArgumentBorrow → Prop} {e : Prop} :
    ((∃ c ∈ bs, P c) ∧ (e ∨ ∃ c ∈ bs, P c ∧ c.isExclusive = true)) ↔
      ∃ c ∈ bs, P c ∧ (c.isExclusive = true ∨ e) := by
  constructor
  · rintro ⟨⟨c, hc, hP⟩, he | ⟨c', hc', hP', hexclusive⟩⟩
    · exact ⟨c, hc, hP, .inr he⟩
    · exact ⟨c', hc', hP', .inl hexclusive⟩
  · rintro ⟨c, hc, hP, hexclusive | he⟩
    · exact ⟨⟨c, hc, hP⟩, .inr ⟨c, hc, hP, hexclusive⟩⟩
    · exact ⟨⟨c, hc, hP⟩, .inl he⟩

variable (h : Holds bs s)
include h

theorem Holds.overlaps_whole (owner : Place) :
    (s.wholeOwners.contains owner || hasPath s.subpaths owner) = true ↔ ∃ c ∈ bs, c.owner = owner := by
  rw [Bool.or_eq_true, contains_iff_mem, h.whole, hasPath_iff]
  constructor
  · rintro (⟨c, hc, hown, -⟩ | ⟨path, hpath⟩)
    · exact ⟨c, hc, hown⟩
    · obtain ⟨c, hc, hown, -⟩ := (h.subpath owner path).1 hpath
      exact ⟨c, hc, hown⟩
  · rintro ⟨c, hc, hown⟩
    by_cases hpath : c.path = []
    · exact .inl ⟨c, hc, hown, hpath⟩
    · exact .inr ⟨c.path, (h.subpath owner c.path).2 ⟨c, hc, hown, rfl, hpath⟩⟩

theorem Holds.overlaps_exclusive (owner : Place) :
    (s.exclusiveWholeOwners.contains owner || hasPath s.exclusiveSubpaths owner) = true ↔
      ∃ c ∈ bs, c.owner = owner ∧ c.isExclusive = true := by
  rw [Bool.or_eq_true, contains_iff_mem, h.exclusiveWhole, hasPath_iff]
  constructor
  · rintro (⟨c, hc, ⟨hown, -⟩, hexclusive⟩ | ⟨path, hpath⟩)
    · exact ⟨c, hc, hown, hexclusive⟩
    · obtain ⟨c, hc, ⟨hown, -⟩, hexclusive⟩ := (h.exclusiveSubpath owner path).1 hpath
      exact ⟨c, hc, hown, hexclusive⟩
  · rintro ⟨c, hc, hown, hexclusive⟩
    by_cases hpath : c.path = []
    · exact .inl ⟨c, hc, ⟨hown, hpath⟩, hexclusive⟩
    · exact .inr ⟨c.path, (h.exclusiveSubpath owner c.path).2 ⟨c, hc, ⟨hown, rfl, hpath⟩, hexclusive⟩⟩

theorem Holds.hasOverlap (owner : Place) (path : List Segment) :
    CallBorrows.hasOverlap s.subpaths owner path = true ↔
      ∃ c ∈ bs, c.owner = owner ∧ c.path ≠ [] ∧ pathsOverlap c.path path = true := by
  rw [hasOverlap_iff]
  constructor
  · rintro ⟨other, hother, hoverlap⟩
    obtain ⟨c, hc, hown, rfl, hsome⟩ := (h.subpath owner other).1 hother
    exact ⟨c, hc, hown, hsome, hoverlap⟩
  · rintro ⟨c, hc, hown, hsome, hoverlap⟩
    exact ⟨c.path, (h.subpath owner c.path).2 ⟨c, hc, hown, rfl, hsome⟩, hoverlap⟩

theorem Holds.hasOverlap_exclusive (owner : Place) (path : List Segment) :
    CallBorrows.hasOverlap s.exclusiveSubpaths owner path = true ↔
      ∃ c ∈ bs, (c.owner = owner ∧ c.path ≠ [] ∧ pathsOverlap c.path path = true) ∧
        c.isExclusive = true := by
  rw [hasOverlap_iff]
  constructor
  · rintro ⟨other, hother, hoverlap⟩
    obtain ⟨c, hc, ⟨hown, rfl, hsome⟩, hexclusive⟩ := (h.exclusiveSubpath owner other).1 hother
    exact ⟨c, hc, ⟨hown, hsome, hoverlap⟩, hexclusive⟩
  · rintro ⟨c, hc, ⟨hown, hsome, hoverlap⟩, hexclusive⟩
    exact ⟨c.path, (h.exclusiveSubpath owner c.path).2 ⟨c, hc, ⟨hown, rfl, hsome⟩, hexclusive⟩, hoverlap⟩

theorem Holds.cons_whole (hpath : b.path = []) :
    Holds (b :: bs) { s with
      wholeOwners := b.owner :: s.wholeOwners
      exclusiveWholeOwners :=
        if b.isExclusive then b.owner :: s.exclusiveWholeOwners else s.exclusiveWholeOwners } where
  whole owner := by
    rw [mem_cons, h.whole, exists_mem_cons_iff, eq_comm (a := owner), and_iff_left hpath]
  exclusiveWhole owner := by
    rw [exists_mem_cons_iff, ← h.exclusiveWhole, and_iff_left hpath]
    cases hexclusive : b.isExclusive with
    | true => rw [if_pos rfl, mem_cons, eq_comm (a := owner), and_iff_left rfl]
    | false =>
      rw [if_neg Bool.false_ne_true, or_iff_right]
      exact fun hboth => Bool.false_ne_true hboth.2
  subpath owner path := by
    rw [exists_mem_cons_iff, ← h.subpath, or_iff_right]
    rintro ⟨-, rfl, hsome⟩
    exact hsome hpath
  exclusiveSubpath owner path := by
    rw [exists_mem_cons_iff, ← h.exclusiveSubpath, or_iff_right]
    rintro ⟨⟨-, rfl, hsome⟩, -⟩
    exact hsome hpath

theorem Holds.cons_path (hpath : b.path ≠ []) :
    Holds (b :: bs) { s with
      subpaths := (b.owner, b.path) :: s.subpaths
      exclusiveSubpaths :=
        if b.isExclusive then (b.owner, b.path) :: s.exclusiveSubpaths else s.exclusiveSubpaths } where
  whole owner := by
    rw [exists_mem_cons_iff, ← h.whole, or_iff_right fun hboth => hpath hboth.2]
  exclusiveWhole owner := by
    rw [exists_mem_cons_iff, ← h.exclusiveWhole, or_iff_right fun hboth => hpath hboth.1.2]
  subpath owner path := by
    rw [exists_mem_cons_iff, ← h.subpath, mem_cons, Prod.mk.injEq]
    refine or_congr_left ⟨?_, ?_⟩
    · rintro ⟨rfl, rfl⟩
      exact ⟨rfl, rfl, hpath⟩
    · rintro ⟨rfl, rfl, -⟩
      exact ⟨rfl, rfl⟩
  exclusiveSubpath owner path := by
    rw [exists_mem_cons_iff, ← h.exclusiveSubpath]
    cases hexclusive : b.isExclusive with
    | true =>
      rw [if_pos rfl, mem_cons, Prod.mk.injEq, and_iff_left rfl]
      refine or_congr_left ⟨?_, ?_⟩
      · rintro ⟨rfl, rfl⟩
        exact ⟨rfl, rfl, hpath⟩
      · rintro ⟨rfl, rfl, -⟩
        exact ⟨rfl, rfl⟩
    | false =>
      rw [if_neg Bool.false_ne_true, or_iff_right]
      exact fun hboth => Bool.false_ne_true hboth.2

theorem Holds.refuses_whole (hpath : b.path = []) :
    ((s.wholeOwners.contains b.owner || hasPath s.subpaths b.owner) && (b.isExclusive ||
        (s.exclusiveWholeOwners.contains b.owner || hasPath s.exclusiveSubpaths b.owner))) = true ↔
      ∃ c ∈ bs, Conflicts c b := by
  rw [Bool.and_eq_true, h.overlaps_whole, Bool.or_eq_true, h.overlaps_exclusive, refused_iff]
  refine exists_congr fun c => and_congr_right fun _ => and_congr_right fun _ => ?_
  rw [hpath, pathsOverlap_nil]
  exact (and_iff_right rfl).symm

theorem Holds.refuses_below_whole :
    (s.wholeOwners.contains b.owner &&
      (b.isExclusive || s.exclusiveWholeOwners.contains b.owner)) = true ↔
      ∃ c ∈ bs, c.path = [] ∧ Conflicts c b := by
  rw [Bool.and_eq_true, Bool.or_eq_true, contains_iff_mem, contains_iff_mem, h.whole,
    h.exclusiveWhole, refused_iff]
  refine exists_congr fun c => and_congr_right fun _ => ⟨?_, ?_⟩
  · rintro ⟨⟨hown, hpath⟩, hexclusive⟩
    exact ⟨hpath, hown, by rw [hpath]; rfl, hexclusive⟩
  · rintro ⟨hpath, hown, -, hexclusive⟩
    exact ⟨⟨hown, hpath⟩, hexclusive⟩

theorem Holds.refuses_path :
    (CallBorrows.hasOverlap s.subpaths b.owner b.path &&
      (b.isExclusive || CallBorrows.hasOverlap s.exclusiveSubpaths b.owner b.path)) = true ↔
      ∃ c ∈ bs, c.path ≠ [] ∧ Conflicts c b := by
  rw [Bool.and_eq_true, Bool.or_eq_true, h.hasOverlap, h.hasOverlap_exclusive, refused_iff]
  refine exists_congr fun c => and_congr_right fun _ => ⟨?_, ?_⟩
  · rintro ⟨⟨hown, hpath, hoverlap⟩, hexclusive⟩
    exact ⟨hpath, hown, hoverlap, hexclusive⟩
  · rintro ⟨hpath, hown, hoverlap, hexclusive⟩
    exact ⟨⟨hown, hpath, hoverlap⟩, hexclusive⟩

theorem registerBorrowInCall_spec (b : ArgumentBorrow) :
    (registerBorrowInCall s b = none ∧ ∃ c ∈ bs, Conflicts c b) ∨
      ∃ s', registerBorrowInCall s b = some s' ∧ (∀ c ∈ bs, ¬Conflicts c b) ∧ Holds (b :: bs) s' ∧
        s'.movedOwners = s.movedOwners := by
  rw [registerBorrowInCall]
  by_cases hpath : b.path = []
  · rw [if_pos hpath]
    dsimp only
    split
    · rename_i hrefused
      exact .inl ⟨rfl, (h.refuses_whole hpath).1 hrefused⟩
    · rename_i hfree
      exact .inr ⟨_, rfl, fun c hc hconflict => hfree ((h.refuses_whole hpath).2 ⟨c, hc, hconflict⟩),
        h.cons_whole hpath, rfl⟩
  · rw [if_neg hpath]
    split
    · rename_i hrefused
      obtain ⟨c, hc, -, hconflict⟩ := h.refuses_below_whole.1 hrefused
      exact .inl ⟨rfl, c, hc, hconflict⟩
    · rename_i hbelow
      dsimp only
      split
      · rename_i hrefused
        obtain ⟨c, hc, -, hconflict⟩ := h.refuses_path.1 hrefused
        exact .inl ⟨rfl, c, hc, hconflict⟩
      · rename_i hfree
        refine .inr ⟨_, rfl, fun c hc hconflict => ?_, h.cons_path hpath, rfl⟩
        by_cases hwhole : c.path = []
        · exact hbelow (h.refuses_below_whole.2 ⟨c, hc, hwhole, hconflict⟩)
        · exact hfree (h.refuses_path.2 ⟨c, hc, hwhole, hconflict⟩)

variable {sharedReference : Bool} {ctx : Context} {arg : ExpressionNode}

theorem Holds.of_mem {bs' : List ArgumentBorrow} (hmem : ∀ b, b ∈ bs' ↔ b ∈ bs)
    (moved : List Name) : Holds bs' { s with movedOwners := moved } where
  whole owner := by simp only [hmem]; exact h.whole owner
  exclusiveWhole owner := by simp only [hmem]; exact h.exclusiveWhole owner
  subpath owner path := by simp only [hmem]; exact h.subpath owner path
  exclusiveSubpath owner path := by simp only [hmem]; exact h.exclusiveSubpath owner path

def Fits (ctx : Context) (bs : List ArgumentBorrow) (sharedReference : Bool) (arg : ExpressionNode) :
    Prop :=
  Allowed ctx sharedReference arg ∧
    ∀ b ∈ argumentBorrow ctx sharedReference arg, ∀ c ∈ bs, ¬Conflicts c b

structure Accepted (ctx : Context) (bs : List ArgumentBorrow) (s s' : InCall) (sharedReference : Bool)
    (arg : ExpressionNode) : Prop where
  fits : Fits ctx bs sharedReference arg
  holds : Holds (bs ++ (argumentBorrow ctx sharedReference arg).toList) s'
  moved : s'.movedOwners = collectMovedOwners ctx arg false ++ s.movedOwners

theorem accepted_register (hborrow : argumentBorrow ctx sharedReference arg = some b)
    (hallowed : Allowed ctx sharedReference arg)
    (hmoved : s.movedOwners = collectMovedOwners ctx arg false ++ s'.movedOwners) :
    (registerBorrowInCall s b = none ∧ ¬Fits ctx bs sharedReference arg) ∨ ∃ t,
    registerBorrowInCall s b = some t ∧ Accepted ctx bs s' t sharedReference arg := by
  obtain ⟨hnone, c, hc, hconflict⟩ | ⟨t, ht, hfree, hholds, hsame⟩ := registerBorrowInCall_spec h b
  · exact .inl ⟨hnone, fun hfits => hfits.2 b hborrow c hc hconflict⟩
  · refine .inr ⟨t, ht, ⟨hallowed, ?_⟩, ?_, hsame.trans hmoved⟩
    · rintro b' hb'
      obtain rfl := Option.some.inj (hborrow.symm.trans hb')
      exact hfree
    · rw [hborrow]
      refine hholds.of_mem (fun b' => ?_) t.movedOwners
      rw [Option.toList_some, mem_append, mem_singleton, mem_cons, or_comm]

theorem accepted_unregistered (hborrow : argumentBorrow ctx sharedReference arg = none)
    (hallowed : Allowed ctx sharedReference arg)
    (hmoved : s.movedOwners = collectMovedOwners ctx arg false ++ s'.movedOwners) :
    Accepted ctx bs s' s sharedReference arg where
  fits := ⟨hallowed, fun b hb => nomatch hborrow.symm.trans hb⟩
  holds := by rw [hborrow, Option.toList_none, append_nil]; exact h
  moved := hmoved

theorem validateAddress_spec {isMutable : Bool} {operand : ExpressionNode} (hborrow : argumentBorrow ctx sharedReference arg = (describeBorrowPath ctx operand).map fun d => ⟨d.1,
      d.2, !sharedReference⟩)
    (hallowed : Allowed ctx sharedReference arg = AddressAllowed ctx isMutable sharedReference operand)
    (hmoved : s.movedOwners = collectMovedOwners ctx arg false ++ s'.movedOwners) :
    (validateAddress ctx s isMutable sharedReference operand = none ∧ ¬Fits ctx bs sharedReference arg) ∨ ∃ t,
    validateAddress ctx s isMutable sharedReference operand = some t ∧
    Accepted ctx bs s' t sharedReference arg := by
  rw [validateAddress]
  cases hdescribe : describeBorrowPath ctx operand with
  | none =>
    rw [hdescribe, Option.map_none] at hborrow
    refine .inr ⟨s, rfl, accepted_unregistered h hborrow ?_ hmoved⟩
    rw [hallowed]
    exact fun owner path hsome => nomatch hdescribe.symm.trans hsome
  | some d =>
    obtain ⟨owner, path⟩ := d
    rw [hdescribe, Option.map_some] at hborrow
    dsimp only
    split
    · rename_i hmovedBefore
      refine .inl ⟨rfl, fun hfits => ?_⟩
      have haddress : AddressAllowed ctx isMutable sharedReference operand := hallowed ▸ hfits.1
      exact Bool.false_ne_true ((haddress owner path hdescribe).1.symm.trans hmovedBefore)
    · rename_i hunmoved
      split
      · rename_i hactive
        refine .inl ⟨rfl, fun hfits => ?_⟩
        have haddress : AddressAllowed ctx isMutable sharedReference operand := hallowed ▸ hfits.1
        exact Bool.false_ne_true ((haddress owner path hdescribe).2.symm.trans hactive)
      · rename_i hinactive
        refine accepted_register h hborrow ?_ hmoved
        rw [hallowed]
        rintro owner' path' hsome
        cases hdescribe.symm.trans hsome
        exact ⟨Bool.eq_false_iff.2 hunmoved, Bool.eq_false_iff.2 hinactive⟩

theorem validatePointer_spec {name : Name} {target : Place} (htarget : find ctx.borrows.pointerBorrowTarget name = some target)
    (hmoved : s.movedOwners = collectMovedOwners ctx (.identifier name) false ++ s'.movedOwners) :
    (validatePointer ctx s name target = none ∧ ¬Fits ctx bs sharedReference (.identifier name)) ∨ ∃ t,
    validatePointer ctx s name target = some t ∧ Accepted ctx bs s' t sharedReference (.identifier name) := by
  have hborrow := argumentBorrow.eq_1 ctx sharedReference name
  rw [htarget, Option.bind_some] at hborrow
  rw [validatePointer]
  cases hpointer : ctx.isPointer name with
  | false =>
    rw [hpointer, Bool.false_and, if_neg Bool.false_ne_true] at hborrow
    exact .inr ⟨s, rfl, accepted_unregistered h hborrow trivial hmoved⟩
  | true =>
    cases hmoveOnly : ctx.isMoveOnlyVariable target with
    | false =>
      rw [hmoveOnly, Bool.and_false, if_neg Bool.false_ne_true] at hborrow
      exact .inr ⟨s, rfl, accepted_unregistered h hborrow trivial hmoved⟩
    | true =>
      rw [hpointer, hmoveOnly, Bool.and_true, if_pos rfl] at hborrow
      cases hplace : find ctx.borrows.pointerBorrowPlace name with
      | none =>
        rw [hplace] at hborrow
        exact accepted_register h hborrow trivial hmoved
      | some place =>
        rw [hplace] at hborrow
        exact accepted_register h hborrow trivial hmoved

omit h

theorem validateArgument_spec (sharedReference : Bool) (arg : ExpressionNode) (h : Holds bs s) :
    (validateArgument ctx s sharedReference arg = none ∧ ¬Fits ctx bs sharedReference arg) ∨
      ∃ t, validateArgument ctx s sharedReference arg = some t ∧
        Accepted ctx bs s t sharedReference arg := by
  have hmoves := h.of_mem (fun _ => Iff.rfl) (collectMovedOwners ctx arg false ++ s.movedOwners)
  rw [validateArgument.eq_def]
  dsimp only
  split
  · rename_i name
    split
    · rename_i target htarget
      exact validatePointer_spec hmoves htarget rfl
    · rename_i hnone
      refine .inr ⟨_, rfl, accepted_unregistered hmoves ?_ trivial rfl⟩
      rw [argumentBorrow, hnone, Option.bind_none]
  · exact validateAddress_spec hmoves rfl rfl rfl
  · exact validateAddress_spec hmoves rfl rfl rfl
  · rename_i hidentifier haddr haddrMut
    refine .inr ⟨_, rfl, accepted_unregistered hmoves ?_ ?_ rfl⟩
    · exact argumentBorrow.eq_4 ctx sharedReference arg hidentifier haddr haddrMut
    · rw [Allowed.eq_3 ctx sharedReference arg haddr haddrMut]
      trivial

def Exclusive (bs : List ArgumentBorrow) : Prop :=
  bs.Pairwise fun b b' => ¬Conflicts b b'

instance (bs : List ArgumentBorrow) : Decidable (Exclusive bs) :=
  inferInstanceAs (Decidable (List.Pairwise _ _))

theorem Exclusive.toList (b : Option ArgumentBorrow) : Exclusive b.toList := by
  cases b with
  | none => exact .nil
  | some b => exact pairwise_singleton _ b

theorem Fits.exclusive (hbs : Exclusive bs) (h : Fits ctx bs sharedReference arg) :
    Exclusive (bs ++ (argumentBorrow ctx sharedReference arg).toList) :=
  List.pairwise_append.2 ⟨hbs, Exclusive.toList _, fun c hc b hb =>
    h.2 b (Option.mem_toList.1 hb) c hc⟩

theorem Fits.of_exclusive {rest : List ArgumentBorrow} (hallowed : Allowed ctx sharedReference arg)
    (h : Exclusive (bs ++ ((argumentBorrow ctx sharedReference arg).toList ++ rest))) :
    Fits ctx bs sharedReference arg :=
  ⟨hallowed, fun b hb c hc => (List.pairwise_append.1 h).2.2 c hc b
    (mem_append_left rest (Option.mem_toList.2 hb))⟩

structure AllAccepted (ctx : Context) (bs : List ArgumentBorrow) (s s' : InCall)
    (args : List ExpressionNode) (shared : List Bool) : Prop where
  allowed : AllAllowed ctx args shared
  exclusive : Exclusive (bs ++ argumentBorrows ctx args shared)
  holds : Holds (bs ++ argumentBorrows ctx args shared) s'
  moved : ∀ name, name ∈ s'.movedOwners ↔ name ∈ s.movedOwners ∨ name ∈ movedOwners ctx args

theorem movedOwners_cons (arg : ExpressionNode) (args : List ExpressionNode) :
    movedOwners ctx (arg :: args) = collectMovedOwners ctx arg false ++ movedOwners ctx args :=
  rfl

theorem validateArguments_spec (args : List ExpressionNode) (shared : List Bool) (h : Holds bs s)
    (hbs : Exclusive bs) :
    (validateArguments ctx s args shared = none ∧
        ¬(AllAllowed ctx args shared ∧ Exclusive (bs ++ argumentBorrows ctx args shared))) ∨
      ∃ t, validateArguments ctx s args shared = some t ∧ AllAccepted ctx bs s t args shared := by
  induction args generalizing bs s shared with
  | nil =>
    refine .inr ⟨s, rfl, trivial, ?_, ?_, fun name => (or_iff_left not_mem_nil).symm⟩
    · rw [argumentBorrows, append_nil]
      exact hbs
    · rw [argumentBorrows, append_nil]
      exact h
  | cons arg args ih =>
    rw [validateArguments, argumentBorrows, AllAllowed]
    obtain ⟨hnone, hunfit⟩ | ⟨t, ht, haccepted⟩ := validateArgument_spec (shared.headD false) arg h
    · rw [hnone]
      exact .inl ⟨rfl, fun hboth => hunfit (Fits.of_exclusive hboth.1.1 hboth.2)⟩
    · rw [ht, Option.bind_some]
      obtain ⟨hnone, hunfit⟩ | ⟨t', ht', hrest⟩ :=
        ih shared.tail haccepted.holds (haccepted.fits.exclusive hbs)
      · refine .inl ⟨hnone, fun hboth => hunfit ⟨hboth.1.2, ?_⟩⟩
        rw [append_assoc]
        exact hboth.2
      · refine .inr ⟨t', ht', ⟨haccepted.fits.1, hrest.allowed⟩, ?_, ?_, fun name => ?_⟩
        · rw [argumentBorrows, ← append_assoc]
          exact hrest.exclusive
        · rw [argumentBorrows, ← append_assoc]
          exact hrest.holds
        · rw [hrest.moved, haccepted.moved, movedOwners_cons, mem_append, mem_append,
            or_assoc, or_left_comm]

theorem holds_nil : Holds [] {} := by
  constructor <;> simp

variable (implicitWholeOwner : Option Place)

theorem holds_implicitBorrow : Holds (implicitBorrows implicitWholeOwner)
    (implicitBorrow implicitWholeOwner) := by
  cases implicitWholeOwner with
  | none => exact holds_nil
  | some owner => exact holds_nil.cons_whole rfl

theorem movedOwners_implicitBorrow : (implicitBorrow implicitWholeOwner).movedOwners = [] := by
  cases implicitWholeOwner <;> rfl

theorem exclusive_implicitBorrows : Exclusive (implicitBorrows implicitWholeOwner) := by
  cases implicitWholeOwner with
  | none => exact .nil
  | some owner => exact pairwise_singleton _ _

/-- The borrows of a call: that of its receiver and those of its arguments. -/
def callBorrows (ctx : Context) (args : List ExpressionNode) (implicitWholeOwner : Option Place)
    (shared : List Bool) : List ArgumentBorrow :=
  implicitBorrows implicitWholeOwner ++ argumentBorrows ctx args shared

/-- The check accepts a call exactly where no two of its borrows conflict, each address may be
taken, and no borrowed local is moved by an argument. -/
theorem validateTemporaryBorrowArguments_iff (ctx : Context) (args : List ExpressionNode)
    (implicitWholeOwner : Option Place) (sharedReferenceParameters : List Bool) :
    validateTemporaryBorrowArguments ctx args implicitWholeOwner sharedReferenceParameters = true ↔
      AllAllowed ctx args sharedReferenceParameters ∧
        Exclusive (callBorrows ctx args implicitWholeOwner sharedReferenceParameters) ∧
        ∀ name ∈ movedOwners ctx args,
          ∀ b ∈ callBorrows ctx args implicitWholeOwner sharedReferenceParameters,
            b.owner ≠ .whole name := by
  rw [validateTemporaryBorrowArguments, callBorrows]
  obtain ⟨hnone, hrefused⟩ | ⟨t, ht, haccepted⟩ :=
    validateArguments_spec args sharedReferenceParameters (holds_implicitBorrow implicitWholeOwner)
      (exclusive_implicitBorrows implicitWholeOwner)
  · rw [hnone]
    exact ⟨fun h => (nomatch h), fun h => absurd ⟨h.1, h.2.1⟩ hrefused⟩
  · rw [ht]
    dsimp only
    rw [and_iff_right haccepted.allowed, and_iff_right haccepted.exclusive, Bool.not_eq_true',
      any_eq_false]
    refine forall_congr' fun name => imp_congr ?_ ?_
    · rw [haccepted.moved, movedOwners_implicitBorrow, or_iff_right not_mem_nil]
    · rw [haccepted.holds.overlaps_whole, not_exists]
      exact forall_congr' fun b => not_and

variable (ctx : Context)

def pointerBorrow (name : Name) : Option ArgumentBorrow :=
  (find ctx.borrows.pointerBorrowTarget name).map fun target =>
    ⟨target, ((find ctx.borrows.pointerBorrowPlace name).map (pathBelow target)).getD [],
      isMutBorrower ctx.borrows name⟩

mutual

/-- The borrows that the callee is given with an argument, at any depth of casts, ternaries and
literals. -/
def givenBorrows (sharedReference : Bool) : ExpressionNode → List ArgumentBorrow
  | .identifier name => (pointerBorrow ctx name).toList
  | .castExpression expression => givenBorrows sharedReference expression
  | .ternary _ trueExpr falseExpr =>
    givenBorrows sharedReference trueExpr ++ givenBorrows sharedReference falseExpr
  | .listLiteral elements => givenAllBorrows sharedReference elements
  | .mapLiteral keys values =>
    givenAllBorrows sharedReference keys ++ givenAllBorrows sharedReference values
  | .tupleLiteral elements => givenAllBorrows sharedReference elements
  | .structLiteral _ values => givenAllBorrows sharedReference values
  | arg => (argumentBorrow ctx sharedReference arg).toList

def givenAllBorrows (sharedReference : Bool) : List ExpressionNode → List ArgumentBorrow
  | [] => []
  | e :: es => givenBorrows sharedReference e ++ givenAllBorrows sharedReference es

end

def callGivenBorrows : List ExpressionNode → List Bool → List (List ArgumentBorrow)
  | [], _ => []
  | arg :: args, shared => givenBorrows ctx (shared.headD false) arg :: callGivenBorrows args shared.tail

/-- No two arguments of a call give borrows that conflict, and what one moves no other moves and
none borrows. -/
structure AliasFree (args : List ExpressionNode) (shared : List Bool) : Prop where
  exclusive : (callGivenBorrows ctx args shared).Pairwise fun bs bs' =>
    ∀ b ∈ bs, ∀ b' ∈ bs', ¬Conflicts b b'
  unborrowed : ∀ name ∈ movedOwners ctx args, ∀ bs ∈ callGivenBorrows ctx args shared, ∀ b ∈ bs,
    b.owner ≠ .whole name
  movedOnce : args.Pairwise fun arg arg' =>
    ∀ name ∈ collectMovedOwners ctx arg false, name ∉ collectMovedOwners ctx arg' false

/-- A pointer local that was made with an exclusive borrow of a local that is not move-only. -/
def pointerContext : Context where
  borrows :=
    { pointerBorrowTarget := [(['p'], .whole ['x'])]
      pointerBorrowPlace := [(['p'], .whole ['x'])]
      pointerBorrowParent := []
      activeBorrowers := []
      activeMutBorrower := [(.place (.whole ['x']), ['p'])]
      aggregateBorrowPlaces := [] }
  movedVariables := []
  isGlobal := fun _ => false
  isMoveOnlyVariable := fun _ => false
  isPointer := fun name => name == ['p']
  constant := fun _ => none

/-- Such a pointer can be given to a callee twice. -/
theorem not_aliasFree_of_accepted :
    ¬∀ ctx args implicitWholeOwner shared,
      validateTemporaryBorrowArguments ctx args implicitWholeOwner shared = true →
        AliasFree ctx args shared := by
  intro h
  have hfree := h pointerContext [.identifier ['p'], .identifier ['p']] none [] (by decide)
  exact absurd hfree.exclusive (by decide)

end Mlang.CallExclusivity
