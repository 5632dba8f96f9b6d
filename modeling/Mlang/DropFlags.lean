import Mathlib.Data.List.Nodup
import Mlang.CleanupPaths

namespace Mlang.DropFlags

open Statements CleanupScopes CleanupPaths List
open CodeGenerator (emitScopeCleanup)

variable {l : Local} {flag : Nat}

def registered (l : Local) : Option ScopeCleanup := l.cleanup.map (fun flag => ⟨l.name, flag⟩)

def registeredOf (ls : List Local) : List ScopeCleanup := ls.filterMap registered

def flagsOf (ls : List Local) : List Nat := ls.filterMap Local.cleanup

def shape (ls : List Local) : List (Name × Option Nat) := ls.map (fun l => (l.name, l.cleanup))

theorem map_dropFlag_registeredOf (ls : List Local) :
    (registeredOf ls).map ScopeCleanup.dropFlag = flagsOf ls := by
  induction ls with
  | nil => rfl
  | cons l ls ih =>
    cases hl : l.cleanup with
    | none => simpa [registeredOf, flagsOf, registered, hl] using ih
    | some flag => simpa [registeredOf, flagsOf, registered, hl] using ih

theorem registeredOf_of_shape {ls ls' : List Local} (h : shape ls = shape ls') :
    registeredOf ls = registeredOf ls' := by
  have hfactor : ∀ ls : List Local, registeredOf ls = (shape ls).filterMap
      (fun p => p.2.map (fun flag => (⟨p.1, flag⟩ : ScopeCleanup))) := by
    intro ls
    rw [shape, filterMap_map]
    rfl
  rw [hfactor, hfactor, h]

theorem flagsOf_of_shape {ls ls' : List Local} (h : shape ls = shape ls') : flagsOf ls = flagsOf ls' := by
  rw [← map_dropFlag_registeredOf, ← map_dropFlag_registeredOf, registeredOf_of_shape h]

theorem shape_setLive (name : Name) (isLive : Bool) (ls : List Local) :
    shape (setLive name isLive ls) = shape ls := by
  induction ls with
  | nil => rfl
  | cons l ls ih =>
    by_cases hl : l.name = name
    · simp [setLive, shape, hl]
    · simp only [setLive, if_neg hl]
      exact congrArg (List.cons _) ih

theorem shape_moveAll (names : List Name) (ls : List Local) : shape (moveAll names ls) = shape ls := by
  induction names generalizing ls with
  | nil => rfl
  | cons name names ih => exact (ih _).trans (shape_setLive name false ls)

theorem shape_outer {σ : List (Name × Option Nat)} {ls : List Local} (h : σ <:+ shape ls) :
    shape (outer σ.length ls) = σ := by
  obtain ⟨new, hnew⟩ := h
  have hlen : ls.length - σ.length = new.length := by
    have htotal : (shape ls).length = ls.length := length_map _
    rw [← htotal, ← hnew, length_append]
    omega
  have hdrop : shape (ls.drop new.length) = (shape ls).drop new.length := map_drop
  rw [outer, hlen, hdrop, ← hnew, drop_left]

theorem inner_append_outer (n : Nat) (ls : List Local) : inner n ls ++ outer n ls = ls :=
  take_append_drop _ _

theorem mem_flagsOf {ls : List Local} (hl : l ∈ ls) (hflag : l.cleanup = some flag) : flag ∈ flagsOf ls :=
  List.mem_filterMap.2 ⟨l, hl, hflag⟩

def liveFlag (flag : Nat) : List Local → Bool
  | [] => false
  | l :: ls => if l.cleanup = some flag then l.isLive else liveFlag flag ls

def cleanupOf (name : Name) (ls : List Local) : Option Nat := (findLocal name ls).bind Local.cleanup

theorem flagsOf_cons_some (h : l.cleanup = some flag) (ls : List Local) :
    flagsOf (l :: ls) = flag :: flagsOf ls := by
  simp [flagsOf, h]

theorem flagsOf_cons_none (h : l.cleanup = none) (ls : List Local) : flagsOf (l :: ls) = flagsOf ls := by
  simp [flagsOf, h]

theorem nodup_tail {ls : List Local} (h : (flagsOf (l :: ls)).Nodup) : (flagsOf ls).Nodup := by
  cases hl : l.cleanup with
  | none => rwa [flagsOf_cons_none hl] at h
  | some flag =>
    rw [flagsOf_cons_some hl] at h
    exact (List.nodup_cons.1 h).2

theorem ne_of_nodup {ls : List Local} (h : (flagsOf (l :: ls)).Nodup) (hflag : flag ∈ flagsOf ls) :
    l.cleanup ≠ some flag := by
  intro hl
  rw [flagsOf_cons_some hl] at h
  exact (List.nodup_cons.1 h).1 hflag

theorem liveFlag_of_mem {ls : List Local} (hnodup : (flagsOf ls).Nodup) (hl : l ∈ ls)
    (hflag : l.cleanup = some flag) : liveFlag flag ls = l.isLive := by
  induction ls with
  | nil => cases hl
  | cons a ls ih =>
    rcases List.mem_cons.1 hl with rfl | hl
    · rw [liveFlag, if_pos hflag]
    · rw [liveFlag, if_neg (ne_of_nodup hnodup (mem_flagsOf hl hflag))]
      exact ih (nodup_tail hnodup) hl

theorem liveFlag_append {ls ls' : List Local} (hnodup : (flagsOf (ls ++ ls')).Nodup)
    (hflag : flag ∈ flagsOf ls') : liveFlag flag (ls ++ ls') = liveFlag flag ls' := by
  induction ls with
  | nil => rfl
  | cons a ls ih =>
    have hmem : flag ∈ flagsOf (ls ++ ls') := by
      rw [flagsOf, filterMap_append]
      exact mem_append_right _ hflag
    rw [cons_append, liveFlag, if_neg (ne_of_nodup hnodup hmem)]
    exact ih (nodup_tail hnodup)

theorem liveFlag_append_left {ls : List Local} (hflag : flag ∈ flagsOf ls) (ls' : List Local) :
    liveFlag flag (ls ++ ls') = liveFlag flag ls := by
  induction ls with
  | nil => cases hflag
  | cons a ls ih =>
    rw [cons_append, liveFlag, liveFlag]
    by_cases ha : a.cleanup = some flag
    · rw [if_pos ha, if_pos ha]
    · rw [if_neg ha, if_neg ha]
      obtain ⟨l, hl, hlflag⟩ := List.mem_filterMap.1 hflag
      rcases List.mem_cons.1 hl with rfl | hl
      · exact absurd hlflag ha
      · exact ih (mem_flagsOf hl hlflag)

theorem mem_of_findLocal {name : Name} {ls : List Local} (h : findLocal name ls = some l) :
    l ∈ ls ∧ l.name = name :=
  ⟨mem_of_find?_eq_some h, by simpa using find?_some h⟩

theorem mem_flagsOf_of_cleanupOf {name : Name} {ls : List Local} (h : cleanupOf name ls = some flag) :
    flag ∈ flagsOf ls := by
  obtain ⟨l, hl, hflag⟩ := Option.bind_eq_some_iff.1 h
  exact mem_flagsOf (mem_of_findLocal hl).1 hflag

theorem findLocal_cons_pos {name : Name} (h : l.name = name) (ls : List Local) :
    findLocal name (l :: ls) = some l :=
  find?_cons_of_pos (by simpa using h)

theorem findLocal_cons_neg {name : Name} (h : l.name ≠ name) (ls : List Local) :
    findLocal name (l :: ls) = findLocal name ls :=
  find?_cons_of_neg (by simpa using h)

theorem hidesCleanup_of_tail {name : Name} {a : Local} {ls : List Local} (ha : a.name ≠ name)
    (h : HidesCleanup name ls) : HidesCleanup name (a :: ls) := by
  obtain ⟨l, hl, hnone, l', hl', hname, hsome⟩ := h
  refine ⟨l, ?_, hnone, l', mem_cons_of_mem _ hl', hname, hsome⟩
  rwa [findLocal_cons_neg ha]

theorem cleanupOf_setLive (name name' : Name) (isLive : Bool) (ls : List Local) :
    cleanupOf name (setLive name' isLive ls) = cleanupOf name ls := by
  induction ls with
  | nil => rfl
  | cons l ls ih =>
    by_cases hl' : l.name = name'
    · rw [setLive, if_pos hl']
      by_cases hl : l.name = name
      · rw [cleanupOf, cleanupOf, findLocal_cons_pos hl, findLocal_cons_pos (by exact hl)]
        rfl
      · rw [cleanupOf, cleanupOf, findLocal_cons_neg hl, findLocal_cons_neg (by exact hl)]
    · rw [setLive, if_neg hl']
      by_cases hl : l.name = name
      · rw [cleanupOf, cleanupOf, findLocal_cons_pos hl, findLocal_cons_pos hl]
      · rw [cleanupOf, cleanupOf, findLocal_cons_neg hl, findLocal_cons_neg hl]
        exact ih

theorem liveFlag_setLive {ls : List Local} (hnodup : (flagsOf ls).Nodup) (name : Name)
    (isLive : Bool) (flag : Nat) :
    liveFlag flag (setLive name isLive ls) =
      if cleanupOf name ls = some flag then isLive else liveFlag flag ls := by
  induction ls with
  | nil => rfl
  | cons l ls ih =>
    by_cases hl : l.name = name
    · rw [setLive, if_pos hl, cleanupOf, findLocal_cons_pos hl]
      by_cases hflag : l.cleanup = some flag
      · simp [liveFlag, hflag]
      · simp [liveFlag, hflag]
    · have hskip : cleanupOf name (l :: ls) = cleanupOf name ls := by
        rw [cleanupOf, findLocal_cons_neg hl, cleanupOf]
      rw [setLive, if_neg hl, liveFlag, ih (nodup_tail hnodup), hskip, liveFlag]
      by_cases hflag : l.cleanup = some flag
      · have hother : cleanupOf name ls ≠ some flag := fun hfound =>
          ne_of_nodup hnodup (mem_flagsOf_of_cleanupOf hfound) hflag
        rw [if_pos hflag, if_pos hflag, if_neg hother]
      · rw [if_neg hflag, if_neg hflag]

theorem liveFlag_moveAll {ls : List Local} (hnodup : (flagsOf ls).Nodup) (names : List Name)
    (flag : Nat) :
    liveFlag flag (moveAll names ls) =
      (liveFlag flag ls && !decide (∃ name ∈ names, cleanupOf name ls = some flag)) := by
  induction names generalizing ls with
  | nil => simp [moveAll]
  | cons name names ih =>
    have hnodup' : (flagsOf (setLive name false ls)).Nodup := by
      rwa [flagsOf_of_shape (shape_setLive name false ls)]
    rw [moveAll, ih hnodup', liveFlag_setLive hnodup]
    simp only [cleanupOf_setLive]
    by_cases hname : cleanupOf name ls = some flag
    · simp [hname]
    · simp [hname]

theorem find_registeredOf {name : Name} : ∀ {ls : List Local}, ¬ HidesCleanup name ls →
    ((registeredOf ls).find? (fun c => c.varName = name)).map ScopeCleanup.dropFlag = cleanupOf name ls
  | [], _ => rfl
  | a :: ls, h => by
    by_cases ha : a.name = name
    · have hfind := findLocal_cons_pos ha ls
      cases hflag : a.cleanup with
      | some flag => simp [registeredOf, registered, cleanupOf, hfind, hflag, ha]
      | none =>
        have hnone : (registeredOf ls).find? (fun c => c.varName = name) = none := by
          rw [find?_eq_none]
          intro c hc
          obtain ⟨l, hl, hlc⟩ := List.mem_filterMap.1 hc
          obtain ⟨flag, hlflag, rfl⟩ := Option.map_eq_some_iff.1 hlc
          intro hname
          refine h ⟨a, hfind, hflag, l, mem_cons_of_mem _ hl, by simpa using hname, ?_⟩
          rw [hlflag]
          exact nofun
        have hskip : registeredOf (a :: ls) = registeredOf ls := by
          simp [registeredOf, registered, hflag]
        rw [hskip, hnone, cleanupOf, hfind]
        exact hflag.symm
    · have ih := find_registeredOf fun hhides => h (hidesCleanup_of_tail ha hhides)
      rw [cleanupOf, findLocal_cons_neg ha, ← cleanupOf, ← ih]
      cases hflag : a.cleanup with
      | none => simp [registeredOf, registered, hflag]
      | some flag => simp [registeredOf, registered, hflag, ha]

def FlagsAgree (flags : Nat → Bool) (ls : List Local) : Prop :=
  ∀ flag ∈ flagsOf ls, flags flag = liveFlag flag ls

variable {flags : Nat → Bool} {ls ls' : List Local}

theorem FlagsAgree.congr {flags' : Nat → Bool} (h : FlagsAgree flags ls)
    (hflags : ∀ flag ∈ flagsOf ls, flags' flag = flags flag) : FlagsAgree flags' ls :=
  fun flag hflag => (hflags flag hflag).trans (h flag hflag)

theorem FlagsAgree.right (h : FlagsAgree flags (ls ++ ls')) (hnodup : (flagsOf (ls ++ ls')).Nodup) :
    FlagsAgree flags ls' := by
  intro flag hflag
  rw [← liveFlag_append hnodup hflag]
  apply h
  rw [flagsOf, filterMap_append]
  exact mem_append_right _ hflag

theorem FlagsAgree.outer (n : Nat) (h : FlagsAgree flags ls) (hnodup : (flagsOf ls).Nodup) :
    FlagsAgree flags (outer n ls) := by
  rw [← inner_append_outer n ls] at h hnodup
  exact h.right hnodup

theorem FlagsAgree.left (h : FlagsAgree flags (ls ++ ls')) : FlagsAgree flags ls := by
  intro flag hflag
  rw [← liveFlag_append_left hflag ls']
  apply h
  rw [flagsOf, filterMap_append]
  exact mem_append_left _ hflag

theorem FlagsAgree.tail (h : FlagsAgree flags (l :: ls)) (hnodup : (flagsOf (l :: ls)).Nodup) :
    FlagsAgree flags ls :=
  @FlagsAgree.right _ [l] _ h hnodup

theorem execute_cleanups : ∀ {ls : List Local} {flags : Nat → Bool}, FlagsAgree flags ls →
    (flagsOf ls).Nodup →
      (execute ((registeredOf ls).map emitScopeCleanup) flags).1 = liveCleanups ls ∧
        ∀ flag, flag ∉ flagsOf ls →
          (execute ((registeredOf ls).map emitScopeCleanup) flags).2 flag = flags flag
  | [], flags, _, _ => ⟨rfl, fun _ _ => rfl⟩
  | a :: ls, flags, hagree, hnodup => by
    have htail := hagree.tail hnodup
    have hnodup' := nodup_tail hnodup
    cases ha : a.cleanup with
    | none =>
      have hregistered : registeredOf (a :: ls) = registeredOf ls := by
        simp [registeredOf, registered, ha]
      have hlive : liveCleanups (a :: ls) = liveCleanups ls := by
        simp [liveCleanups, liveCleanup, ha]
      rw [hregistered, flagsOf_cons_none ha, hlive]
      exact execute_cleanups htail hnodup'
    | some flag =>
      have hregistered : registeredOf (a :: ls) = ⟨a.name, flag⟩ :: registeredOf ls := by
        simp [registeredOf, registered, ha]
      have hvalue : flags flag = a.isLive := by
        rw [hagree flag (mem_flagsOf mem_cons_self ha), liveFlag, if_pos ha]
      rw [hregistered, flagsOf_cons_some ha, map_cons]
      cases hlive : a.isLive with
      | false =>
        have hskip : liveCleanups (a :: ls) = liveCleanups ls := by
          simp [liveCleanups, liveCleanup, hlive]
        obtain ⟨hcalls, hrest⟩ := execute_cleanups htail hnodup'
        simp only [emitScopeCleanup, execute, hvalue, hlive, hskip]
        exact ⟨hcalls, fun f hf => hrest f fun hmem => hf (mem_cons_of_mem _ hmem)⟩
      | true =>
        have hcons : liveCleanups (a :: ls) = flag :: liveCleanups ls := by
          simp [liveCleanups, liveCleanup, hlive, ha]
        have hagree' : FlagsAgree (Function.update flags flag false) ls := by
          refine htail.congr fun f hf => Function.update_of_ne ?_ ..
          rintro rfl
          exact ne_of_nodup hnodup hf ha
        obtain ⟨hcalls, hrest⟩ := execute_cleanups hagree' hnodup'
        simp only [emitScopeCleanup, execute, hvalue, hlive, if_true, hcons]
        refine ⟨congrArg (List.cons flag) hcalls, fun f hf => ?_⟩
        rw [mem_cons, not_or] at hf
        exact (hrest f hf.2).trans (Function.update_of_ne hf.1 ..)

theorem execute_append (is is' : List Instruction) (flags : Nat → Bool) :
    execute (is ++ is') flags =
      ((execute is flags).1 ++ (execute is' (execute is flags).2).1,
        (execute is' (execute is flags).2).2) := by
  induction is generalizing flags with
  | nil => rfl
  | cons i is ih =>
    cases i with
    | storeFlag flag initialized => exact ih _
    | runCleanup flag =>
      simp only [cons_append, execute]
      split
      · rw [ih]
        rfl
      · exact ih _

theorem execute_moves (g : CodeGenerator) (names : List Name) (flags : Nat → Bool) (flag : Nat) :
    (execute (names.flatMap (fun name => g.setActiveDropFlag name false)) flags).2 flag =
      (flags flag && !decide (∃ name ∈ names, g.findActiveDropFlag name = some flag)) := by
  induction names generalizing flags with
  | nil => simp [execute]
  | cons name names ih =>
    rw [flatMap_cons, execute_append, ih]
    cases hname : g.findActiveDropFlag name with
    | none => simp [CodeGenerator.setActiveDropFlag, hname, execute]
    | some found =>
      by_cases hflag : flag = found
      · simp [CodeGenerator.setActiveDropFlag, hname, execute, hflag]
      · have hne : ¬ found = flag := fun e => hflag e.symm
        simp [CodeGenerator.setActiveDropFlag, hname, execute, hflag, hne]

end Mlang.DropFlags
