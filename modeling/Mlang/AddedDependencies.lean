import Mlang.ConditionalRegions
import Mlang.LockRoundTrip
import Mlang.ManifestScans

namespace Mlang.AddedDependencies

open BracketedText (Text trimCopy)
open DependencyLocks TomlText ManifestDependencies ManifestScans List

def headerLine (sectionName : Text) : Text := '[' :: sectionName ++ [']']

def isSectionLine (sectionName line : Text) : Bool := stripTomlComment line = headerLine sectionName

def lineHasDep (name line : Text) : Bool :=
  let t := stripTomlComment line
  t ≠ [] && t.head? ≠ some '#' && decide (name <+: t) && decide ('=' ∈ t)

def endsSection (line : Text) : Bool := (trimCopy line).head? = some '['

def sectionLines (sectionName : Text) (lines : List Text) : List Text :=
  ((lines.dropWhile fun line => !isSectionLine sectionName line).tail).takeWhile fun line =>
    !endsSection line

structure Insertion where
  front : List Text
  opening : List Text
  back : List Text
  deriving DecidableEq

def insertion (sectionName : Text) (lines : List Text) : Insertion :=
  match lines.dropWhile fun line => !isSectionLine sectionName line with
  | [] => ⟨lines, [headerLine sectionName], []⟩
  | header :: rest =>
    ⟨(lines.takeWhile fun line => !isSectionLine sectionName line) ++
        header :: rest.takeWhile fun line => !endsSection line,
      [], rest.dropWhile fun line => !endsSection line⟩

def addDepToSection (content sectionName name line : Text) : Bool × Text :=
  let lines := textLines content
  if (sectionLines sectionName lines).any (lineHasDep name) then (false, content)
  else
    let place := insertion sectionName lines
    (true, ['\n'].intercalate (place.front ++ place.opening ++ line :: place.back))

variable (content sectionName name line : Text)

def readsSection (header : Text) : Bool := dependencySection header || header = sectionName

def HasKey : Prop :=
  ∃ entry ∈ sectionAssignments (readsSection sectionName) content,
    entry.header = sectionName ∧ entry.assignment.key = name

/-- The line stands between the lines that there were, in a new section or in one that there was. -/
def LineInserted (old new : List Text) : Prop :=
  ∃ front back, old = front ++ back ∧
    (new = front ++ line :: back ∨ (back = [] ∧ new = front ++ [headerLine sectionName, line]))

def described : List DepSpec := depsAfter ⟨0, sectionName⟩ [line]

def DepsInserted (old new : List DepSpec) : Prop :=
  ∃ front back, old = front ++ back ∧ new = front ++ described sectionName line ++ back

structure EditsOneEntry (result : Bool × Text) : Prop where
  refused : result = (false, content) ↔ HasKey content sectionName name
  added : ¬ HasKey content sectionName name → result.1 = true ∧
    LineInserted sectionName line (textLines content) (textLines result.2) ∧
    DepsInserted sectionName line (parseSourceDeps content) (parseSourceDeps result.2)

def tableStart (lines : List Text) : Nat :=
  (lines.takeWhile fun line => !isSectionLine sectionName line).length + 1

/-- The line of that number stands in the first table of the section. -/
def InTable (lines : List Text) (i : Nat) : Prop :=
  tableStart sectionName lines ≤ i ∧ i < tableStart sectionName lines + (sectionLines sectionName lines).length

/-- The line of that number is read as an assignment of the section. -/
def ReadAs (lines : List Text) (i : Nat) (h : i < lines.length) : Prop :=
  ∃ entry ∈ (scanLine (readsSection sectionName)
      (scanLines (readsSection sectionName) start (lines.take i) (lines.drop i)).2 lines[i]
      (lines.drop (i + 1))).1,
    entry.header = sectionName ∧ entry.assignment.key = name

/-- The lines that begin with the name, in the first table, are those that are read with it as their key. -/
def KeysTold : Prop :=
  ∀ i (h : i < (textLines content).length),
    (InTable sectionName (textLines content) i ∧ lineHasDep name (textLines content)[i] = true) ↔
      ReadAs sectionName name (textLines content) i h

def placeInFront : Place :=
  (scanLines dependencySection start (insertion sectionName (textLines content)).front
    ((insertion sectionName (textLines content)).opening ++ [line])).2

structure PlainInsertion : Prop where
  ne_nil : line ≠ []
  oneLine : '\n' ∉ line
  own : (scanLine dependencySection ⟨0, sectionName⟩ line [[]]).2 = ⟨0, sectionName⟩
  outside : (placeInFront content sectionName line).collected = 0
  inside : (insertion sectionName (textLines content)).opening = [] →
    (placeInFront content sectionName line).header = sectionName
  opened : (insertion sectionName (textLines content)).opening ≠ [] → '\n' ∉ sectionName ∧
    sectionHeader (stripTomlComment (headerLine sectionName)) = some sectionName
  last : (insertion sectionName (textLines content)).back.getLast? ≠ some []

section Scans

variable {wanted : Text → Bool} {line y : Text} {front ys : List Text}

theorem parseTomlAssignment_front
    (h : (parseTomlAssignment line (front ++ y :: ys)).2 ≤ front.length) (zs : List Text) :
    parseTomlAssignment line (front ++ zs) = parseTomlAssignment line (front ++ y :: ys) := by
  rw [parseTomlAssignment] at h
  rw [parseTomlAssignment, parseTomlAssignment]
  cases hsplit : splitAssignment .outside line with
  | none => rfl
  | some parts =>
    rw [hsplit] at h
    dsimp only at h ⊢
    rw [collectMultilineTomlValue_front h]

theorem scanLine_front {place : Place}
    (h : (scanLine wanted place line (front ++ y :: ys)).2.collected ≤ front.length) (zs : List Text) :
    scanLine wanted place line (front ++ zs) = scanLine wanted place line (front ++ y :: ys) := by
  obtain ⟨collected, header⟩ := place
  cases collected with
  | succ collected => rfl
  | zero =>
    rw [scanLine] at h
    rw [scanLine, scanLine]
    dsimp only at h ⊢
    by_cases hempty : stripTomlComment line = []
    · rw [if_pos hempty, if_pos hempty]
    · rw [if_neg hempty] at h
      rw [if_neg hempty, if_neg hempty]
      cases hheader : sectionHeader (stripTomlComment line) with
      | some header => rfl
      | none =>
        rw [hheader] at h
        dsimp only at h ⊢
        by_cases hwanted : wanted header = true
        · rw [if_pos hwanted] at h
          rw [if_pos hwanted, if_pos hwanted, parseTomlAssignment_front h]
        · rw [if_neg hwanted, if_neg hwanted]

theorem collected_scanLines (place : Place) (front back : List Text) :
    place.collected ≤ front.length + (scanLines wanted place front back).2.collected := by
  induction front generalizing place with
  | nil => exact Nat.le_add_left _ _
  | cons line front ih =>
    have hnext := ih (scanLine wanted place line (front ++ back)).2
    rw [scanLines, length_cons]
    dsimp only
    obtain ⟨collected, header⟩ := place
    cases collected with
    | zero => exact Nat.zero_le _
    | succ collected =>
      have hscan : (scanLine wanted ⟨collected + 1, header⟩ line (front ++ back)).2.collected =
          collected := rfl
      rw [hscan] at hnext
      dsimp only
      omega

theorem scanLines_front {place : Place}
    (h : (scanLines wanted place front (y :: ys)).2.collected = 0) (zs : List Text) :
    scanLines wanted place front zs = scanLines wanted place front (y :: ys) := by
  induction front generalizing place with
  | nil => rfl
  | cons line front ih =>
    have hrest : (scanLines wanted (scanLine wanted place line (front ++ y :: ys)).2 front
      (y :: ys)).2.collected = 0 := h
    have hcollected := @collected_scanLines wanted
      (scanLine wanted place line (front ++ y :: ys)).2 front (y :: ys)
    have hfirst := @scanLine_front wanted line y front ys place (by omega) zs
    rw [scanLines, scanLines, hfirst, ih hrest]

theorem scanLines_append (place : Place) (front middle back : List Text) :
    scanLines wanted place (front ++ middle) back =
      ((scanLines wanted place front (middle ++ back)).1 ++
        (scanLines wanted (scanLines wanted place front (middle ++ back)).2 middle back).1,
        (scanLines wanted (scanLines wanted place front (middle ++ back)).2 middle back).2) := by
  induction front generalizing place with
  | nil => rfl
  | cons line front ih =>
    rw [cons_append, scanLines, scanLines, ih, append_assoc]
    simp only [append_assoc]

end Scans

variable {content sectionName name line : Text} {lines : List Text}

theorem newline_notMem_textLines (content : Text) : ∀ line ∈ textLines content, '\n' ∉ line := by
  intro line hline
  rw [textLines] at hline
  split_ifs at hline
  · exact ConditionalRegions.notMem_of_mem_splitOn (mem_of_mem_dropLast hline)
  · exact ConditionalRegions.notMem_of_mem_splitOn hline

theorem textLines_intercalate (hne : lines ≠ []) (hlines : ∀ line ∈ lines, '\n' ∉ line)
    (hlast : lines.getLast? ≠ some []) : textLines (['\n'].intercalate lines) = lines := by
  rw [textLines, splitOn_intercalate '\n' hlines hne]
  exact if_neg hlast

theorem insertion_lines (sectionName : Text) (lines : List Text) :
    lines = (insertion sectionName lines).front ++ (insertion sectionName lines).back := by
  have hparts := takeWhile_append_dropWhile (p := fun line => !isSectionLine sectionName line)
    (l := lines)
  rw [insertion]
  cases hrest : lines.dropWhile fun line => !isSectionLine sectionName line with
  | nil => exact (append_nil lines).symm
  | cons header rest =>
    dsimp only
    rw [append_assoc, cons_append, takeWhile_append_dropWhile, ← hrest, hparts]

theorem insertion_opening (sectionName : Text) (lines : List Text) :
    (insertion sectionName lines).opening = [] ∨
      ((insertion sectionName lines).opening = [headerLine sectionName] ∧
        (insertion sectionName lines).back = []) := by
  rw [insertion]
  cases lines.dropWhile fun line => !isSectionLine sectionName line with
  | nil => exact .inr ⟨rfl, rfl⟩
  | cons header rest => exact .inl rfl

theorem addDepToSection_refused :
    addDepToSection content sectionName name line = (false, content) ↔
      ∃ other ∈ sectionLines sectionName (textLines content), lineHasDep name other = true := by
  rw [← any_eq_true, addDepToSection]
  dsimp only
  split_ifs with hfound
  · exact iff_of_true rfl hfound
  · exact iff_of_false (fun h => Bool.false_ne_true (congrArg Prod.fst h).symm) hfound

theorem getElem?_table {i : Nat} (h : i < (sectionLines sectionName lines).length) :
    lines[tableStart sectionName lines + i]? = (sectionLines sectionName lines)[i]? := by
  have hparts := takeWhile_append_dropWhile (p := fun line => !isSectionLine sectionName line) (l := lines)
  rw [sectionLines] at h ⊢
  cases hrest : lines.dropWhile fun line => !isSectionLine sectionName line with
  | nil =>
    rw [hrest] at h
    exact absurd h (Nat.not_lt_zero i)
  | cons header rest =>
    rw [hrest, tail_cons] at h
    rw [hrest] at hparts
    have hwhole : (rest.takeWhile fun line => !endsSection line)[i]? = rest[i]? := by
      conv_rhs => rw [← takeWhile_append_dropWhile (p := fun line => !endsSection line) (l := rest)]
      exact (getElem?_append_left h).symm
    rw [tail_cons, tableStart, hwhole]
    generalize lines.takeWhile (fun line => !isSectionLine sectionName line) = before at hparts ⊢
    rw [← hparts, Nat.add_assoc, getElem?_append_right (Nat.le_add_right _ _), Nat.add_sub_cancel_left, Nat.add_comm,
      getElem?_cons_succ]

theorem exists_recognised : (∃ other ∈ sectionLines sectionName lines, lineHasDep name other = true) ↔
    ∃ i, ∃ h : i < lines.length, InTable sectionName lines i ∧ lineHasDep name lines[i] = true := by
  constructor
  · rintro ⟨other, hmem, hdep⟩
    obtain ⟨j, hj, rfl⟩ := mem_iff_getElem.1 hmem
    have hget := getElem?_table hj
    rw [getElem?_eq_getElem hj] at hget
    obtain ⟨hlt, hother⟩ := List.getElem?_eq_some_iff.1 hget
    exact ⟨_, hlt, ⟨Nat.le_add_right _ _, Nat.add_lt_add_left hj _⟩, hother ▸ hdep⟩
  · rintro ⟨i, hi, ⟨hstart, hend⟩, hdep⟩
    obtain ⟨j, rfl⟩ := Nat.exists_eq_add_of_le hstart
    have hj := Nat.lt_of_add_lt_add_left hend
    have hget := getElem?_table hj
    rw [getElem?_eq_getElem hi, getElem?_eq_getElem hj] at hget
    exact ⟨_, getElem_mem hj, Option.some.inj hget ▸ hdep⟩

theorem hasKey_iff : HasKey content sectionName name ↔
    ∃ i, ∃ h : i < (textLines content).length, ReadAs sectionName name (textLines content) i h := by
  have hmem : ∀ entry, entry ∈ sectionAssignments (readsSection sectionName) content ↔ _ :=
    fun entry => (mem_assignmentsIn : entry ∈ assignmentsIn _ start.collected start.header _ ↔ _)
  constructor
  · rintro ⟨entry, hentry, hkey⟩
    obtain ⟨i, h, hread⟩ := (hmem entry).1 hentry
    exact ⟨i, h, entry, hread, hkey⟩
  · rintro ⟨i, h, entry, hread, hkey⟩
    exact ⟨entry, (hmem entry).2 ⟨i, h, hread⟩, hkey⟩

theorem refused_iff : addDepToSection content sectionName name line = (false, content) ↔
    ∃ i, ∃ h : i < (textLines content).length, InTable sectionName (textLines content) i ∧
      lineHasDep name (textLines content)[i] = true :=
  addDepToSection_refused.trans exists_recognised

theorem KeysTold.refused (h : KeysTold content sectionName name) :
    addDepToSection content sectionName name line = (false, content) ↔ HasKey content sectionName name :=
  refused_iff.trans <| (exists_congr fun i => exists_congr fun hi => h i hi).trans hasKey_iff.symm

theorem scanLines_insertion (hplain : PlainInsertion content sectionName line) :
    ∃ entries, ∀ back,
      scanLines dependencySection start ((insertion sectionName (textLines content)).front ++
        (insertion sectionName (textLines content)).opening) (line :: back) =
          (entries, ⟨0, sectionName⟩) ∧
      ((insertion sectionName (textLines content)).opening = [] → scanLines dependencySection start
        (insertion sectionName (textLines content)).front back = (entries, ⟨0, sectionName⟩)) ∧
      ((insertion sectionName (textLines content)).opening ≠ [] → (scanLines dependencySection start
        (insertion sectionName (textLines content)).front []).1 = entries) := by
  have houtside := hplain.outside
  have hinside := hplain.inside
  rw [placeInFront] at houtside hinside
  refine ⟨(scanLines dependencySection start (insertion sectionName (textLines content)).front
    ((insertion sectionName (textLines content)).opening ++ [line])).1, fun back => ?_⟩
  rcases insertion_opening sectionName (textLines content) with hopening | ⟨hopening, -⟩
  · have hheader := hinside hopening
    rw [hopening, nil_append] at houtside hheader ⊢
    have hplace : ∀ zs, scanLines dependencySection start
        (insertion sectionName (textLines content)).front zs =
          ((scanLines dependencySection start (insertion sectionName (textLines content)).front
            [line]).1, ⟨0, sectionName⟩) := by
      intro zs
      rw [scanLines_front houtside zs]
      generalize scanLines dependencySection start (insertion sectionName (textLines content)).front
        [line] = result at houtside hheader
      obtain ⟨entries, collected, header⟩ := result
      obtain rfl : collected = 0 := houtside
      obtain rfl : header = sectionName := hheader
      rfl
    rw [append_nil]
    exact ⟨hplace _, fun _ => hplace _, fun h => absurd rfl h⟩
  · obtain ⟨-, hopened⟩ := hplain.opened (by rw [hopening]; exact cons_ne_nil _ _)
    rw [hopening, singleton_append] at houtside ⊢
    have hne : stripTomlComment (headerLine sectionName) ≠ [] := by
      intro h
      rw [h] at hopened
      cases hopened
    have hscan : ∀ header lines, scanLine dependencySection ⟨0, header⟩ (headerLine sectionName) lines =
        ([], ⟨0, sectionName⟩) := by
      intro header lines
      rw [scanLine]
      dsimp only
      rw [if_neg hne, hopened]
    refine ⟨?_, fun h => absurd h (cons_ne_nil _ _), fun _ => ?_⟩
    · have hfront := scanLines_front houtside (headerLine sectionName :: line :: back)
      rw [scanLines_append, singleton_append, hfront]
      generalize scanLines dependencySection start (insertion sectionName (textLines content)).front
        [headerLine sectionName, line] = result at houtside ⊢
      obtain ⟨entries, collected, header⟩ := result
      obtain rfl : collected = 0 := houtside
      dsimp only
      rw [scanLines, nil_append, hscan]
      dsimp only
      rw [scanLines, append_nil, append_nil]
    · rw [scanLines_front houtside]

theorem depsAfter_own (hown : (scanLine dependencySection ⟨0, sectionName⟩ line [[]]).2 = ⟨0, sectionName⟩)
    (back : List Text) : depsAfter ⟨0, sectionName⟩ (line :: back) =
      described sectionName line ++ depsAfter ⟨0, sectionName⟩ back := by
  have hcollected : (scanLine dependencySection ⟨0, sectionName⟩ line ([] ++ [[]])).2.collected ≤
      ([] : List Text).length := by
    rw [nil_append, hown]
    exact le_refl 0
  have hscan : ∀ zs, scanLine dependencySection ⟨0, sectionName⟩ line zs =
      scanLine dependencySection ⟨0, sectionName⟩ line [[]] := fun zs => scanLine_front hcollected zs
  have hdeps : ∀ zs, depsAfter ⟨0, sectionName⟩ (line :: zs) =
      describedDeps (scanLine dependencySection ⟨0, sectionName⟩ line [[]]).1 ++
        depsAfter ⟨0, sectionName⟩ zs := by
    intro zs
    have hcons := @assignmentsIn_cons dependencySection ⟨0, sectionName⟩ line zs
    rw [depsAfter, hcons, hscan, hown, describedDeps_append]
    rfl
  have hnone : depsAfter ⟨0, sectionName⟩ [] = [] := rfl
  rw [described, hdeps, hdeps, hnone, append_nil]

theorem textLines_added (hplain : PlainInsertion content sectionName line) :
    textLines (['\n'].intercalate ((insertion sectionName (textLines content)).front ++
      (insertion sectionName (textLines content)).opening ++
        line :: (insertion sectionName (textLines content)).back)) =
      (insertion sectionName (textLines content)).front ++
        (insertion sectionName (textLines content)).opening ++
          line :: (insertion sectionName (textLines content)).back := by
  have hold := newline_notMem_textLines content
  rw [insertion_lines sectionName (textLines content)] at hold
  obtain ⟨hfront, hback⟩ := forall_mem_append.1 hold
  refine textLines_intercalate (by simp) ?_ ?_
  · refine forall_mem_append.2 ⟨forall_mem_append.2 ⟨hfront, ?_⟩,
      forall_mem_cons.2 ⟨hplain.oneLine, hback⟩⟩
    rcases insertion_opening sectionName (textLines content) with hopening | ⟨hopening, -⟩
    · rw [hopening]
      exact forall_mem_nil _
    · obtain ⟨hname, -⟩ := hplain.opened (by rw [hopening]; exact cons_ne_nil _ _)
      rw [hopening]
      refine forall_mem_singleton.2 fun h => ?_
      rw [headerLine, mem_append, mem_cons] at h
      rcases h with (h | h) | h
      · exact absurd h (by decide)
      · exact hname h
      · exact absurd h (by decide)
  · rw [getLast?_append_of_ne_nil _ (cons_ne_nil _ _), getLast?_cons]
    have hlast := hplain.last
    cases hback : (insertion sectionName (textLines content)).back.getLast? with
    | none =>
      rw [Option.getD_none]
      exact fun h => hplain.ne_nil (Option.some.inj h)
    | some last =>
      rw [hback] at hlast
      exact hlast

theorem inserted_plain (hplain : PlainInsertion content sectionName line) :
    LineInserted sectionName line (textLines content) ((insertion sectionName (textLines content)).front ++
        (insertion sectionName (textLines content)).opening ++
          line :: (insertion sectionName (textLines content)).back) ∧
      DepsInserted sectionName line (parseSourceDeps content)
        (parseSourceDeps (['\n'].intercalate ((insertion sectionName (textLines content)).front ++
          (insertion sectionName (textLines content)).opening ++
            line :: (insertion sectionName (textLines content)).back))) := by
  have hold := insertion_lines sectionName (textLines content)
  obtain ⟨entries, hscan⟩ := scanLines_insertion hplain
  have hnew := parseSourceDeps_append (textLines_added hplain)
  rw [depsBefore, (hscan _).1, depsAfter_own hplain.own] at hnew
  have hkept := parseSourceDeps_append hold
  rcases insertion_opening sectionName (textLines content) with hopening | ⟨hopening, hback⟩
  · refine ⟨⟨_, _, hold, .inl ?_⟩, describedDeps entries, _, ?_, hnew.trans (append_assoc _ _ _).symm⟩
    · rw [hopening, append_nil]
    · rw [hkept, depsBefore, (hscan _).2.1 hopening]
  · have hne : (insertion sectionName (textLines content)).opening ≠ [] := by
      rw [hopening]
      exact cons_ne_nil _ _
    refine ⟨⟨_, _, hold, .inr ⟨hback, ?_⟩⟩, describedDeps entries, _, ?_,
      hnew.trans (append_assoc _ _ _).symm⟩
    · rw [hopening, hback, append_assoc]
      rfl
    · rw [hkept, depsBefore, hback, (hscan []).2.2 hne]
      rfl

def oneDependency (name : String) : Text :=
  "[dependencies]\n".toList ++ name.toList ++ " = \x7b path = \"p\" \x7d\n".toList

end Mlang.AddedDependencies
