import Mlang.ManifestDependencies

namespace Mlang.ManifestScans

open BracketedText (Text)
open DependencyLocks TomlText ManifestDependencies

structure Place where
  collected : Nat
  header : Text
  deriving DecidableEq

def start : Place := ⟨0, []⟩

/-- What one line yields in front of the `lines` behind it, and where the reading stands then. -/
def scanLine (wanted : Text → Bool) (place : Place) (line : Text) (lines : List Text) :
    List SectionAssignment × Place :=
  match place.collected with
  | collected + 1 => ([], ⟨collected, place.header⟩)
  | 0 =>
    let t := stripTomlComment line
    if t = [] then ([], place)
    else
      match sectionHeader t with
      | some header => ([], ⟨0, header⟩)
      | none =>
        if wanted place.header then
          let parsed := parseTomlAssignment t lines
          ((parsed.1.map fun assignment => ⟨place.header, t, assignment⟩).toList,
            ⟨parsed.2, place.header⟩)
        else ([], place)

def scanLines (wanted : Text → Bool) (place : Place) : List Text → List Text →
    List SectionAssignment × Place
  | [], _ => ([], place)
  | line :: front, back =>
    let first := scanLine wanted place line (front ++ back)
    let later := scanLines wanted first.2 front back
    (first.1 ++ later.1, later.2)

variable {wanted : Text → Bool} {place : Place} {line : Text} {lines front back : List Text}

theorem assignmentsIn_cons : assignmentsIn wanted place.collected place.header (line :: lines) =
    (scanLine wanted place line lines).1 ++
      assignmentsIn wanted (scanLine wanted place line lines).2.collected
        (scanLine wanted place line lines).2.header lines := by
  obtain ⟨collected, current⟩ := place
  cases collected with
  | succ collected => rfl
  | zero =>
    rw [assignmentsIn, scanLine]
    dsimp only
    by_cases hempty : stripTomlComment line = []
    · rw [if_pos hempty, if_pos hempty]
      rfl
    · rw [if_neg hempty, if_neg hempty]
      cases sectionHeader (stripTomlComment line) with
      | some header => rfl
      | none =>
        dsimp only
        by_cases hwanted : wanted current = true
        · rw [if_pos hwanted, if_pos hwanted]
        · rw [if_neg hwanted, if_neg hwanted]
          rfl

theorem assignmentsIn_append (place : Place) (front back : List Text) :
    assignmentsIn wanted place.collected place.header (front ++ back) =
      (scanLines wanted place front back).1 ++
        assignmentsIn wanted (scanLines wanted place front back).2.collected
          (scanLines wanted place front back).2.header back := by
  induction front generalizing place with
  | nil => rfl
  | cons line front ih =>
    rw [List.cons_append, assignmentsIn_cons, ih]
    simp only [scanLines, List.append_assoc]

theorem mem_assignmentsIn {entry : SectionAssignment} :
    entry ∈ assignmentsIn wanted place.collected place.header lines ↔ ∃ i, ∃ h : i < lines.length,
      entry ∈ (scanLine wanted (scanLines wanted place (lines.take i) (lines.drop i)).2 lines[i]
        (lines.drop (i + 1))).1 := by
  induction lines generalizing place with
  | nil => exact iff_of_false List.not_mem_nil fun ⟨i, h, _⟩ => Nat.not_lt_zero i h
  | cons line lines ih =>
    have hlater : ∀ i, (scanLines wanted place ((line :: lines).take (i + 1)) ((line :: lines).drop (i + 1))).2 =
        (scanLines wanted (scanLine wanted place line lines).2 (lines.take i) (lines.drop i)).2 := by
      intro i
      rw [List.take_succ_cons, List.drop_succ_cons, scanLines, List.take_append_drop]
    rw [assignmentsIn_cons, List.mem_append, ih]
    constructor
    · rintro (h | ⟨i, hi, h⟩)
      · exact ⟨0, Nat.zero_lt_succ _, h⟩
      · refine ⟨i + 1, Nat.succ_lt_succ hi, ?_⟩
        rw [hlater]
        exact h
    · rintro ⟨i, hi, h⟩
      cases i with
      | zero => exact .inl h
      | succ i =>
        rw [hlater] at h
        exact .inr ⟨i, Nat.lt_of_succ_lt_succ hi, h⟩

theorem scanLine_assignment (hcollected : place.collected = 0) (hline : stripTomlComment line ≠ [])
    (hheader : sectionHeader (stripTomlComment line) = none) (hwanted : wanted place.header = true) :
    scanLine wanted place line lines =
      (((parseTomlAssignment (stripTomlComment line) lines).1.map fun assignment =>
          ⟨place.header, stripTomlComment line, assignment⟩).toList,
        ⟨(parseTomlAssignment (stripTomlComment line) lines).2, place.header⟩) := by
  obtain ⟨collected, header⟩ := place
  obtain rfl : collected = 0 := hcollected
  rw [scanLine]
  dsimp only at hwanted ⊢
  rw [if_neg hline, hheader]
  dsimp only
  rw [if_pos hwanted]

theorem sectionAssignments_append {content : Text} (h : textLines content = front ++ back) :
    sectionAssignments wanted content = (scanLines wanted start front back).1 ++
      assignmentsIn wanted (scanLines wanted start front back).2.collected
        (scanLines wanted start front back).2.header back := by
  rw [sectionAssignments, h]
  exact assignmentsIn_append start front back

def dependencySection (header : Text) : Bool :=
  header = "dependencies".toList || header = "c-dependencies".toList

def describedDeps (entries : List SectionAssignment) : List DepSpec :=
  entries.filterMap fun entry =>
    if '{' ∈ entry.line then
      depSpecOf (entry.header = "c-dependencies".toList) entry.assignment.key
        (parseInlineTable entry.line)
    else none

theorem parseSourceDeps_eq (content : Text) :
    parseSourceDeps content = describedDeps (sectionAssignments dependencySection content) :=
  rfl

theorem describedDeps_append (entries entries' : List SectionAssignment) :
    describedDeps (entries ++ entries') = describedDeps entries ++ describedDeps entries' :=
  List.filterMap_append

def depsBefore (front back : List Text) : List DepSpec :=
  describedDeps (scanLines dependencySection start front back).1

def depsAfter (place : Place) (back : List Text) : List DepSpec :=
  describedDeps (assignmentsIn dependencySection place.collected place.header back)

theorem depsAfter_cons {entry : SectionAssignment} {dep : DepSpec}
    (hscan : scanLine dependencySection place line lines = ([entry], place)) (hline : '{' ∈ entry.line)
    (hdep : depSpecOf (entry.header = "c-dependencies".toList) entry.assignment.key
      (parseInlineTable entry.line) = some dep) :
    depsAfter place (line :: lines) = dep :: depsAfter place lines := by
  have hentry : describedDeps [entry] = [dep] := by
    rw [describedDeps, List.filterMap_cons, if_pos hline, hdep]
    rfl
  rw [depsAfter, assignmentsIn_cons, hscan, describedDeps_append, hentry]
  rfl

theorem parseSourceDeps_append {content : Text} (h : textLines content = front ++ back) :
    parseSourceDeps content = depsBefore front back ++
      depsAfter (scanLines dependencySection start front back).2 back := by
  rw [parseSourceDeps_eq, sectionAssignments_append h, describedDeps_append]
  rfl

end Mlang.ManifestScans
