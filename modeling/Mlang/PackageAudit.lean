import Mlang.DependencyLocks
import Mlang.SemanticVersions

namespace Mlang.PackageAudit

open BracketedText (Text)
open OrderedTables DependencyLocks SemanticVersions List

/-- What `package_name` and `package_version` read in a manifest. -/
structure PackageManifest where
  name : Text
  version : Text
  deriving DecidableEq

abbrev Components := Table Text Text

def addLocked (components : Components) (entry : DependencyLockEntry) : Components :=
  if entry.resolvedVersion = [] then components
  else insert textBefore components entry.name entry.resolvedVersion

/-- `lock` is what the lock file holds, where there is one that can be read. -/
def ecosystemComponents (manifests : List PackageManifest) (lock : Option Lock) : Components :=
  let components := manifests.foldl
    (fun components manifest => insert textBefore components manifest.name manifest.version) []
  match lock with
  | none => components
  | some entries => (entries.map Prod.snd).foldl addLocked components

structure AdvisoryEntry where
  id : Text
  package : Text
  affected : Text
  severity : Text
  title : Text
  url : Text
  deriving DecidableEq

def severityRank (severity : Text) : Nat :=
  let severity := severity.map Char.toLower
  if severity = "critical".toList then 4
  else if severity = "high".toList then 3
  else if severity = "medium".toList ∨ severity = "moderate".toList then 2
  else if severity = "low".toList then 1
  else 0

def unknownSeverity (denySeverity : Text) : Bool :=
  denySeverity ≠ "any".toList && severityRank denySeverity = 0

def threshold (denySeverity : Text) : Nat :=
  if denySeverity = "any".toList then 0
  else severityRank (if denySeverity = [] then "high".toList else denySeverity)

def findingLine (advisory : AdvisoryEntry) (version : Text) : Text :=
  advisory.id ++ " [".toList ++
    (if advisory.severity = [] then "unknown".toList else advisory.severity) ++ "] ".toList ++
    advisory.package ++ " v".toList ++ version ++ " matches ".toList ++ advisory.affected ++
    (if advisory.title = [] then [] else ": ".toList ++ advisory.title) ++
    (if advisory.url = [] then [] else " (".toList ++ advisory.url ++ ")".toList)

structure AuditReport where
  code : Int
  findings : List (AdvisoryEntry × Text)
  message : Text
  deriving DecidableEq

def AuditReport.lines (report : AuditReport) : List Text :=
  report.findings.map fun finding => findingLine finding.1 finding.2

def matchingVersion (components : Components) (advisory : AdvisoryEntry) : Option Text :=
  (find components advisory.package).filter fun version =>
    semanticVersionSatisfies version advisory.affected

def denied (denySeverity : Text) (advisory : AdvisoryEntry) : Bool :=
  if denySeverity = "any".toList then true
  else threshold denySeverity ≤ severityRank advisory.severity

/-- `audit_packages` once the advisory database is read. -/
def auditPackages (manifests : List PackageManifest) (lock : Option Lock)
    (advisories : List AdvisoryEntry) (denySeverity : Text) : AuditReport :=
  let components := ecosystemComponents manifests lock
  if unknownSeverity denySeverity then
    { code := 1
      findings := []
      message := "Unknown audit severity '".toList ++ denySeverity ++
        "' (expected low, medium, high, critical, or any)".toList }
  else
    let findings := advisories.filterMap fun advisory =>
      (matchingVersion components advisory).map fun version => (advisory, version)
    { code := if findings.any (fun finding => denied denySeverity finding.1) then 1 else 0
      findings := findings
      message :=
        if findings = [] then
          "Audit found no known vulnerabilities in ".toList ++ Nat.toDigits 10 components.length ++
            " packages.".toList
        else
          "Audit found ".toList ++ Nat.toDigits 10 findings.length ++
            " matching advisory(s).".toList }

def auditedPairs (manifests : List PackageManifest) (lock : Option Lock) : List (Text × Text) :=
  manifests.map (fun manifest => (manifest.name, manifest.version)) ++
    (lock.getD []).map fun e => (e.2.name, e.2.resolvedVersion)

def Matches (advisory : AdvisoryEntry) (pair : Text × Text) : Prop :=
  pair.1 = advisory.package ∧ semanticVersionSatisfies pair.2 advisory.affected = true

/-- The pairs that are taken over, a later one in the place of an earlier one with its name. -/
def countedPairs (manifests : List PackageManifest) (lock : Option Lock) : List (Text × Text) :=
  manifests.map (fun manifest => (manifest.name, manifest.version)) ++
    ((lock.getD []).map fun e => (e.2.name, e.2.resolvedVersion)).filter fun pair => pair.2 ≠ []

def lastPair (pairs : List (Text × Text)) (name : Text) : Option (Text × Text) :=
  pairs.reverse.find? fun pair => pair.1 = name

theorem find_foldl_insert (pairs : List (Text × Text)) (components : Components) (name : Text) :
    find (pairs.foldl (fun components pair => insert textBefore components pair.1 pair.2)
        components) name = ((lastPair pairs name).map Prod.snd).or (find components name) := by
  induction pairs generalizing components with
  | nil => rfl
  | cons pair pairs ih =>
    rw [foldl_cons, ih, find_insert, lastPair, lastPair, reverse_cons, find?_append]
    cases hlast : pairs.reverse.find? fun pair => pair.1 = name with
    | some last => rfl
    | none =>
      by_cases hname : name = pair.1
      · simp [hname]
      · simp [hname, Ne.symm hname]

theorem ecosystemComponents_eq (manifests : List PackageManifest) (lock : Option Lock) :
    ecosystemComponents manifests lock = (countedPairs manifests lock).foldl
      (fun components pair => insert textBefore components pair.1 pair.2) [] := by
  have hlocked : ∀ (entries : Lock) (components : Components),
      (entries.map Prod.snd).foldl addLocked components =
        ((entries.map fun e => (e.2.name, e.2.resolvedVersion)).filter fun pair =>
            pair.2 ≠ []).foldl
          (fun components pair => insert textBefore components pair.1 pair.2) components := by
    intro entries
    induction entries with
    | nil => exact fun _ => rfl
    | cons e entries ih =>
      intro components
      rw [map_cons, foldl_cons, ih, map_cons, addLocked]
      by_cases hversion : e.2.resolvedVersion = []
      · rw [if_pos hversion, filter_cons_of_neg (by simpa using hversion)]
      · rw [if_neg hversion, filter_cons_of_pos (by simpa using hversion), foldl_cons]
  rw [countedPairs, foldl_append, foldl_map, ← hlocked]
  cases lock with
  | none => rfl
  | some entries => rfl

theorem find_ecosystemComponents (manifests : List PackageManifest) (lock : Option Lock)
    (name : Text) : find (ecosystemComponents manifests lock) name =
      (lastPair (countedPairs manifests lock) name).map Prod.snd := by
  rw [ecosystemComponents_eq, find_foldl_insert]
  exact Option.or_none

theorem name_of_lastPair {pairs : List (Text × Text)} {name : Text} {pair : Text × Text}
    (h : lastPair pairs name = some pair) : pair.1 = name := by
  simpa using find?_some h

variable (manifests : List PackageManifest) (lock : Option Lock) (advisories : List AdvisoryEntry)
  (denySeverity : Text)

def Affected (advisory : AdvisoryEntry) : Prop :=
  ∃ pair ∈ auditedPairs manifests lock, Matches advisory pair

/-- Each advisory about a version in use is reported, and makes the audit fail where it is severe
enough. -/
def Complete : Prop :=
  ∀ advisory ∈ advisories, Affected manifests lock advisory →
    (∃ version, (advisory, version) ∈ (auditPackages manifests lock advisories denySeverity).findings) ∧
    (denied denySeverity advisory = true →
      (auditPackages manifests lock advisories denySeverity).code = 1)

theorem mem_findings (advisory : AdvisoryEntry) (version : Text) :
    (advisory, version) ∈ (auditPackages manifests lock advisories denySeverity).findings ↔
      unknownSeverity denySeverity = false ∧ advisory ∈ advisories ∧
        ∃ pair, lastPair (countedPairs manifests lock) advisory.package = some pair ∧
          pair.2 = version ∧ semanticVersionSatisfies version advisory.affected = true := by
  rw [auditPackages]
  cases hunknown : unknownSeverity denySeverity with
  | true => simp
  | false =>
    simp only [Bool.false_eq_true, if_false, mem_filterMap, Option.map_eq_some_iff,
      Prod.mk.injEq, matchingVersion, find_ecosystemComponents, Option.filter_eq_some_iff,
      true_and]
    constructor
    · rintro ⟨advisory, hmem, version, ⟨⟨pair, hpair, rfl⟩, hsatisfies⟩, rfl, rfl⟩
      exact ⟨hmem, pair, hpair, rfl, hsatisfies⟩
    · rintro ⟨hmem, pair, hpair, rfl, hsatisfies⟩
      exact ⟨advisory, hmem, pair.2, ⟨⟨pair, hpair, rfl⟩, hsatisfies⟩, rfl, rfl⟩

theorem code_of_denied {advisory : AdvisoryEntry} {version : Text}
    (h : (advisory, version) ∈ (auditPackages manifests lock advisories denySeverity).findings)
    (hdenied : denied denySeverity advisory = true) :
    (auditPackages manifests lock advisories denySeverity).code = 1 := by
  have hknown := ((mem_findings manifests lock advisories denySeverity advisory version).1 h).1
  rw [auditPackages, hknown] at h ⊢
  exact if_pos (List.any_eq_true.2 ⟨(advisory, version), h, hdenied⟩)

/-- An audit is complete where the last pair of each affected package is an affected one. -/
theorem complete_iff : Complete manifests lock advisories denySeverity ↔
    ∀ advisory ∈ advisories, Affected manifests lock advisory →
      unknownSeverity denySeverity = false ∧
        ∃ pair, lastPair (countedPairs manifests lock) advisory.package = some pair ∧
          Matches advisory pair := by
  have hmem := mem_findings manifests lock advisories denySeverity
  refine forall₂_congr fun advisory hadvisory => forall_congr' fun _ => ?_
  constructor
  · rintro ⟨⟨version, hfinding⟩, -⟩
    obtain ⟨hknown, -, pair, hpair, rfl, hsatisfies⟩ := (hmem advisory version).1 hfinding
    exact ⟨hknown, pair, hpair, name_of_lastPair hpair, hsatisfies⟩
  · rintro ⟨hknown, pair, hpair, -, hsatisfies⟩
    have hfinding := (hmem advisory pair.2).2
      ⟨hknown, hadvisory, pair, hpair, rfl, hsatisfies⟩
    exact ⟨⟨pair.2, hfinding⟩, code_of_denied manifests lock advisories denySeverity hfinding⟩

/-- A lock with two versions of one package, the later of which an advisory is not about. -/
def mixedLock : Lock :=
  let entry := fun manifest version : String =>
    { manifest := manifest.toList, name := "json".toList, source := "path".toList,
      path := "json".toList, resolvedVersion := version.toList : DependencyLockEntry }
  [("app/mlang.toml\njson".toList, entry "app/mlang.toml" "1.0.0"),
    ("lib/mlang.toml\njson".toList, entry "lib/mlang.toml" "2.0.0")]

def jsonAdvisory : AdvisoryEntry :=
  ⟨"MLANG-2026-0001".toList, "json".toList, "<1.2.3".toList, "high".toList, [], []⟩

theorem mixedLock_hidesVersion :
    ¬ Complete [] (some mixedLock) [jsonAdvisory] "high".toList ∧
      auditPackages [] (some mixedLock) [jsonAdvisory] "high".toList =
        ⟨0, [], "Audit found no known vulnerabilities in 1 packages.".toList⟩ := by
  have hreport : auditPackages [] (some mixedLock) [jsonAdvisory] "high".toList =
      ⟨0, [], "Audit found no known vulnerabilities in 1 packages.".toList⟩ := by decide
  refine ⟨fun hcomplete => ?_, hreport⟩
  have haffected : Affected [] (some mixedLock) jsonAdvisory :=
    ⟨("json".toList, "1.0.0".toList), by decide, rfl, by decide⟩
  obtain ⟨⟨version, hfinding⟩, -⟩ :=
    hcomplete jsonAdvisory (mem_singleton_self _) haffected
  rw [hreport] at hfinding
  exact absurd hfinding not_mem_nil

end Mlang.PackageAudit
