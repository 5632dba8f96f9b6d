import Mlang.LockRecords

namespace Mlang.LockVisits

open BracketedText (Text)
open OrderedTables DependencyLocks PackageFeatures DependencyWalks WalkCoverage DependencyFetching Option
open LockRecords

variable {dep : DepSpec} {entry : DependencyLockEntry} {child pkg : PackageManifest}
  {revision checksum version : Text} {v : Visit}

section Origins

variable (sources : ManifestSources)

def lockKey (pkg : PackageManifest) (dep : DepSpec) : Text :=
  dependencyLockKey (sources.lockManifestName pkg) dep.name

def declaredEntry (pkg : PackageManifest) (dep : DepSpec) : DependencyLockEntry :=
  makeDependencyLockEntry (sources.lockManifestName pkg) dep

/-- What the source of a dependency gives for its entry. -/
inductive Origin (vendorDir : Text) (pkg : PackageManifest) (dep : DepSpec) (depsDir : Text)
    (found : Option DependencyLockEntry) : Text → Text → Text → Prop
  | vendored {text : Text} (htext : vendoredText sources vendorDir dep = some text) :
      Origin vendorDir pkg dep depsDir found (metadataValue (vendorMetadata text) "revision")
        (metadataValue (vendorMetadata text) "checksum")
        (metadataValue (vendorMetadata text) "version")
  | path {child : PackageManifest} (htext : vendoredText sources vendorDir dep = none)
      (hpath : dep.path ≠ [])
      (hload : loadDependencyManifest sources vendorDir pkg dep depsDir true = .ok child) :
      Origin vendorDir pkg dep depsDir found [] [] (packageVersion child)
  | git {revision : Text} (htext : vendoredText sources vendorDir dep = none)
      (hpath : dep.path = []) (hgit : dep.git ≠ []) (hrevision : revision ≠ [])
      (hfound : ∀ entry, found = some entry → revision = entry.revision) :
      Origin vendorDir pkg dep depsDir found revision [] []
  | archive {checksum : Text} (htext : vendoredText sources vendorDir dep = none)
      (hpath : dep.path = []) (hgit : dep.git = []) (hchecksum : checksum ≠ [])
      (hfound : ∀ entry, found = some entry → entry.checksum ≠ [] → checksum = entry.checksum) :
      Origin vendorDir pkg dep depsDir found [] checksum []

structure Fits (v : Visit) (entry : DependencyLockEntry) : Prop where
  answers : lockEntryMatchesDependency entry (declaredEntry sources v.manifest v.dep) = true
  vendored : ∀ text, vendoredText sources v.after.vendorDir v.dep = some text →
    entry.revision = metadataValue (vendorMetadata text) "revision" ∧
      entry.checksum = metadataValue (vendorMetadata text) "checksum" ∧
      (metadataValue (vendorMetadata text) "version" = [] ∨
        entry.resolvedVersion = metadataValue (vendorMetadata text) "version")
  path : vendoredText sources v.after.vendorDir v.dep = none → entry.source = "path".toList →
    entry.revision = [] ∧ entry.checksum = []
  git : vendoredText sources v.after.vendorDir v.dep = none → entry.source = "git".toList →
    entry.revision ≠ [] ∧ entry.checksum = []
  archive : vendoredText sources v.after.vendorDir v.dep = none →
    entry.source = "archive".toList → entry.revision = [] ∧ entry.checksum ≠ []
  version : ∀ child, v.child = some child → entry.resolvedVersion = packageVersion child

def Loaded (v : Visit) : Prop :=
  (loadDependencyManifest sources v.after.vendorDir v.manifest v.dep v.depsDir
    (requiresManifest v.dep)).toOption = v.child

variable {sources}

theorem source_path (h : dep.path ≠ []) : (declaredEntry sources pkg dep).source = "path".toList :=
  if_pos h

theorem source_git (hpath : dep.path = []) (hgit : dep.git ≠ []) :
    (declaredEntry sources pkg dep).source = "git".toList :=
  (if_neg (not_not.2 hpath)).trans (if_pos hgit)

theorem source_archive (hpath : dep.path = []) (hgit : dep.git = []) :
    (declaredEntry sources pkg dep).source = "archive".toList :=
  (if_neg (not_not.2 hpath)).trans (if_neg (not_not.2 hgit))

theorem source_of_matches {expected : DependencyLockEntry}
    (h : lockEntryMatchesDependency entry expected = true) : entry.source = expected.source := by
  rw [← matches_iff.1 h]

theorem requiresManifest_of_path (h : dep.path ≠ []) : requiresManifest dep = true := by
  rw [requiresManifest, decide_eq_true h, Bool.true_or]

theorem Loaded.of_path (h : Loaded sources v) (hpath : v.dep.path ≠ [])
    (hload : loadDependencyManifest sources v.after.vendorDir v.manifest v.dep v.depsDir true = .ok child) :
    v.child = some child := by
  rw [Loaded, requiresManifest_of_path hpath, hload] at h
  exact h.symm

variable {found : Option DependencyLockEntry}

theorem Origin.fits
    (h : Origin sources v.after.vendorDir v.manifest v.dep v.depsDir found revision checksum version)
    {resolved : Text} (hvendored : ∀ text, vendoredText sources v.after.vendorDir v.dep = some text →
      metadataValue (vendorMetadata text) "version" = [] ∨
        resolved = metadataValue (vendorMetadata text) "version")
    (hchild : ∀ child, v.child = some child → resolved = packageVersion child) :
    Fits sources v { declaredEntry sources v.manifest v.dep with
      revision := revision, checksum := checksum, resolvedVersion := resolved } := by
  have hanswers : lockEntryMatchesDependency { declaredEntry sources v.manifest v.dep with
      revision := revision, checksum := checksum, resolvedVersion := resolved }
      (declaredEntry sources v.manifest v.dep) = true := matches_iff.2 rfl
  cases h with
  | vendored htext =>
    refine ⟨hanswers, fun text h => ?_, fun h => ?_, fun h => ?_, fun h => ?_, hchild⟩
    · obtain rfl := some.inj (htext.symm.trans h)
      exact ⟨rfl, rfl, hvendored _ h⟩
    · cases htext.symm.trans h
    · cases htext.symm.trans h
    · cases htext.symm.trans h
  | path htext hpath =>
    have hsource : (declaredEntry sources v.manifest v.dep).source = "path".toList :=
      source_path hpath
    refine ⟨hanswers, fun text h => ?_, fun _ _ => ⟨rfl, rfl⟩, fun _ h => ?_, fun _ h => ?_, hchild⟩
    · cases htext.symm.trans h
    · exact absurd (hsource.symm.trans h) (by decide)
    · exact absurd (hsource.symm.trans h) (by decide)
  | git htext hpath hgit hrevision =>
    have hsource : (declaredEntry sources v.manifest v.dep).source = "git".toList :=
      source_git hpath hgit
    refine ⟨hanswers, fun text h => ?_, fun _ h => ?_, fun _ _ => ⟨hrevision, rfl⟩, fun _ h => ?_,
      hchild⟩
    · cases htext.symm.trans h
    · exact absurd (hsource.symm.trans h) (by decide)
    · exact absurd (hsource.symm.trans h) (by decide)
  | archive htext hpath hgit hchecksum =>
    have hsource : (declaredEntry sources v.manifest v.dep).source = "archive".toList :=
      source_archive hpath hgit
    refine ⟨hanswers, fun text h => ?_, fun _ h => ?_, fun _ h => ?_, fun _ _ => ⟨rfl, hchecksum⟩,
      hchild⟩
    · cases htext.symm.trans h
    · exact absurd (hsource.symm.trans h) (by decide)
    · exact absurd (hsource.symm.trans h) (by decide)

theorem Fits.agrees (hfits : Fits sources v entry) (hloaded : Loaded sources v)
    (h : Origin sources v.after.vendorDir v.manifest v.dep v.depsDir (some entry) revision checksum version) :
    entry.revision = revision ∧ entry.checksum = checksum ∧
    (version = [] ∨ entry.resolvedVersion = version) := by
  have hsource := source_of_matches hfits.answers
  cases h with
  | vendored htext => exact hfits.vendored _ htext
  | path htext hpath hload =>
    obtain ⟨hrevision, hchecksum⟩ := hfits.path htext (hsource.trans (source_path hpath))
    exact ⟨hrevision, hchecksum, .inr (hfits.version _ (hloaded.of_path hpath hload))⟩
  | git htext hpath hgit _ hfound =>
    have hchecksum := (hfits.git htext (hsource.trans (source_git hpath hgit))).2
    exact ⟨(hfound _ rfl).symm, hchecksum, .inl rfl⟩
  | archive htext hpath hgit _ hfound =>
    obtain ⟨hrevision, hchecksum⟩ := hfits.archive htext (hsource.trans (source_archive hpath hgit))
    exact ⟨hrevision, (hfound _ rfl hchecksum).symm, .inl rfl⟩

end Origins

variable {context' context : DependencyLockContext} {downloads : Downloads} {sources : ManifestSources}
  {depsDir text : Text}

def fetchSource (sources : ManifestSources) (downloads : Downloads) (dep : DepSpec)
    (pkg : PackageManifest) (depsDir : Text) (context : DependencyLockContext) :
    Except Text DependencyLockContext :=
  if dep.path ≠ [] then
    (loadDependencyManifest sources context.vendorDir pkg dep depsDir true).bind fun child =>
      fetchPath (sources.lockManifestName pkg) dep child context
  else if dep.git ≠ [] then
    fetchGitDep downloads (sources.lockManifestName pkg) dep depsDir context
  else fetchArchiveDep downloads (sources.lockManifestName pkg) dep depsDir context

theorem fetchDep_eq_ok : fetchDep sources downloads dep pkg depsDir context = .ok context' ↔
    checkDepSpec dep = .ok () ∧
      ((∃ text, vendoredText sources context.vendorDir dep = some text ∧
          fetchVendored (sources.lockManifestName pkg) dep (vendorMetadata text) context = .ok context') ∨
        (vendoredText sources context.vendorDir dep = none ∧
          ¬ (context.vendorDir ≠ [] ∧ context.offline = true) ∧
          ∃ before, checkLocked (sources.lockManifestName pkg) dep context = .ok before ∧
            fetchSource sources downloads dep pkg depsDir before = .ok context')) := by
  rw [fetchDep, bind_eq_ok]
  constructor
  · rintro ⟨_, hspec, h⟩
    refine ⟨hspec, ?_⟩
    split at h
    next text htext => exact .inl ⟨text, htext, h⟩
    next htext =>
      by_cases hvendor : context.vendorDir ≠ [] ∧ context.offline = true
      · rw [if_pos hvendor] at h
        cases h
      · rw [if_neg hvendor] at h
        obtain ⟨before, hbefore, h⟩ := bind_eq_ok.1 h
        exact .inr ⟨htext, hvendor, before, hbefore, h⟩
  · rintro ⟨hspec, ⟨text, htext, h⟩ | ⟨htext, hvendor, before, hbefore, h⟩⟩
    · refine ⟨(), hspec, ?_⟩
      rw [htext]
      exact h
    · refine ⟨(), hspec, ?_⟩
      rw [htext]
      dsimp only
      rw [if_neg hvendor]
      exact bind_eq_ok.2 ⟨before, hbefore, h⟩

/-- What a visit records: the source decides, and the entry that was found. -/
structure Recorded (sources : ManifestSources) (pkg : PackageManifest) (dep : DepSpec)
    (depsDir : Text) (context before context' : DependencyLockContext)
    (revision checksum version : Text) : Prop where
  touched : Touched (lockKey sources pkg dep) context before
  origin : Origin sources context.vendorDir pkg dep depsDir
    (find before.entries (lockKey sources pkg dep)) revision checksum version
  kept : ∀ entry, find context.entries (lockKey sources pkg dep) = some entry →
    lockEntryMatchesDependency entry (declaredEntry sources pkg dep) = true →
    before.entries = context.entries
  result : context' =
    recordDependencyLockEntry (sources.lockManifestName pkg) dep revision checksum version before

theorem fetchVendored_ok (htext : vendoredText sources context.vendorDir dep = some text)
    (h : fetchVendored (sources.lockManifestName pkg) dep (vendorMetadata text) context = .ok context') :
    ∃ before revision checksum version,
    Recorded sources pkg dep depsDir context before context' revision checksum version := by
  refine ⟨observe (lockKey sources pkg dep) context, _, _, _, touched_observe, .vendored htext,
    fun _ _ _ => rfl, ?_⟩
  rw [fetchVendored, dependencyLockEntry_eq] at h
  dsimp only at h
  split at h
  next =>
    split_ifs at h
    exact (Except.ok.inj h).symm
  next =>
    split_ifs at h
    exact (Except.ok.inj h).symm

theorem fetchPath_ok (h : fetchPath (sources.lockManifestName pkg) dep child context = .ok context') :
    ∃ noted, Touched (lockKey sources pkg dep) context noted ∧ noted.entries = context.entries ∧
    context' = recordDependencyLockEntry (sources.lockManifestName pkg) dep [] [] (packageVersion child)
    noted := by
  rw [fetchPath, dependencyLockEntry_eq] at h
  obtain ⟨_, -, h⟩ := bind_eq_ok.1 h
  obtain ⟨noted, hnoted, rfl⟩ := map_eq_ok.1 h
  refine ⟨noted, touched_observe.noted hnoted, ?_, rfl⟩
  obtain ⟨-, rfl⟩ := noteSource_ok hnoted
  rfl

theorem fetchGitDep_ok
    (h : fetchGitDep downloads (sources.lockManifestName pkg) dep depsDir context = .ok context') :
    ∃ revision, downloads.checkout context.offline context.globalCacheDir dep depsDir
        ((find context.entries (lockKey sources pkg dep)).map DependencyLockEntry.revision) =
          .ok revision ∧ revision ≠ [] ∧
      (∀ entry, find context.entries (lockKey sources pkg dep) = some entry → revision = entry.revision) ∧
      context' = recordDependencyLockEntry (sources.lockManifestName pkg) dep revision [] []
        (observe (lockKey sources pkg dep) context) := by
  rw [fetchGitDep, dependencyLockEntry_eq] at h
  obtain ⟨revision, hcheckout, h⟩ := bind_eq_ok.1 h
  dsimp only at h
  split_ifs at h with hempty hlocked
  refine ⟨revision, hcheckout, hempty, fun entry hfound => ?_, (Except.ok.inj h).symm⟩
  rw [lockKey] at hfound
  rw [hfound] at hlocked
  exact not_not.1 hlocked

theorem fetchArchiveDep_ok
    (h : fetchArchiveDep downloads (sources.lockManifestName pkg) dep depsDir context = .ok context') :
    dep.archiveType = "tar.gz".toList ∧ ∃ checksum,
      downloads.archive context.offline context.globalCacheDir
        ((find context.entries (lockKey sources pkg dep)).isNone && context.dirty) dep depsDir
        (((find context.entries (lockKey sources pkg dep)).map DependencyLockEntry.checksum).getD [])
        = .ok checksum ∧ checksum ≠ [] ∧
      (∀ entry, find context.entries (lockKey sources pkg dep) = some entry →
        entry.checksum ≠ [] → checksum = entry.checksum) ∧
      context' = recordDependencyLockEntry (sources.lockManifestName pkg) dep [] checksum []
        (observe (lockKey sources pkg dep) context) := by
  rw [fetchArchiveDep, dependencyLockEntry_eq] at h
  split_ifs at h with htype
  obtain ⟨checksum, harchive, h⟩ := bind_eq_ok.1 h
  dsimp only at h
  split_ifs at h with hempty hexpected
  refine ⟨not_not.1 htype, checksum, harchive, hempty, fun entry hfound hne => ?_,
    (Except.ok.inj h).symm⟩
  rw [lockKey] at hfound
  rw [hfound] at hexpected
  by_contra hdiffers
  exact hexpected ⟨hne, hdiffers⟩

theorem fetchDep_ok (h : fetchDep sources downloads dep pkg depsDir context = .ok context') :
    ∃ before revision checksum version,
      Recorded sources pkg dep depsDir context before context' revision checksum version := by
  obtain ⟨-, ⟨text, htext, h⟩ | ⟨htext, -, checked, hchecked, h⟩⟩ := fetchDep_eq_ok.1 h
  · exact fetchVendored_ok htext h
  · obtain ⟨htouched, hfound⟩ := checkLocked_ok hchecked
    have hkept : ∀ entry, find context.entries (lockKey sources pkg dep) = some entry →
        lockEntryMatchesDependency entry (declaredEntry sources pkg dep) = true →
        checked.entries = context.entries := by
      intro entry hentry hmatches
      obtain rfl := Except.ok.inj (hchecked.symm.trans (checkLocked_of hentry hmatches))
      rfl
    rw [fetchSource] at h
    split_ifs at h with hpath hgit
    · obtain ⟨child, hload, h⟩ := bind_eq_ok.1 h
      rw [htouched.dirs.1] at hload
      obtain ⟨noted, hnoted, hentries, hresult⟩ := fetchPath_ok h
      exact ⟨noted, [], [], packageVersion child, htouched.trans hnoted, .path htext hpath hload,
        fun entry hentry hmatches => hentries.trans (hkept entry hentry hmatches), hresult⟩
    · obtain ⟨revision, -, hne, hsame, hresult⟩ := fetchGitDep_ok h
      exact ⟨observe (lockKey sources pkg dep) checked, revision, [], [],
        htouched.trans touched_observe, .git htext (not_not.1 hpath) hgit hne hsame,
        hkept, hresult⟩
    · obtain ⟨-, checksum, -, hne, hsame, hresult⟩ := fetchArchiveDep_ok h
      exact ⟨observe (lockKey sources pkg dep) checked, [], checksum, [], htouched.trans touched_observe,
        .archive htext (not_not.1 hpath) (not_not.1 hgit) hne hsame, hkept, hresult⟩

variable {before : DependencyLockContext}

def visitKey (sources : ManifestSources) (v : Visit) : Text := lockKey sources v.manifest v.dep

structure Kept (sources : ManifestSources) (v : Visit) (entry : DependencyLockEntry) : Prop where
  fits : Fits sources v entry
  visited : ∃ visited, find v.after.entries (visitKey sources v) = some visited ∧
    visited.revision = entry.revision ∧ visited.checksum = entry.checksum

def Honest (sources : ManifestSources) (v : Visit) : Prop :=
  ∀ text child, vendoredText sources v.after.vendorDir v.dep = some text → v.child = some child →
    metadataValue (vendorMetadata text) "version" = [] ∨
      metadataValue (vendorMetadata text) "version" = packageVersion child

variable (h : Recorded sources v.manifest v.dep v.depsDir context before v.after revision checksum version)
include h

theorem Recorded.steps : Touched (visitKey sources v) context v.after := by
  rw [h.result]
  exact h.touched.trans touched_record

theorem Recorded.origin_after :
    Origin sources v.after.vendorDir v.manifest v.dep v.depsDir
      (find before.entries (visitKey sources v)) revision checksum version := by
  rw [h.steps.dirs.1]
  exact h.origin

theorem Recorded.find_after :
    find v.after.entries (visitKey sources v) = some (recordedEntry
      (sources.lockManifestName v.manifest) v.dep revision checksum version
      (find before.entries (visitKey sources v))) := by
  rw [h.result]
  exact find_recordDependencyLockEntry

theorem kept_of_visit (hchild : v.child = none) :
    ∃ entry, find v.after.entries (visitKey sources v) = some entry ∧ Kept sources v entry := by
  refine ⟨_, h.find_after, ⟨?_, _, h.find_after, rfl, rfl⟩⟩
  have horigin := h.origin_after
  refine horigin.fits (fun text htext => ?_) fun child hsome => ?_
  · have hversion : version = metadataValue (vendorMetadata text) "version" := by
      cases horigin with
      | vendored htext' =>
        obtain rfl := some.inj (htext'.symm.trans htext)
        rfl
      | path htext' => cases htext'.symm.trans htext
      | git htext' => cases htext'.symm.trans htext
      | archive htext' => cases htext'.symm.trans htext
    rw [← hversion]
    by_cases hempty : version = []
    · exact .inl hempty
    · exact .inr (if_neg hempty)
  · cases hchild.symm.trans hsome

omit h

def settled (sources : ManifestSources) (v : Visit) (child : PackageManifest) :
    DependencyLockContext :=
  match find v.after.entries (visitKey sources v) with
  | none => observe (visitKey sources v) v.after
  | some entry =>
    recordDependencyLockEntry (sources.lockManifestName v.manifest) v.dep entry.revision
      entry.checksum (packageVersion child) (observe (visitKey sources v) v.after)

theorem settleVersion_ok
    (h : settleVersion (sources.lockManifestName v.manifest) v.dep child v.after = .ok context') :
    noteSource v.dep.name (sourceIdentity v.dep child) (settled sources v child) = .ok context' := by
  rw [settleVersion, dependencyLockEntry_eq] at h
  obtain ⟨_, -, h⟩ := bind_eq_ok.1 h
  exact h

theorem touched_settled : Touched (visitKey sources v) v.after (settled sources v child) := by
  rw [settled]
  split
  next => exact touched_observe
  next => exact touched_observe.trans touched_record

theorem entries_of_note {name source : Text} (h : noteSource name source context = .ok context') :
    context'.entries = context.entries := by
  obtain ⟨-, rfl⟩ := noteSource_ok h
  rfl

theorem touched_settle
    (h : settleVersion (sources.lockManifestName v.manifest) v.dep child v.after = .ok context') :
    Touched (visitKey sources v) v.after context' :=
  touched_settled.noted (settleVersion_ok h)

theorem kept_of_settle
    (h : Recorded sources v.manifest v.dep v.depsDir context before v.after revision checksum version)
    (hchild : v.child = some child) (hversion : packageVersion child ≠ []) (hhonest : Honest sources v)
    (hsettle : settleVersion (sources.lockManifestName v.manifest) v.dep child v.after = .ok context') :
    ∃ entry, find context'.entries (visitKey sources v) = some entry ∧ Kept sources v entry := by
  rw [entries_of_note (settleVersion_ok hsettle), settled, h.find_after]
  refine ⟨_, find_recordDependencyLockEntry, ⟨?_, _, h.find_after, rfl, rfl⟩⟩
  refine h.origin_after.fits (fun text htext => ?_) fun other hother => ?_
  · rw [if_neg hversion]
    rcases hhonest text child htext hchild with hempty | hsame
    · exact .inl hempty
    · exact .inr hsame.symm
  · obtain rfl := some.inj (hchild.symm.trans hother)
    exact if_neg hversion

theorem unchanged_of_visit
    (h : Recorded sources v.manifest v.dep v.depsDir context before v.after revision checksum version)
    (hfound : find context.entries (visitKey sources v) = some entry) (hfits : Fits sources v entry)
    (hloaded : Loaded sources v) : v.after.entries = context.entries := by
  have hentries := h.kept entry hfound hfits.answers
  have hbefore : find before.entries (visitKey sources v) = some entry := by
    rw [hentries]
    exact hfound
  have horigin := h.origin_after
  rw [hbefore] at horigin
  obtain ⟨hrevision, hchecksum, hversion⟩ := hfits.agrees hloaded horigin
  rw [h.result, recordDependencyLockEntry_same hbefore hfits.answers hrevision hchecksum hversion]
  exact hentries

theorem unchanged_of_settle (hfound : find v.after.entries (visitKey sources v) = some entry)
    (hfits : Fits sources v entry) (hchild : v.child = some child)
    (hsettle : settleVersion (sources.lockManifestName v.manifest) v.dep child v.after =
      .ok context') : context'.entries = v.after.entries := by
  have hsame : recordDependencyLockEntry (sources.lockManifestName v.manifest) v.dep entry.revision
      entry.checksum (packageVersion child) (observe (visitKey sources v) v.after) =
        observe (visitKey sources v) (observe (visitKey sources v) v.after) :=
    recordDependencyLockEntry_same hfound hfits.answers rfl rfl (.inr (hfits.version child hchild))
  rw [entries_of_note (settleVersion_ok hsettle), settled, hfound]
  dsimp only
  rw [hsame]
  rfl

/-- Checking out a revision that was resolved gives it again, and so does an archive that was
downloaded. -/
structure Repeatable (downloads : Downloads) : Prop where
  checkout : ∀ offline cache dep depsDir pinned revision,
    downloads.checkout offline cache dep depsDir pinned = .ok revision →
    downloads.checkout offline cache dep depsDir (some revision) = .ok revision
  archive : ∀ offline cache fresh dep depsDir expected checksum,
    downloads.archive offline cache fresh dep depsDir expected = .ok checksum →
    downloads.archive offline cache false dep depsDir checksum = .ok checksum

variable {lock : Lock}

theorem checkLocked_frozen {manifest : Text} (h : checkLocked manifest dep context = .ok context') :
    frozen lock context' = observe (dependencyLockKey manifest dep.name) (frozen lock context) := by
  rw [checkLocked, dependencyLockEntry_eq] at h
  dsimp only at h
  split at h
  next =>
    split_ifs at h
    cases h
    rfl
  next =>
    split_ifs at h
    · cases h
      rfl
    · cases h
      rfl

theorem record_frozen (hfound : find lock (lockKey sources pkg dep) = some entry)
    (hanswers : lockEntryMatchesDependency entry (declaredEntry sources pkg dep) = true)
    (hrevision : entry.revision = revision) (hchecksum : entry.checksum = checksum)
    (hversion : version = [] ∨ entry.resolvedVersion = version) :
    recordDependencyLockEntry (sources.lockManifestName pkg) dep revision checksum version
    (frozen lock context) = frozen lock
    (recordDependencyLockEntry (sources.lockManifestName pkg) dep revision checksum version context) := by
  have hentry : find (frozen lock context).entries
      (dependencyLockKey (sources.lockManifestName pkg) dep.name) = some entry := hfound
  rw [frozen_recordDependencyLockEntry]
  exact recordDependencyLockEntry_same hentry hanswers hrevision hchecksum hversion

theorem fetchVendored_frozen (hfound : find lock (visitKey sources v) = some entry)
    (hfits : Fits sources v entry) (htext : vendoredText sources v.after.vendorDir v.dep = some text)
    (h : fetchVendored (sources.lockManifestName v.manifest) v.dep (vendorMetadata text) context = .ok
      v.after)
    : fetchVendored (sources.lockManifestName v.manifest) v.dep (vendorMetadata text) (frozen lock context) =
    .ok (frozen lock v.after) := by
  have hafter : v.after = recordDependencyLockEntry (sources.lockManifestName v.manifest) v.dep
      (metadataValue (vendorMetadata text) "revision")
      (metadataValue (vendorMetadata text) "checksum")
      (metadataValue (vendorMetadata text) "version") (observe (visitKey sources v) context) := by
    rw [fetchVendored, dependencyLockEntry_eq] at h
    dsimp only at h
    split at h
    next =>
      split_ifs at h
      exact (Except.ok.inj h).symm
    next =>
      split_ifs at h
      exact (Except.ok.inj h).symm
  obtain ⟨hrevision, hchecksum, hversion⟩ := hfits.vendored text htext
  have hentry : find (frozen lock context).entries
      (dependencyLockKey (sources.lockManifestName v.manifest) v.dep.name) = some entry := hfound
  have hagrees : ¬ ((entry.revision ≠ [] ∧
      entry.revision ≠ metadataValue (vendorMetadata text) "revision") ∨
      (entry.checksum ≠ [] ∧
        entry.checksum ≠ metadataValue (vendorMetadata text) "checksum")) := by
    rintro (hdiffers | hdiffers)
    · exact hdiffers.2 hrevision
    · exact hdiffers.2 hchecksum
  rw [fetchVendored, dependencyLockEntry_eq, hentry]
  dsimp only
  rw [if_neg hagrees, hafter, ← record_frozen hfound hfits.answers hrevision hchecksum hversion]
  rfl

theorem fetchPath_frozen (hfound : find lock (visitKey sources v) = some entry)
    (hanswers : lockEntryMatchesDependency entry (declaredEntry sources v.manifest v.dep) = true)
    (hrevision : entry.revision = []) (hchecksum : entry.checksum = [])
    (hversion : entry.resolvedVersion = packageVersion child)
    (h : fetchPath (sources.lockManifestName v.manifest) v.dep child context = .ok context') :
    fetchPath (sources.lockManifestName v.manifest) v.dep child (frozen lock context) =
    .ok (frozen lock context') := by
  rw [fetchPath, dependencyLockEntry_eq] at h
  obtain ⟨_, -, h⟩ := bind_eq_ok.1 h
  obtain ⟨noted, hnoted, rfl⟩ := map_eq_ok.1 h
  have hentry : find (frozen lock context).entries
      (dependencyLockKey (sources.lockManifestName v.manifest) v.dep.name) = some entry := hfound
  rw [fetchPath, dependencyLockEntry_eq, hentry]
  refine bind_eq_ok.2 ⟨(), checkVersion_of hversion, map_eq_ok.2 ⟨frozen lock noted, ?_, ?_⟩⟩
  · exact noteSource_frozen hnoted
  · exact record_frozen hfound hanswers hrevision hchecksum (.inr hversion)

theorem fetchGitDep_frozen (hrepeat : Repeatable downloads)
    (hfound : find lock (visitKey sources v) = some entry) (hkept : Kept sources v entry)
    (hchecksum : entry.checksum = [])
    (h : fetchGitDep downloads (sources.lockManifestName v.manifest) v.dep v.depsDir context =
      .ok v.after) :
    fetchGitDep downloads (sources.lockManifestName v.manifest) v.dep v.depsDir
      (frozen lock context) = .ok (frozen lock v.after) := by
  obtain ⟨revision, hcheckout, hne, -, hafter⟩ := fetchGitDep_ok h
  have hrevision : entry.revision = revision := by
    obtain ⟨visited, hvisited, hsame, -⟩ := hkept.visited
    rw [hafter] at hvisited
    obtain rfl := some.inj (find_recordDependencyLockEntry.symm.trans hvisited)
    exact hsame.symm
  have hentry : find (frozen lock context).entries
      (dependencyLockKey (sources.lockManifestName v.manifest) v.dep.name) = some entry := hfound
  rw [fetchGitDep, dependencyLockEntry_eq, hentry]
  dsimp only
  refine bind_eq_ok.2 ⟨revision, ?_, ?_⟩
  · rw [map_some, hrevision]
    exact hrepeat.checkout _ _ _ _ _ _ hcheckout
  · rw [if_neg hne, map_some, getD_some, hrevision, if_neg (not_not.2 rfl), hafter,
      ← record_frozen hfound hkept.fits.answers hrevision hchecksum (.inl rfl)]
    rfl

theorem fetchArchiveDep_frozen (hrepeat : Repeatable downloads)
    (hfound : find lock (visitKey sources v) = some entry) (hkept : Kept sources v entry)
    (hrevision : entry.revision = [])
    (h : fetchArchiveDep downloads (sources.lockManifestName v.manifest) v.dep v.depsDir context =
      .ok v.after) :
    fetchArchiveDep downloads (sources.lockManifestName v.manifest) v.dep v.depsDir
      (frozen lock context) = .ok (frozen lock v.after) := by
  obtain ⟨htype, checksum, harchive, hne, -, hafter⟩ := fetchArchiveDep_ok h
  have hchecksum : entry.checksum = checksum := by
    obtain ⟨visited, hvisited, -, hsame⟩ := hkept.visited
    rw [hafter] at hvisited
    obtain rfl := some.inj (find_recordDependencyLockEntry.symm.trans hvisited)
    exact hsame.symm
  have hentry : find (frozen lock context).entries
      (dependencyLockKey (sources.lockManifestName v.manifest) v.dep.name) = some entry := hfound
  rw [fetchArchiveDep, if_neg (not_not.2 htype), dependencyLockEntry_eq, hentry]
  dsimp only
  refine bind_eq_ok.2 ⟨checksum, ?_, ?_⟩
  · rw [map_some, getD_some, hchecksum]
    exact hrepeat.archive _ _ _ _ _ _ _ harchive
  · rw [if_neg hne, map_some, getD_some, hchecksum, if_neg (fun hdiffers => hdiffers.2 rfl), hafter,
      ← record_frozen hfound hkept.fits.answers hrevision hchecksum (.inl rfl)]
    rfl

theorem fetchDep_frozen (hrepeat : Repeatable downloads)
    (hfound : find lock (visitKey sources v) = some entry) (hkept : Kept sources v entry)
    (hloaded : Loaded sources v)
    (h : fetchDep sources downloads v.dep v.manifest v.depsDir context = .ok v.after) :
    fetchDep sources downloads v.dep v.manifest v.depsDir (frozen lock context) =
      .ok (frozen lock v.after) := by
  obtain ⟨before, revision, checksum, version, hrecorded⟩ := fetchDep_ok h
  have hvendor : v.after.vendorDir = context.vendorDir := hrecorded.steps.dirs.1
  have hfits := hkept.fits
  have hsource := source_of_matches hfits.answers
  obtain ⟨hspec, ⟨text, htext, h⟩ | ⟨htext, hmode, checked, hchecked, h⟩⟩ := fetchDep_eq_ok.1 h
  · refine fetchDep_eq_ok.2 ⟨hspec, .inl ⟨text, htext, fetchVendored_frozen hfound hfits ?_ h⟩⟩
    rw [hvendor]
    exact htext
  · have hnone : vendoredText sources v.after.vendorDir v.dep = none := by
      rw [hvendor]
      exact htext
    have hdirs : checked.vendorDir = v.after.vendorDir :=
      (checkLocked_ok hchecked).1.dirs.1.trans hvendor.symm
    refine fetchDep_eq_ok.2 ⟨hspec, .inr ⟨htext, hmode, frozen lock checked, ?_, ?_⟩⟩
    · rw [checkLocked_frozen hchecked]
      exact checkLocked_of hfound hfits.answers
    · rw [fetchSource] at h ⊢
      split_ifs at h ⊢ with hpath hgit
      · obtain ⟨child, hload, h⟩ := bind_eq_ok.1 h
        obtain ⟨hrevision, hchecksum⟩ := hfits.path hnone (hsource.trans (source_path hpath))
        refine bind_eq_ok.2 ⟨child, hload, ?_⟩
        rw [hdirs] at hload
        exact fetchPath_frozen hfound hfits.answers hrevision hchecksum
          (hfits.version child (hloaded.of_path hpath hload)) h
      · have hchecksum := (hfits.git hnone (hsource.trans (source_git (not_not.1 hpath) hgit))).2
        exact fetchGitDep_frozen hrepeat hfound hkept hchecksum h
      · have hrevision := (hfits.archive hnone
          (hsource.trans (source_archive (not_not.1 hpath) (not_not.1 hgit)))).1
        exact fetchArchiveDep_frozen hrepeat hfound hkept hrevision h

theorem settleVersion_frozen (hfound : find lock (visitKey sources v) = some entry)
    (hfits : Fits sources v entry) (hchild : v.child = some child)
    (h : settleVersion (sources.lockManifestName v.manifest) v.dep child v.after = .ok context') :
    settleVersion (sources.lockManifestName v.manifest) v.dep child (frozen lock v.after) =
    .ok (frozen lock context') := by
  have hversion := hfits.version child hchild
  have hentry : find (frozen lock v.after).entries
      (dependencyLockKey (sources.lockManifestName v.manifest) v.dep.name) = some entry := hfound
  have hsettled : recordDependencyLockEntry (sources.lockManifestName v.manifest) v.dep
      entry.revision entry.checksum (packageVersion child)
      (observe (visitKey sources v) (frozen lock v.after)) =
        frozen lock (settled sources v child) := by
    have hsame : recordDependencyLockEntry (sources.lockManifestName v.manifest) v.dep
        entry.revision entry.checksum (packageVersion child)
        (frozen lock (observe (visitKey sources v) v.after)) = _ :=
      record_frozen hfound hfits.answers rfl rfl (.inr hversion)
    refine hsame.trans ?_
    rw [settled, frozen_recordDependencyLockEntry, frozen_observe]
    split
    next => exact observe_observe _ _
    next => rw [frozen_recordDependencyLockEntry, frozen_observe]
  rw [settleVersion, dependencyLockEntry_eq, hentry]
  refine bind_eq_ok.2 ⟨(), checkVersion_of hversion, ?_⟩
  dsimp only
  exact (congrArg _ hsettled).trans (noteSource_frozen (settleVersion_ok h))

theorem replayed_of_kept (hrepeat : Repeatable downloads)
    (hfound : find lock (visitKey sources v) = some entry) (hkept : Kept sources v entry) :
    Replayed sources (fetchHooks sources downloads) (frozen lock) v where
  visit := fun _ h hloaded => fetchDep_frozen hrepeat hfound hkept hloaded h
  settle := fun _ _ hchild h => settleVersion_frozen hfound hkept.fits hchild h

end Mlang.LockVisits
