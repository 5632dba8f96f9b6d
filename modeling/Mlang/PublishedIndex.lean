import Mlang.ClosedTexts
import Mlang.ConditionalRegions
import Mlang.MultilineValues
import Mlang.RegistryIndex

namespace Mlang.PublishedIndex

open BracketedText (Text Tight isSpace trimCopy)
open TomlText SemanticVersions SqueezedTexts RegistryIndex List
open LockFiles (lockQuote quotedLine optionalLine)
open LockRoundTrip (assignmentLine plainKey OneLine)

structure IndexPreserved (listed : List RegistryVersionEntry) (published : RegistryVersionEntry)
    (parsed : List RegistryVersionEntry) : Prop where
  one : (parsed.filter fun entry => entry.version = published.version) = [published]
  kept : (parsed.filter fun entry => entry.version ≠ published.version).Perm
    (listed.filter fun entry => entry.version ≠ published.version)
  ascending : parsed.Pairwise fun lhs rhs => ∀ a b, parseSemanticVersion lhs.version = some a →
    parseSemanticVersion rhs.version = some b → compareSemanticVersions a b ≠ .gt

def listedEntries (existing : Option Text) : List RegistryVersionEntry :=
  (existing.map fun content => (parseRegistryIndex content).entries).getD []

/-- The first line of a mark as it is collected with its other lines and the `following` ones. -/
def collectedMark (following : List Text) (mark : Text) : Text × Nat :=
  collectMultilineTomlValue ((mark.splitOn '\n').headD []) ((mark.splitOn '\n').tail ++ following)

/-- A mark that is read as it is when it is written without quotes. -/
structure Stands (following : List Text) (mark : Text) : Prop where
  tight : Tight ((mark.splitOn '\n').headD [])
  uncommented : beforeComment .outside ((mark.splitOn '\n').headD []) = (mark.splitOn '\n').headD []
  own : (mark.splitOn '\n').tail.length ≤ (collectedMark following mark).2
  others : (collectedMark following mark).2 ≤ (mark.splitOn '\n').tail.length + 1
  unquoted : unquote (collectedMark following mark).1 = mark

structure Kept (following : List Text) (entry : RegistryVersionEntry) : Prop where
  version : Squeezed entry.version
  archive : Squeezed entry.archive
  checksum : Squeezed ("sha256:".toList ++ entry.checksum)
  signature : Squeezed entry.signature
  yanked : entry.yanked = [] ∨ Stands following entry.yanked

def linesBehind (later : List RegistryVersionEntry) : List Text :=
  if later = [] then [] else [[], "[[version]]".toList]

def AllKept : List RegistryVersionEntry → Prop
  | [] => True
  | entry :: later => Kept (linesBehind later) entry ∧ AllKept later

def entryFront (entry : RegistryVersionEntry) : List Text :=
  [[], "[[version]]".toList, quotedLine "version" entry.version, quotedLine "archive" entry.archive,
    quotedLine "checksum" ("sha256:".toList ++ entry.checksum)] ++
  optionalLine "signature" entry.signature

def markLines (mark : Text) : List Text :=
  if mark = [] then []
  else assignmentLine "yanked".toList ((mark.splitOn '\n').headD []) :: (mark.splitOn '\n').tail

def entryBlock (entry : RegistryVersionEntry) : List Text :=
  entryFront entry ++ markLines entry.yanked

theorem splitOn_cons (mark : Text) :
    mark.splitOn '\n' = (mark.splitOn '\n').headD [] :: (mark.splitOn '\n').tail := by
  cases h : mark.splitOn '\n' with
  | nil => exact absurd h (splitOn_ne_nil '\n' mark)
  | cons first rest => rfl

theorem flatMap_splitOn (mark : Text) : (mark.splitOn '\n').flatMap (· ++ ['\n']) = mark ++ ['\n'] := by
  have hjoin : ∀ lines : List Text, lines ≠ [] →
      lines.flatMap (· ++ ['\n']) = ['\n'].intercalate lines ++ ['\n'] := by
    intro lines hne
    induction lines with
    | nil => exact absurd rfl hne
    | cons line lines ih =>
      cases lines with
      | nil => rw [flatMap_singleton, intercalate_singleton]
      | cons next lines =>
        rw [flatMap_cons, ih (cons_ne_nil _ _), intercalate_cons_cons]
        simp only [append_assoc]
  rw [hjoin _ (splitOn_ne_nil '\n' mark), intercalate_splitOn]

theorem flatMap_markLines (key mark : Text) :
    (assignmentLine key ((mark.splitOn '\n').headD []) :: (mark.splitOn '\n').tail).flatMap
      (· ++ ['\n']) = assignmentLine key mark ++ ['\n'] := by
  have hmark := flatMap_splitOn mark
  rw [splitOn_cons, flatMap_cons, append_assoc] at hmark
  rw [flatMap_cons, assignmentLine, assignmentLine]
  simp only [append_assoc]
  rw [hmark]

theorem flatMap_entryBlock (entry : RegistryVersionEntry) :
    (entryLines entry).flatMap (· ++ ['\n']) = (entryBlock entry).flatMap (· ++ ['\n']) := by
  have hlines : entryLines entry = entryFront entry ++
      (if entry.yanked = [] then [] else [assignmentLine "yanked".toList entry.yanked]) := rfl
  rw [hlines, entryBlock, markLines, flatMap_append, flatMap_append]
  by_cases hyanked : entry.yanked = []
  · rw [if_pos hyanked, if_pos hyanked]
  · rw [if_neg hyanked, if_neg hyanked, flatMap_markLines, flatMap_singleton]

theorem newline_notMem_markLines (mark : Text) : ∀ line ∈ markLines mark, '\n' ∉ line := by
  have hmark : ∀ line ∈ mark.splitOn '\n', '\n' ∉ line := fun line hline =>
    ConditionalRegions.notMem_of_mem_splitOn hline
  rw [splitOn_cons] at hmark
  obtain ⟨hfirst, htail⟩ := forall_mem_cons.1 hmark
  rw [markLines]
  split_ifs
  · exact forall_mem_nil _
  · refine forall_mem_cons.2 ⟨?_, htail⟩
    rw [assignmentLine, mem_append]
    rintro (h | h)
    · exact absurd h (by decide)
    · exact hfirst h

theorem newline_notMem_entryBlock (entry : RegistryVersionEntry) :
    ∀ line ∈ entryBlock entry, '\n' ∉ line := by
  have hheader : '\n' ∉ "[[version]]".toList := by decide
  have hsignature : ∀ line ∈ optionalLine "signature" entry.signature, '\n' ∉ line := by
    rw [optionalLine]
    split_ifs
    · exact forall_mem_nil _
    · exact forall_mem_singleton.2 (LockRoundTrip.newline_notMem_quotedLine (by decide) _)
  rw [entryBlock, entryFront, forall_mem_append, forall_mem_append]
  refine ⟨⟨?_, hsignature⟩, newline_notMem_markLines entry.yanked⟩
  simp only [forall_mem_cons]
  exact ⟨not_mem_nil, hheader, LockRoundTrip.newline_notMem_quotedLine (by decide) _,
    LockRoundTrip.newline_notMem_quotedLine (by decide) _,
    LockRoundTrip.newline_notMem_quotedLine (by decide) _, fun _ h => absurd h not_mem_nil⟩

theorem textLines_entries {header : List Text} (hheader : ∀ line ∈ header, '\n' ∉ line)
    (written : List RegistryVersionEntry) :
    textLines ((header ++ written.flatMap entryLines).flatMap (· ++ ['\n'])) =
      header ++ written.flatMap entryBlock := by
  have hblocks : (written.flatMap entryLines).flatMap (· ++ ['\n']) =
      (written.flatMap entryBlock).flatMap (· ++ ['\n']) := by
    rw [flatMap_assoc, flatMap_assoc]
    simp only [flatMap_entryBlock]
  rw [flatMap_append, hblocks, ← flatMap_append, LockRoundTrip.textLines_written]
  refine forall_mem_append.2 ⟨hheader, fun line hline => ?_⟩
  obtain ⟨entry, -, hline⟩ := mem_flatMap.1 hline
  exact newline_notMem_entryBlock entry line hline

theorem textLines_indexText (name : Text) (written : List RegistryVersionEntry) :
    textLines (indexText name written) =
      ["protocol = 1".toList, quotedLine "name" name] ++ written.flatMap entryBlock := by
  have hprotocol : '\n' ∉ "protocol = 1".toList := by decide
  exact textLines_entries (forall_mem_cons.2 ⟨hprotocol,
    forall_mem_singleton.2 (LockRoundTrip.newline_notMem_quotedLine (by decide) _)⟩) written

variable {later written : List RegistryVersionEntry} {entry : RegistryVersionEntry} {mark value key : Text}

def reading (reader : IndexReader) (entry : RegistryVersionEntry) : IndexReader :=
  { flush reader with current := some entry, header := "version".toList }

theorem readLine_assignment (hkey : plainKey key = true) (htight : Tight value)
    (huncommented : beforeComment .outside value = value) (reader : IndexReader) (lines : List Text) :
    readLine reader (assignmentLine key value) lines =
      (assign reader ⟨key, (collectMultilineTomlValue value lines).1, false⟩,
        (collectMultilineTomlValue value lines).2) := by
  have hopens := LockRoundTrip.head_assignmentLine hkey value
  have hsection : assignmentLine key value ≠ "[[version]]".toList := fun h =>
    hopens (congrArg List.head? h)
  rw [readLine, LockRoundTrip.stripTomlComment_assignment hkey htight huncommented]
  rw [if_neg (LockRoundTrip.assignmentLine_ne_nil hkey value), if_neg hsection,
    if_neg fun h => hopens h.1, LockRoundTrip.parseTomlAssignment_collected hkey htight]
  rfl

theorem assign_reading (reader : IndexReader) (entry : RegistryVersionEntry)
    (assignment : ParsedTomlAssignment) :
    assign (reading reader entry) assignment =
      reading reader (assignEntry entry assignment.key (unquote assignment.value)) := by
  have hheader : ∀ p : Prop, ¬ ((reading reader entry).header = [] ∧ p) := fun _ h => by
    cases h.1
  have hversion : (reading reader entry).header = "version".toList := rfl
  rw [assign, if_neg (hheader _), if_neg (hheader _), if_pos hversion]
  rfl

theorem readLines_quotedLine {key : String} (hkey : plainKey key.toList = true) (value : Text)
    (lines : List Text) (reader : IndexReader) (entry : RegistryVersionEntry) :
    readLines 0 (quotedLine key value :: lines) (reading reader entry) =
      readLines 0 lines (reading reader (assignEntry entry key.toList (squeeze value))) := by
  have hvalue := LockRoundTrip.oneLine_lockQuote value
  have hline : quotedLine key value = assignmentLine key.toList (lockQuote value) := rfl
  rw [readLines, hline, readLine_assignment hkey hvalue.tight hvalue.uncommented,
    collectMultilineTomlValue, if_pos hvalue.complete, assign_reading]
  dsimp only
  rw [LockRoundTrip.unquote_lockQuote]

theorem readLines_blank (lines : List Text) (reader : IndexReader) :
    readLines 0 ([] :: lines) reader = readLines 0 lines reader := rfl

theorem readLines_version (lines : List Text) (reader : IndexReader) :
    readLines 0 ("[[version]]".toList :: lines) reader = readLines 0 lines (reading reader {}) := rfl

theorem readLines_collected (collected : List Text) (m : Nat) (lines : List Text) (reader : IndexReader) :
    readLines (m + collected.length) (collected ++ lines) reader = readLines m lines reader := by
  induction collected with
  | nil => rfl
  | cons line collected ih => exact ih

def frontRead (entry : RegistryVersionEntry) : RegistryVersionEntry where
  version := squeeze entry.version
  archive := squeeze entry.archive
  checksum := (squeeze ("sha256:".toList ++ entry.checksum)).drop 7
  signature := squeeze entry.signature

theorem readLines_signature (signature : Text) (lines : List Text) (reader : IndexReader)
    (entry : RegistryVersionEntry) (hentry : entry.signature = []) :
    readLines 0 (optionalLine "signature" signature ++ lines) (reading reader entry) =
      readLines 0 lines (reading reader { entry with signature := squeeze signature }) := by
  rw [optionalLine]
  by_cases hempty : signature = []
  · have hsame : { entry with signature := squeeze [] } = entry := by
      cases entry
      cases hentry
      rfl
    rw [if_pos hempty, hempty, hsame]
    rfl
  · rw [if_neg hempty, singleton_append, readLines_quotedLine (by decide)]
    rfl

theorem readLines_entryFront (entry : RegistryVersionEntry) (lines : List Text)
    (reader : IndexReader) : readLines 0 (entryFront entry ++ lines) reader =
      readLines 0 lines (reading reader (frontRead entry)) := by
  have hprefix : "sha256:".toList <+: squeeze ("sha256:".toList ++ entry.checksum) :=
    prefix_squeeze (by decide) (by decide) _
  have hchecksum : ∀ e : RegistryVersionEntry,
      assignEntry e "checksum".toList (squeeze ("sha256:".toList ++ entry.checksum)) =
        { e with checksum := (squeeze ("sha256:".toList ++ entry.checksum)).drop 7 } := by
    intro e
    have hassign : ∀ value, assignEntry e "checksum".toList value =
        { e with checksum := if "sha256:".toList <+: value then value.drop 7 else value } :=
      fun _ => rfl
    rw [hassign, if_pos hprefix]
  rw [entryFront, append_assoc]
  refine (readLines_blank _ reader).trans ((readLines_version _ reader).trans ?_)
  refine (readLines_quotedLine (by decide) _ _ _ _).trans ?_
  refine (readLines_quotedLine (by decide) _ _ _ _).trans ?_
  refine (readLines_quotedLine (by decide) _ _ _ _).trans ?_
  rw [hchecksum]
  exact readLines_signature entry.signature lines reader _ rfl

theorem collectMultilineTomlValue_append {lines : List Text}
    (h : (collectMultilineTomlValue value lines).2 < lines.length) (more : List Text) :
    collectMultilineTomlValue value (lines ++ more) = collectMultilineTomlValue value lines := by
  obtain rfl | ⟨front, last, rfl⟩ := eq_nil_or_concat' lines
  · exact absurd h (Nat.not_lt_zero _)
  · rw [length_append, length_singleton, Nat.lt_succ_iff] at h
    rw [append_assoc, collectMultilineTomlValue_front h]

theorem flatMap_entryBlock_cons (entry : RegistryVersionEntry) (later : List RegistryVersionEntry) :
    ∃ more, (entry :: later).flatMap entryBlock = linesBehind (entry :: later) ++ more := by
  have hfront : entryFront entry = [[], "[[version]]".toList] ++
      ([quotedLine "version" entry.version, quotedLine "archive" entry.archive,
        quotedLine "checksum" ("sha256:".toList ++ entry.checksum)] ++
        optionalLine "signature" entry.signature) := rfl
  rw [flatMap_cons, entryBlock, hfront, linesBehind, if_neg (cons_ne_nil _ _)]
  simp only [append_assoc]
  exact ⟨_, rfl⟩

theorem collectedMark_later (hstands : Stands (linesBehind later) mark) :
    collectMultilineTomlValue ((mark.splitOn '\n').headD [])
    ((mark.splitOn '\n').tail ++ later.flatMap entryBlock) = collectedMark (linesBehind later) mark := by
  cases later with
  | nil => rfl
  | cons next later =>
    obtain ⟨more, hmore⟩ := flatMap_entryBlock_cons next later
    have hshort := Nat.lt_succ_of_le hstands.others
    rw [hmore, ← append_assoc]
    refine collectMultilineTomlValue_append ?_ more
    rw [length_append, linesBehind, if_neg (cons_ne_nil _ _)]
    exact hshort

theorem readLines_later {m : Nat} (hm : m ≤ 1) (later : List RegistryVersionEntry)
    (reader : IndexReader) :
    readLines m (later.flatMap entryBlock) reader = readLines 0 (later.flatMap entryBlock) reader := by
  obtain rfl | rfl := Nat.le_one_iff_eq_zero_or_eq_one.1 hm
  · rfl
  · cases later with
    | nil => rfl
    | cons next later =>
      obtain ⟨more, hmore⟩ := flatMap_entryBlock_cons next later
      rw [hmore, linesBehind, if_neg (cons_ne_nil _ _)]
      rfl

theorem readLines_markLines (hmark : mark = [] ∨ Stands (linesBehind later) mark) (reader : IndexReader)
    (entry : RegistryVersionEntry) (hentry : entry.yanked = []) :
    readLines 0 (markLines mark ++ later.flatMap entryBlock) (reading reader entry) =
    readLines 0 (later.flatMap entryBlock) (reading reader { entry with yanked := mark }) := by
  rw [markLines]
  by_cases hempty : mark = []
  · have hsame : { entry with yanked := [] } = entry := by
      cases entry
      cases hentry
      rfl
    rw [if_pos hempty, hempty, hsame]
    rfl
  · have hstands := hmark.resolve_left hempty
    obtain ⟨m, hm⟩ := Nat.exists_eq_add_of_le' hstands.own
    have hothers : m ≤ 1 := by
      have h := hstands.others
      omega
    rw [if_neg hempty, cons_append, readLines,
      readLine_assignment (by decide) hstands.tight hstands.uncommented, collectedMark_later hstands,
      assign_reading]
    dsimp only
    rw [hstands.unquoted, hm, readLines_collected, readLines_later hothers]
    rfl

theorem frontRead_kept {following : List Text} (hkept : Kept following entry) :
    { frontRead entry with yanked := entry.yanked } = entry := by
  have hchecksum : (squeeze ("sha256:".toList ++ entry.checksum)).drop 7 = entry.checksum := by
    rw [squeeze_eq_self_iff.2 hkept.checksum]
    rfl
  rw [frontRead, hchecksum, squeeze_eq_self_iff.2 hkept.version, squeeze_eq_self_iff.2 hkept.archive,
    squeeze_eq_self_iff.2 hkept.signature]

theorem readLines_entries (hkept : AllKept written) (reader : IndexReader) :
    (flush (readLines 0 (written.flatMap entryBlock) reader)).entries = (flush reader).entries ++
    written := by
  induction written generalizing reader with
  | nil => exact (append_nil _).symm
  | cons entry later ih =>
    obtain ⟨hentry, hlater⟩ := hkept
    rw [flatMap_cons, entryBlock, append_assoc, readLines_entryFront,
      readLines_markLines hentry.yanked _ _ rfl, frontRead_kept hentry, ih hlater]
    exact append_assoc _ [entry] later

theorem parseRegistryIndex_entries (name : Text) (written : List RegistryVersionEntry) :
    (parseRegistryIndex (indexText name written)).entries =
      (flush (readLines 0 (written.flatMap entryBlock)
        { protocolOk := true, packageName := squeeze name })).entries := by
  have hvalue := LockRoundTrip.oneLine_lockQuote name
  have hline : quotedLine "name" name = assignmentLine "name".toList (lockQuote name) := rfl
  have hprotocol : ∀ lines, readLines 0 ("protocol = 1".toList :: lines) {} =
      readLines 0 lines { protocolOk := true } := fun _ => rfl
  rw [parseRegistryIndex, textLines_indexText]
  dsimp only
  rw [cons_append, hprotocol, singleton_append, readLines, hline,
    readLine_assignment (by decide) hvalue.tight hvalue.uncommented, collectMultilineTomlValue,
    if_pos hvalue.complete, assign]
  dsimp only
  rw [LockRoundTrip.unquote_lockQuote]
  rfl

variable {allowExisting : Bool} {entries : List RegistryVersionEntry} {existing : Option Text}
  {published : RegistryVersionEntry} {name : Text}

theorem indexedEntries_ok (h : indexedEntries name existing = .ok entries) :
    entries = listedEntries existing := by
  cases existing with
  | none => exact (Except.ok.inj h).symm
  | some content =>
    rw [indexedEntries] at h
    split_ifs at h
    exact (Except.ok.inj h).symm

theorem publishedEntries_ok (h : publishedEntries name published allowExisting existing = .ok entries) :
    entries = (listedEntries existing).filter (fun entry => entry.version ≠ published.version) ++
      [published] := by
  rw [publishedEntries] at h
  split_ifs at h
  cases hindexed : indexedEntries name existing with
  | error message =>
    rw [hindexed] at h
    cases h
  | ok listed =>
    rw [hindexed, Except.bind] at h
    split_ifs at h
    rw [← indexedEntries_ok hindexed]
    exact (Except.ok.inj h).symm

theorem indexPreserved_written
    (hpublished : publishedEntries name published allowExisting existing = .ok entries)
    (hsorted : SortedEntries entries written) :
    IndexPreserved (listedEntries existing) published written := by
  have hentries := publishedEntries_ok hpublished
  have hone : entries.filter (fun entry => entry.version = published.version) = [published] := by
    rw [hentries, filter_append, filter_filter]
    simp
  have hothers : entries.filter (fun entry => entry.version ≠ published.version) =
      (listedEntries existing).filter fun entry => entry.version ≠ published.version := by
    rw [hentries, filter_append, filter_filter]
    simp
  refine ⟨?_, ?_, ?_⟩
  · rw [← perm_singleton, ← hone]
    exact hsorted.perm.filter _
  · rw [← hothers]
    exact hsorted.perm.filter _
  · refine hsorted.ordered.imp ?_
    intro lhs rhs hless a b ha hb hgt
    rw [entryLess, ha, hb] at hless
    dsimp only at hless
    rw [VersionOrder.compare_swap (VersionReading.wellRead_of_parse ha).valid
      (VersionReading.wellRead_of_parse hb).valid, hgt] at hless
    exact absurd hless (by decide)

variable {t : Text}

theorem length_appendUtf8Codepoint_le (codepoint : Nat) : (appendUtf8Codepoint codepoint).length ≤ 4 := by
  rw [appendUtf8Codepoint]
  split_ifs
  all_goals simp only [length_cons, length_nil]
  all_goals decide

theorem length_escapeSequence_le (c : Char) (rest : Text) :
    (escapeSequence c rest).1.length ≤ (escapeSequence c rest).2 + 2 ∧
      (escapeSequence c rest).2 ≤ rest.length := by
  have hcodepoint : ∀ hexDigits, 4 ≤ hexDigits →
      (escapeSequence.codepoint c rest hexDigits).1.length ≤
          (escapeSequence.codepoint c rest hexDigits).2 + 2 ∧
        (escapeSequence.codepoint c rest hexDigits).2 ≤ rest.length := by
    intro hexDigits hfour
    rw [escapeSequence.codepoint]
    split_ifs with hshort
    · exact ⟨le_refl 2, Nat.zero_le _⟩
    · cases parseHexCodepoint (rest.take hexDigits) with
      | none => exact ⟨le_refl 2, Nat.zero_le _⟩
      | some codepoint =>
        have h := length_appendUtf8Codepoint_le codepoint
        exact ⟨by dsimp only; omega, by dsimp only; omega⟩
  have hone : (1 : Nat) ≤ 0 + 2 := by decide
  unfold escapeSequence
  split
  all_goals first
    | exact ⟨hone, Nat.zero_le _⟩
    | exact hcodepoint _ (by decide)

theorem length_unescapeFrom_le (skipped : Nat) (s : Text) :
    (unescapeFrom skipped s).length + skipped ≤ max s.length skipped := by
  induction s generalizing skipped with
  | nil => simp [unescapeFrom]
  | cons c rest ih =>
    cases skipped with
    | succ skipped =>
      have h := ih skipped
      rw [unescapeFrom]
      simp only [length_cons]
      omega
    | zero =>
      have hplain : unescapeFrom 0 (c :: rest) = c :: unescapeFrom 0 rest →
          (unescapeFrom 0 (c :: rest)).length + 0 ≤ max (c :: rest).length 0 := by
        intro hplain
        have h := ih 0
        rw [hplain]
        simp only [length_cons]
        omega
      cases rest with
      | nil => exact hplain (by simp [unescapeFrom])
      | cons escaped behind =>
        by_cases hslash : c = '\\'
        · have hsequence : unescapeFrom 0 ('\\' :: escaped :: behind) =
              (escapeSequence escaped behind).1 ++
                unescapeFrom ((escapeSequence escaped behind).2 + 1) (escaped :: behind) := rfl
          obtain ⟨hlength, hused⟩ := length_escapeSequence_le escaped behind
          have h := ih ((escapeSequence escaped behind).2 + 1)
          rw [hslash, hsequence]
          simp only [length_cons, length_append] at h ⊢
          omega
        · exact hplain (by rw [unescapeFrom]; exact fun _ _ h => absurd h hslash)

theorem length_trimCopy_le (s : Text) : (trimCopy s).length ≤ s.length := by
  obtain ⟨front, back, h⟩ := trimCopy_infix s
  have hlength := congrArg List.length h
  simp only [length_append] at hlength
  omega

theorem trimCopy_eq_of_length {s : Text} (h : s.length ≤ (trimCopy s).length) : trimCopy s = s := by
  obtain ⟨front, back, hs⟩ := trimCopy_infix s
  have hlength := congrArg List.length hs
  simp only [length_append] at hlength
  have hfront : front = [] := eq_nil_of_length_eq_zero (by omega)
  have hback : back = [] := eq_nil_of_length_eq_zero (by omega)
  rw [hfront, hback, nil_append, append_nil] at hs
  exact hs.symm

theorem length_quoted {quote : Char} {inner : Text} (h : quoted quote t = some inner) :
    inner.length + 2 = t.length := by
  rw [quoted] at h
  split_ifs at h with hquoted
  obtain rfl := Option.some.inj h
  rw [length_dropLast, length_tail]
  omega

theorem unquote_cases (htrim : trimCopy t = t) : unquote t = t ∨ (unquote t).length < t.length := by
  rw [unquote, htrim]
  cases hdouble : quoted '"' t with
  | some inner =>
    have hinner := length_quoted hdouble
    have hunescape := length_unescapeFrom_le 0 inner
    have hcollapse := collapseBlanks_length false (unescapeTomlBasicString inner)
    have htrimmed := length_trimCopy_le (collapseBlanks false (unescapeTomlBasicString inner))
    rw [unescapeTomlBasicString] at hcollapse htrimmed
    refine .inr ?_
    dsimp only
    rw [unescapeTomlBasicString]
    omega
  | none =>
    dsimp only
    cases hsingle : quoted '\'' t with
    | some inner =>
      have hinner := length_quoted hsingle
      exact .inr (by rw [Option.getD_some]; omega)
    | none => exact .inl rfl

theorem beforeComment_eq_of_length {line : Text}
    (h : line.length ≤ (beforeComment .outside line).length) : beforeComment .outside line = line := by
  rcases MultilineValues.beforeComment_cases .outside line with hwhole | ⟨comment, hcut⟩
  · exact hwhole
  · have hlength := congrArg List.length hcut
    rw [length_append, length_cons] at hlength
    omega

theorem length_beforeComment_le (line : Text) : (beforeComment .outside line).length ≤ line.length := by
  rcases MultilineValues.beforeComment_cases .outside line with hwhole | ⟨comment, hcut⟩
  · exact le_of_eq (congrArg List.length hwhole)
  · have hlength := congrArg List.length hcut
    rw [length_append] at hlength
    omega

def markRead (mark : Text) : Text := unquote (stripTomlComment mark)

theorem markRead_cases (mark : Text) :
    (stripTomlComment mark = mark ∧ beforeComment .outside mark = mark ∧ markRead mark = mark) ∨
      (markRead mark).length < mark.length := by
  have hbefore := length_beforeComment_le mark
  have hstrip : (stripTomlComment mark).length ≤ (beforeComment .outside mark).length :=
    length_trimCopy_le (beforeComment .outside mark)
  have htrim : trimCopy (stripTomlComment mark) = stripTomlComment mark :=
    trimCopy_of_ends (fun _ h => head_trimCopy h) fun _ h => last_trimCopy h
  rcases unquote_cases htrim with hsame | hshorter
  · by_cases hlength : (markRead mark).length < mark.length
    · exact .inr hlength
    · have hread : (markRead mark).length = (stripTomlComment mark).length :=
        congrArg List.length hsame
      have huncommented := @beforeComment_eq_of_length mark (by omega)
      have htight : stripTomlComment mark = mark := by
        have h := @trimCopy_eq_of_length (beforeComment .outside mark) (by
          rw [stripTomlComment] at hread hstrip
          omega)
        rw [stripTomlComment, h, huncommented]
      refine .inl ⟨htight, huncommented, ?_⟩
      rw [markRead, hsame, htight]
  · exact .inr (by rw [markRead]; omega)

theorem stripTomlComment_assignmentLine (hkey : plainKey key = true) (mark : Text) : ∃ text,
    stripTomlComment (assignmentLine key mark) = key ++ " =".toList ++ text ∧
    trimCopy text = stripTomlComment mark := by
  have hfront : ∀ c ∈ key ++ " = ".toList, c ≠ '"' ∧ c ≠ '\'' ∧ c ≠ '#' := by
    intro c hc
    rcases mem_append.1 hc with hc | hc
    · have hplain := LockRoundTrip.plain_of_mem hkey hc
      exact ⟨hplain.1, hplain.2.1, hplain.2.2.1⟩
    · have hspaced : ∀ c ∈ " = ".toList, c ≠ '"' ∧ c ≠ '\'' ∧ c ≠ '#' := by decide
      exact hspaced c hc
  have htight := LockRoundTrip.tight_key hkey
  obtain ⟨front, back, hbefore, hblank, hback⟩ :=
    MultilineValues.trimCopy_blanks (beforeComment .outside mark)
  rw [stripTomlComment, assignmentLine, LockRoundTrip.beforeComment_key hfront]
  change ∃ text, _ ∧ trimCopy text = trimCopy (beforeComment .outside mark)
  have hbehind := BracketedText.trimCopy_behind hback
  have hvalue : trimCopy (beforeComment .outside mark) = [] ∨
      Tight (trimCopy (beforeComment .outside mark)) := by
    by_cases hempty : trimCopy (beforeComment .outside mark) = []
    · exact .inl hempty
    · exact .inr ⟨hempty, fun _ h => head_trimCopy h, fun _ h => last_trimCopy h⟩
  generalize trimCopy (beforeComment .outside mark) = value at hbefore hvalue ⊢
  have hspaced : ∀ c ∈ ' ' :: front, isSpace c = true :=
    forall_mem_cons.2 ⟨by decide, hblank⟩
  rw [hbefore, ← append_assoc, hbehind]
  rcases hvalue with rfl | hvalue
  · have hequal : Tight ['='] := by
      refine ⟨cons_ne_nil _ _, fun c hc => ?_, fun c hc => ?_⟩
      · rw [← Option.some.inj hc]
        decide
      · rw [← Option.some.inj hc]
        decide
    have hassign : Tight (key ++ [' '] ++ ['=']) := htight.between hequal _
    have hline : key ++ " = ".toList ++ (front ++ []) = key ++ [' '] ++ ['='] ++ ' ' :: front := by
      simp
    rw [hline, BracketedText.trimCopy_behind hspaced, hassign.trimCopy]
    exact ⟨[], by simp, rfl⟩
  · have hline : key ++ " = ".toList ++ (front ++ value) =
        key ++ (" = ".toList ++ front) ++ value := by simp
    rw [hline, (htight.between hvalue _).trimCopy]
    refine ⟨' ' :: front ++ value, by simp, ?_⟩
    rw [BracketedText.trimCopy_front hspaced, hvalue.trimCopy]

theorem readLine_mark (mark : Text) (lines : List Text) (reader : IndexReader)
    (entry : RegistryVersionEntry) :
    readLine (reading reader entry) (assignmentLine "yanked".toList mark) lines =
      (reading reader { entry with
        yanked := unquote (collectMultilineTomlValue (stripTomlComment mark) lines).1 },
        (collectMultilineTomlValue (stripTomlComment mark) lines).2) := by
  obtain ⟨text, hline, htext⟩ := @stripTomlComment_assignmentLine "yanked".toList (by decide) mark
  have hfirst : (stripTomlComment (assignmentLine "yanked".toList mark)).head? = some 'y' := by
    rw [hline]
    rfl
  have hempty : stripTomlComment (assignmentLine "yanked".toList mark) ≠ [] := by
    intro h
    rw [h] at hfirst
    cases hfirst
  have hversion : stripTomlComment (assignmentLine "yanked".toList mark) ≠ "[[version]]".toList := by
    intro h
    rw [h] at hfirst
    exact absurd hfirst (by decide)
  have hbracket : ¬ ((stripTomlComment (assignmentLine "yanked".toList mark)).head? = some '[' ∧
      (stripTomlComment (assignmentLine "yanked".toList mark)).getLast? = some ']') := by
    rw [hfirst]
    exact fun h => absurd h.1 (by decide)
  rw [readLine, if_neg hempty, if_neg hversion, if_neg hbracket, hline,
    LockRoundTrip.parseTomlAssignment_key (by decide), htext]
  simp only [Option.map_some, Option.getD_some, assign_reading]
  rfl

def opensEntry (line : Text) : Bool := stripTomlComment line = "[[version]]".toList

theorem length_assign (reader : IndexReader) (assignment : ParsedTomlAssignment) :
    (flush (assign reader assignment)).entries.length = (flush reader).entries.length := by
  rw [assign]
  split_ifs
  · rfl
  · rfl
  · simp only [flush, length_append]
    cases reader.current <;> rfl
  · rfl

theorem length_readLine_le (reader : IndexReader) (line : Text) (lines : List Text) :
    (flush (readLine reader line lines).1).entries.length ≤
      (flush reader).entries.length + [line].countP opensEntry := by
  rw [readLine]
  dsimp only
  split_ifs with hempty hversion hbracket
  · exact Nat.le_add_right _ _
  · have hopens : opensEntry line = true := decide_eq_true hversion
    rw [countP_singleton, hopens, if_pos rfl]
    simp [flush, Nat.add_assoc]
  · simp [flush]
  · cases (parseTomlAssignment (stripTomlComment line) lines).1 with
    | none => exact Nat.le_add_right _ _
    | some assignment => exact le_trans (le_of_eq (length_assign reader assignment)) (Nat.le_add_right _ _)

theorem length_readLines_le (collected : Nat) (lines : List Text) (reader : IndexReader) :
    (flush (readLines collected lines reader)).entries.length ≤
      (flush reader).entries.length + lines.countP opensEntry := by
  induction lines generalizing collected reader with
  | nil => cases collected <;> exact Nat.le_add_right _ _
  | cons line lines ih =>
    have hcount : (line :: lines).countP opensEntry =
        [line].countP opensEntry + lines.countP opensEntry :=
      @countP_append _ _ [line] lines
    rw [hcount]
    cases collected with
    | succ collected =>
      rw [readLines]
      have h := ih collected reader
      omega
    | zero =>
      rw [readLines]
      have hfirst := length_readLine_le reader line lines
      have h := ih (readLine reader line lines).2 (readLine reader line lines).1
      omega

theorem opensEntry_assignmentLine (hkey : plainKey key = true) (value : Text) :
    opensEntry (assignmentLine key value) = false := by
  obtain ⟨text, hline, -⟩ := stripTomlComment_assignmentLine hkey value
  obtain ⟨c, rest, rfl⟩ := exists_cons_of_ne_nil (LockRoundTrip.tight_key hkey).ne_nil
  have hc := (LockRoundTrip.plain_of_mem hkey mem_cons_self).2.2.2.2.2.1
  refine decide_eq_false fun h => hc ?_
  rw [hline] at h
  exact (List.cons.inj h).1

theorem markLines_single (hmark : '\n' ∉ mark) :
    markLines mark = if mark = [] then [] else [assignmentLine "yanked".toList mark] := by
  have hsplit : mark.splitOn '\n' = [mark] := splitOn_eq_singleton hmark
  rw [markLines, hsplit]
  rfl

theorem countP_entryBlock (entry : RegistryVersionEntry) (hmark : '\n' ∉ entry.yanked) :
    (entryBlock entry).countP opensEntry = 1 := by
  have hquoted : ∀ (key : String) (value : Text), plainKey key.toList = true →
      opensEntry (quotedLine key value) = false := fun key value hkey =>
    opensEntry_assignmentLine hkey (lockQuote value)
  have hblank : opensEntry [] = false := by decide
  have hversion : opensEntry "[[version]]".toList = true := by decide
  have hsignature : (optionalLine "signature" entry.signature).countP opensEntry = 0 := by
    rw [optionalLine]
    split_ifs
    · rfl
    · rw [countP_singleton, hquoted _ _ (by decide)]
      rfl
  have hmarkLines : (markLines entry.yanked).countP opensEntry = 0 := by
    rw [markLines_single hmark]
    split_ifs
    · rfl
    · rw [countP_singleton, opensEntry_assignmentLine (by decide)]
      rfl
  have hkeys : plainKey "version".toList = true ∧ plainKey "archive".toList = true ∧
      plainKey "checksum".toList = true := by decide
  obtain ⟨hversionKey, harchiveKey, hchecksumKey⟩ := hkeys
  rw [entryBlock, entryFront, countP_append, countP_append, hsignature, hmarkLines,
    countP_cons_of_neg (by simp [hblank]), countP_cons_of_pos hversion,
    countP_cons_of_neg (by simp [hquoted _ _ hversionKey]),
    countP_cons_of_neg (by simp [hquoted _ _ harchiveKey]),
    countP_cons_of_neg (by simp [hquoted _ _ hchecksumKey])]
  rfl

theorem countP_flatMap (hmarks : ∀ entry ∈ written, '\n' ∉ entry.yanked) :
    (written.flatMap entryBlock).countP opensEntry = written.length := by
  induction written with
  | nil => rfl
  | cons entry later ih =>
    obtain ⟨hentry, hlater⟩ := forall_mem_cons.1 hmarks
    rw [flatMap_cons, countP_append, countP_entryBlock entry hentry, ih hlater,
      length_cons, Nat.add_comm]

theorem unquote_append_newline (value : Text) : unquote (value ++ ['\n']) = unquote value := by
  rw [unquote, unquote, BracketedText.trimCopy_concat (by decide)]

def Alone (value : Text) : Prop :=
  tomlValueIsComplete value = true ∨ tomlArrayIsComplete (value ++ ['\n']) = true

theorem collected_alone (h : Alone value) (lines : List Text) :
    (collectMultilineTomlValue value ([] :: lines)).2 ≤ 1 ∧
    unquote (collectMultilineTomlValue value ([] :: lines)).1 = unquote value := by
  rw [collectMultilineTomlValue]
  by_cases hcomplete : tomlValueIsComplete value = true
  · rw [if_pos hcomplete]
    exact ⟨Nat.zero_le 1, rfl⟩
  · have hstrip : stripTomlComment [] = [] := rfl
    have harray := h.resolve_left hcomplete
    rw [if_neg hcomplete, collectLines]
    dsimp only
    rw [hstrip, if_pos harray]
    exact ⟨le_refl 1, unquote_append_newline value⟩

theorem collected_further (h : ¬ Alone value) (line : Text) (lines : List Text) :
    2 ≤ (collectMultilineTomlValue value ([] :: line :: lines)).2 := by
  have hstrip : stripTomlComment [] = [] := rfl
  have hincomplete : ¬ tomlValueIsComplete value = true := fun hcomplete => h (.inl hcomplete)
  have hopen : ¬ tomlArrayIsComplete (value ++ ['\n']) = true := fun harray => h (.inr harray)
  rw [collectMultilineTomlValue, if_neg hincomplete, collectLines]
  dsimp only
  rw [hstrip, if_neg hopen, collectLines]
  dsimp only
  split_ifs
  · exact le_refl 2
  · exact Nat.succ_le_succ (Nat.succ_le_succ (Nat.zero_le _))

/-- The entry that is read where `entry` was written with a mark that stands alone. -/
def entryRead (entry : RegistryVersionEntry) : RegistryVersionEntry :=
  { frontRead entry with yanked := markRead entry.yanked }

def MarksAlone : List RegistryVersionEntry → Prop
  | [] => True
  | entry :: later =>
    (entry.yanked = [] ∨ later = [] ∨ Alone (stripTomlComment entry.yanked)) ∧ MarksAlone later

theorem readLines_mark (hmark : '\n' ∉ entry.yanked)
    (halone : entry.yanked = [] ∨ later = [] ∨ Alone (stripTomlComment entry.yanked)) (reader : IndexReader) :
    readLines 0 (entryBlock entry ++ later.flatMap entryBlock) reader =
    readLines 0 (later.flatMap entryBlock) (reading reader (entryRead entry)) := by
  rw [entryBlock, append_assoc, readLines_entryFront, markLines_single hmark]
  by_cases hempty : entry.yanked = []
  · rw [if_pos hempty, entryRead, hempty]
    rfl
  · rw [if_neg hempty, singleton_append, readLines, readLine_mark, entryRead, markRead]
    dsimp only
    cases later with
    | nil =>
      have hcollect : collectMultilineTomlValue (stripTomlComment entry.yanked) [] =
          (stripTomlComment entry.yanked, 0) := by
        rw [collectMultilineTomlValue]
        split_ifs <;> rfl
      rw [flatMap_nil, hcollect]
    | cons next later =>
      have h := (halone.resolve_left hempty).resolve_left (cons_ne_nil _ _)
      obtain ⟨more, hmore⟩ := flatMap_entryBlock_cons next later
      have hlines : (next :: later).flatMap entryBlock = [] :: "[[version]]".toList :: more := by
        rw [hmore, linesBehind, if_neg (cons_ne_nil _ _)]
        rfl
      obtain ⟨hcount, hunquote⟩ := collected_alone h ("[[version]]".toList :: more)
      rw [← hlines] at hcount hunquote
      rw [hunquote, readLines_later hcount]

theorem readLines_single (hmarks : ∀ entry ∈ written, '\n' ∉ entry.yanked) (reader : IndexReader) :
    (MarksAlone written ∧ (flush (readLines 0 (written.flatMap entryBlock) reader)).entries =
        (flush reader).entries ++ written.map entryRead) ∨
      (flush (readLines 0 (written.flatMap entryBlock) reader)).entries.length <
        (flush reader).entries.length + written.length := by
  induction written generalizing reader with
  | nil => exact .inl ⟨trivial, (append_nil _).symm⟩
  | cons entry later ih =>
    obtain ⟨hentry, hlater⟩ := forall_mem_cons.1 hmarks
    rw [flatMap_cons]
    by_cases halone : entry.yanked = [] ∨ later = [] ∨ Alone (stripTomlComment entry.yanked)
    · rw [readLines_mark hentry halone]
      have hread : (flush (reading reader (entryRead entry))).entries =
          (flush reader).entries ++ [entryRead entry] := rfl
      rcases ih hlater (reading reader (entryRead entry)) with ⟨hothers, h⟩ | h
      · refine .inl ⟨⟨halone, hothers⟩, ?_⟩
        rw [h, hread, append_assoc]
        rfl
      · refine .inr ?_
        rw [hread, length_append] at h
        rw [length_cons]
        simp only [length_cons, length_nil] at h
        omega
    · obtain ⟨hmark, hnext, hfurther⟩ : entry.yanked ≠ [] ∧ later ≠ [] ∧
          ¬ Alone (stripTomlComment entry.yanked) := by tauto
      obtain ⟨next, rest, rfl⟩ := exists_cons_of_ne_nil hnext
      obtain ⟨more, hmore⟩ := flatMap_entryBlock_cons next rest
      have hlines : (next :: rest).flatMap entryBlock = [] :: "[[version]]".toList :: more := by
        rw [hmore, linesBehind, if_neg (cons_ne_nil _ _)]
        rfl
      have hcount : more.countP opensEntry = rest.length := by
        have hall := countP_flatMap hlater
        have hblank : opensEntry [] = false := by decide
        have hversion : opensEntry "[[version]]".toList = true := by decide
        rw [hlines, countP_cons_of_neg (by simp [hblank]), countP_cons_of_pos hversion,
          length_cons] at hall
        exact Nat.succ.inj hall
      obtain ⟨c, hc⟩ := Nat.exists_eq_add_of_le'
        (collected_further hfurther "[[version]]".toList more)
      rw [hlines, entryBlock, append_assoc, readLines_entryFront, markLines_single hentry,
        if_neg hmark, singleton_append, readLines, readLine_mark, hc]
      dsimp only
      have hskip : ∀ r : IndexReader, readLines (c + 2) ([] :: "[[version]]".toList :: more) r =
          readLines c more r := fun _ => rfl
      rw [hskip]
      refine .inr (Nat.lt_of_le_of_lt (length_readLines_le c more _) ?_)
      rw [hcount]
      simp only [reading, flush, length_append, length_cons, Option.toList_some, length_nil]
      omega

theorem IndexPreserved.perm {listed parsed parsed' : List RegistryVersionEntry}
    (h : IndexPreserved listed published parsed) (h' : IndexPreserved listed published parsed') :
    parsed.Perm parsed' := by
  have hparts : ∀ l : List RegistryVersionEntry, l.Perm
      (l.filter (fun entry => entry.version = published.version) ++
        l.filter fun entry => entry.version ≠ published.version) := by
    intro l
    have hperm := filter_append_perm (fun entry => entry.version = published.version) l
    simpa using hperm.symm
  have hone := h.one.trans h'.one.symm
  exact (hparts parsed).trans (((List.Perm.of_eq hone).append (h.kept.trans h'.kept.symm)).trans
    (hparts parsed').symm)

theorem stands_of_read (hempty : mark ≠ []) (hmark : '\n' ∉ mark) (hstrip : stripTomlComment mark = mark)
    (hbefore : beforeComment .outside mark = mark) (hread : markRead mark = mark)
    (halone : later = [] ∨ Alone (stripTomlComment mark)) : Stands (linesBehind later) mark := by
  have hsplit : mark.splitOn '\n' = [mark] := splitOn_eq_singleton hmark
  have htight : Tight mark := by
    rw [← hstrip]
    refine ⟨?_, fun _ h => head_trimCopy h, fun _ h => last_trimCopy h⟩
    rwa [hstrip]
  have hunquote : unquote mark = mark := by
    rw [markRead, hstrip] at hread
    exact hread
  have hcollect : (collectMultilineTomlValue mark (linesBehind later)).2 ≤ 1 ∧
      unquote (collectMultilineTomlValue mark (linesBehind later)).1 = unquote mark := by
    rw [linesBehind]
    by_cases hlater : later = []
    · have hnone : collectMultilineTomlValue mark [] = (mark, 0) := by
        rw [collectMultilineTomlValue]
        split_ifs <;> rfl
      rw [if_pos hlater, hnone]
      exact ⟨Nat.zero_le 1, rfl⟩
    · rw [hstrip] at halone
      rw [if_neg hlater]
      exact collected_alone (halone.resolve_left hlater) _
  refine ⟨?_, ?_, ?_, ?_, ?_⟩
  · rwa [hsplit]
  · rwa [hsplit]
  · rw [hsplit]
    exact Nat.zero_le _
  · rw [collectedMark, hsplit]
    exact hcollect.1
  · rw [collectedMark, hsplit]
    exact hcollect.2.trans hunquote

theorem squeezed_entryRead (hread : entry ∈ written.map entryRead) : Squeezed entry.version ∧
    Squeezed entry.archive ∧ Squeezed ("sha256:".toList ++ entry.checksum) ∧ Squeezed entry.signature := by
  obtain ⟨other, -, rfl⟩ := mem_map.1 hread
  have hprefix : "sha256:".toList <+: squeeze ("sha256:".toList ++ other.checksum) :=
    prefix_squeeze (by decide) (by decide) _
  have hchecksum : "sha256:".toList ++ (squeeze ("sha256:".toList ++ other.checksum)).drop 7 =
      squeeze ("sha256:".toList ++ other.checksum) := (prefix_append_drop hprefix).symm
  refine ⟨squeezed_squeeze _, squeezed_squeeze _, ?_, squeezed_squeeze _⟩
  rw [entryRead, frontRead, hchecksum]
  exact squeezed_squeeze _

theorem allKept_of_read (hmarks : ∀ entry ∈ written, '\n' ∉ entry.yanked)
    (halone : MarksAlone written) (hread : ∀ entry ∈ written, Squeezed entry.version ∧
      Squeezed entry.archive ∧ Squeezed ("sha256:".toList ++ entry.checksum) ∧ Squeezed entry.signature)
    (hlengths : ∀ entry ∈ written, entry.yanked.length ≤ (markRead entry.yanked).length) :
    AllKept written := by
  induction written with
  | nil => trivial
  | cons entry later ih =>
    obtain ⟨hentry, hmarks⟩ := forall_mem_cons.1 hmarks
    obtain ⟨⟨hversion, harchive, hchecksum, hsignature⟩, hread⟩ := forall_mem_cons.1 hread
    obtain ⟨hlength, hlengths⟩ := forall_mem_cons.1 hlengths
    refine ⟨⟨hversion, harchive, hchecksum, hsignature, ?_⟩, ih hmarks halone.2 hread hlengths⟩
    by_cases hempty : entry.yanked = []
    · exact .inl hempty
    · rcases markRead_cases entry.yanked with ⟨hstrip, hbefore, hsame⟩ | hshorter
      · exact .inr (stands_of_read hempty hentry hstrip hbefore hsame (halone.1.resolve_left hempty))
      · omega

/-- A published index is preserved when all its texts are read as they are written. -/
theorem publishedEntries_preserved
    (hpublished : publishedEntries name published allowExisting existing = .ok entries)
    (hsorted : SortedEntries entries written) :
    (AllKept written → IndexPreserved (listedEntries existing) published
      (parseRegistryIndex (indexText name written)).entries) ∧
    ((∀ entry ∈ written, '\n' ∉ entry.yanked) → IndexPreserved (listedEntries existing) published
      (parseRegistryIndex (indexText name written)).entries → AllKept written) := by
  have hwritten := indexPreserved_written hpublished hsorted
  rw [parseRegistryIndex_entries]
  constructor
  · intro hkept
    have hentries := readLines_entries hkept { protocolOk := true, packageName := squeeze name }
    rw [hentries]
    exact hwritten
  · intro hmarks hpreserved
    have hperm := hpreserved.perm hwritten
    rcases readLines_single hmarks { protocolOk := true, packageName := squeeze name } with
      ⟨halone, hread⟩ | hfewer
    · rw [hread] at hperm
      have hsame : (written.map entryRead).Perm written := hperm
      refine allKept_of_read hmarks halone
        (fun entry hentry => squeezed_entryRead (hsame.mem_iff.2 hentry)) ?_
      have hsum := (hsame.map fun entry => entry.yanked.length).sum_eq
      rw [map_map] at hsum
      have hle : ∀ entry ∈ written, (markRead entry.yanked).length ≤ entry.yanked.length := by
        intro entry _
        rcases markRead_cases entry.yanked with ⟨-, -, hkeep⟩ | hshorter
        · exact le_of_eq (congrArg List.length hkeep)
        · exact le_of_lt hshorter
      intro entry hentry
      by_contra hshorter
      have hlt := sum_lt_sum (fun entry : RegistryVersionEntry => (markRead entry.yanked).length)
        (fun entry => entry.yanked.length) hle ⟨entry, hentry, by omega⟩
      exact absurd hsum (ne_of_lt hlt)
    · rw [hperm.length_eq] at hfewer
      exact absurd hfewer (by simp [flush])

def release (version yanked : String) : RegistryVersionEntry where
  version := version.toList
  archive := "a.tgz".toList
  checksum := "0f".toList
  yanked := yanked.toList

def heldIndex (mark : String) : Text :=
  "protocol = 1\nname = \"p\"\n[[version]]\nversion = \"1.0.0\"\narchive = \"a.tgz\"\n".toList ++
    "checksum = \"sha256:0f\"\nyanked = \"".toList ++ mark.toList ++ "\"\n".toList

theorem sorted_releases (mark : String) :
    SortedEntries [release "1.0.0" mark, release "1.1.0" ""]
      [release "1.0.0" mark, release "1.1.0" ""] := by
  have hless : entryLess (release "1.1.0" "") (release "1.0.0" "") = false := by decide +kernel
  exact ⟨List.Perm.refl _, pairwise_pair.2 hless⟩

theorem squeezed_release (version mark : String) (hversion : squeeze version.toList = version.toList) :
    Squeezed (release version mark).version ∧ Squeezed (release version mark).archive ∧
      Squeezed ("sha256:".toList ++ (release version mark).checksum) ∧
        Squeezed (release version mark).signature := by
  have harchive : squeeze "a.tgz".toList = "a.tgz".toList := by decide
  have hchecksum : squeeze "sha256:0f".toList = "sha256:0f".toList := by decide
  have hsignature : squeeze [] = [] := rfl
  exact ⟨squeeze_eq_self_iff.1 hversion, squeeze_eq_self_iff.1 harchive,
    squeeze_eq_self_iff.1 hchecksum, squeeze_eq_self_iff.1 hsignature⟩

theorem held_preserved : IndexPreserved (listedEntries (some (heldIndex "held"))) (release "1.1.0" "")
    (parseRegistryIndex (indexText "p".toList [release "1.0.0" "held", release "1.1.0" ""])).entries := by
  have hpublished : publishedEntries "p".toList (release "1.1.0" "") false
      (some (heldIndex "held")) = .ok [release "1.0.0" "held", release "1.1.0" ""] := by
    decide +kernel
  have hmark : Stands (linesBehind [release "1.1.0" ""]) "held".toList :=
    stands_of_read (by decide) (by decide) (by decide) (by decide) (by decide) (.inr (.inl (by decide)))
  obtain ⟨hversion, harchive, hchecksum, hsignature⟩ := squeezed_release "1.0.0" "held" (by decide)
  obtain ⟨hversion', harchive', hchecksum', hsignature'⟩ := squeezed_release "1.1.0" "" (by decide)
  exact (publishedEntries_preserved hpublished (sorted_releases "held")).1
    ⟨⟨hversion, harchive, hchecksum, hsignature, .inr hmark⟩,
      ⟨hversion', harchive', hchecksum', hsignature', .inl rfl⟩, trivial⟩

/-- What stands behind a `#` of a mark is lost when another version is published. -/
theorem not_publishedEntries_preserved :
    ¬ ∀ (name : Text) (published : RegistryVersionEntry) (allowExisting : Bool)
      (existing : Option Text) (entries written : List RegistryVersionEntry),
      publishedEntries name published allowExisting existing = .ok entries →
        SortedEntries entries written → IndexPreserved (listedEntries existing) published
          (parseRegistryIndex (indexText name written)).entries := by
  intro hclaim
  have hpublished : publishedEntries "p".toList (release "1.1.0" "") false
      (some (heldIndex "held: #42")) = .ok [release "1.0.0" "held: #42", release "1.1.0" ""] := by
    decide +kernel
  have hkept := (hclaim _ _ _ _ _ _ hpublished (sorted_releases "held: #42")).kept
  have hlisted : release "1.0.0" "held: #42" ∈ (listedEntries (some (heldIndex "held: #42"))).filter
      fun entry => entry.version ≠ (release "1.1.0" "").version := by
    decide +kernel
  have hread := (mem_filter.1 (hkept.mem_iff.2 hlisted)).1
  exact absurd hread (by decide +kernel)

end Mlang.PublishedIndex
