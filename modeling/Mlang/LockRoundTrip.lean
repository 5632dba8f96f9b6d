import Mlang.DecimalTexts
import Mlang.LockFiles
import Mlang.ManifestDependencies
import Mlang.SqueezedTexts

namespace Mlang.LockRoundTrip

open BracketedText (Text Tight isSpace trimCopy)
open OrderedTables DependencyLocks TomlText LockFiles SqueezedTexts List Option

def escaped (c : Char) : Text :=
  (if c = '\\' ∨ c = '"' then ['\\'] else []) ++ (if c = '\n' then ['\\', 'n'] else [c])

theorem escaped_cases (c : Char) : (escaped c = ['\\', c] ∧ (c = '\\' ∨ c = '"')) ∨
    (escaped c = ['\\', 'n'] ∧ c = '\n') ∨ (escaped c = [c] ∧ c ≠ '\\' ∧ c ≠ '"' ∧ c ≠ '\n') := by
  by_cases hquote : c = '\\' ∨ c = '"'
  · have hline : c ≠ '\n' := by
      rintro rfl
      exact absurd hquote (by decide)
    exact .inl ⟨by simp [escaped, hquote, hline], hquote⟩
  · by_cases hline : c = '\n'
    · exact .inr (.inl ⟨by simp [escaped, hline], hline⟩)
    · refine .inr (.inr ⟨by simp [escaped, hquote, hline], ?_⟩)
      exact ⟨fun h => hquote (.inl h), fun h => hquote (.inr h), hline⟩

theorem lockQuote_eq (value : Text) : lockQuote value = '"' :: (value.flatMap escaped ++ ['"']) := rfl

theorem beforeComment_escaped (c : Char) (rest : Text) :
    beforeComment (.double false) (escaped c ++ rest) =
      escaped c ++ beforeComment (.double false) rest := by
  rcases escaped_cases c with ⟨h, hc⟩ | ⟨h, -⟩ | ⟨h, hslash, hquote, -⟩
  · rw [h]
    simp [beforeComment, Quotes.step]
  · rw [h]
    simp [beforeComment, Quotes.step]
  · rw [h]
    simp [beforeComment, Quotes.step, hslash, hquote]

theorem beforeComment_lockQuote (value : Text) :
    beforeComment .outside (lockQuote value) = lockQuote value := by
  have hbody : beforeComment (.double false) (value.flatMap escaped ++ ['"']) =
      value.flatMap escaped ++ ['"'] := by
    induction value with
    | nil => rfl
    | cons c value ih =>
      rw [flatMap_cons, append_assoc, beforeComment_escaped, ih]
  rw [lockQuote_eq, beforeComment, if_neg (by decide)]
  exact congrArg ('"' :: ·) hbody

theorem closesAtEnd_escaped (c : Char) (rest : Text) :
    closesAtEnd false (escaped c ++ rest) = closesAtEnd false rest := by
  rcases escaped_cases c with ⟨h, hc⟩ | ⟨h, -⟩ | ⟨h, hslash, hquote, -⟩
  · rw [h]
    simp [closesAtEnd]
  · rw [h]
    simp [closesAtEnd]
  · rw [h]
    simp [closesAtEnd, hslash, hquote]

theorem closesAtEnd_body (value : Text) : closesAtEnd false (value.flatMap escaped ++ ['"']) = true := by
  induction value with
  | nil => rfl
  | cons c value ih => rw [flatMap_cons, append_assoc, closesAtEnd_escaped, ih]

theorem unescape_escaped (c : Char) (rest : Text) :
    unescapeFrom 0 (escaped c ++ rest) = c :: unescapeFrom 0 rest := by
  rcases escaped_cases c with ⟨h, rfl | rfl⟩ | ⟨h, rfl⟩ | ⟨h, hslash, -, -⟩
  · rw [h]
    simp [unescapeFrom, escapeSequence]
  · rw [h]
    simp [unescapeFrom, escapeSequence]
  · rw [h]
    simp [unescapeFrom, escapeSequence]
  · rw [h, singleton_append, unescapeFrom]
    intro escaped behind hc
    exact absurd hc hslash

theorem unescape_body (value : Text) : unescapeTomlBasicString (value.flatMap escaped) = value := by
  rw [unescapeTomlBasicString]
  induction value with
  | nil => rfl
  | cons c value ih => rw [flatMap_cons, unescape_escaped, ih]

theorem tight_lockQuote (value : Text) : Tight (lockQuote value) :=
  Tight.surround (o := '"') (c := '"') (by decide) (by decide)

theorem unquote_lockQuote (value : Text) : unquote (lockQuote value) = squeeze value := by
  have hquoted : quoted '"' (lockQuote value) = some (value.flatMap escaped) := by
    have hlast : ('"' :: (value.flatMap escaped ++ ['"'])).getLast? = some '"' := by
      rw [← cons_append, getLast?_concat]
    rw [quoted, lockQuote_eq, if_pos ⟨by simp, rfl, hlast⟩]
    simp
  rw [unquote, (tight_lockQuote value).trimCopy, hquoted]
  dsimp only
  rw [unescape_body, squeeze]

theorem tomlValueIsComplete_lockQuote (value : Text) : tomlValueIsComplete (lockQuote value) = true := by
  rw [tomlValueIsComplete, (tight_lockQuote value).trimCopy, lockQuote_eq]
  exact closesAtEnd_body value

variable {c : Char} {key value : Text}

def plainKey (key : Text) : Bool := key ≠ [] && key.all fun c => c.isLower || c = '_'

theorem toNat_of_plain (h : (c.isLower || c = '_') = true) : 95 ≤ c.toNat := by
  have htoNat : c.val.toNat = c.toNat := rfl
  simp only [Char.isLower, Bool.or_eq_true, Bool.and_eq_true, decide_eq_true_eq, ge_iff_le,
    UInt32.le_iff_toNat_le, htoNat] at h
  rcases h with h | rfl
  · exact le_trans (by decide) h.1
  · decide

theorem plain_of_mem (hkey : plainKey key = true) (hc : c ∈ key) :
    c ≠ '"' ∧ c ≠ '\'' ∧ c ≠ '#' ∧ c ≠ '=' ∧ c ≠ '+' ∧ c ≠ '[' ∧ isSpace c = false := by
  rw [plainKey, Bool.and_eq_true] at hkey
  have hlow := toNat_of_plain (all_eq_true.1 hkey.2 c hc)
  have hne : ∀ d : Char, d.toNat < 95 → c ≠ d := by
    rintro d hd rfl
    omega
  refine ⟨hne _ (by decide), hne _ (by decide), hne _ (by decide), hne _ (by decide),
    hne _ (by decide), hne _ (by decide), ?_⟩
  rw [isSpace, Bool.or_eq_false_iff, decide_eq_false_iff_not, Bool.and_eq_false_iff,
    decide_eq_false_iff_not, decide_eq_false_iff_not]
  exact ⟨hne ' ' (by decide), by omega⟩

def assignmentLine (key value : Text) : Text := key ++ " = ".toList ++ value

theorem step_outside (hdouble : c ≠ '"') (hsingle : c ≠ '\'') : Quotes.step .outside c = .outside := by
  rw [Quotes.step, if_neg hdouble, if_neg hsingle]

theorem beforeComment_key (hkey : ∀ c ∈ key, c ≠ '"' ∧ c ≠ '\'' ∧ c ≠ '#') (rest : Text) :
    beforeComment .outside (key ++ rest) = key ++ beforeComment .outside rest := by
  induction key with
  | nil => rfl
  | cons c key ih =>
    obtain ⟨⟨hdouble, hsingle, hhash⟩, hkey⟩ := forall_mem_cons.1 hkey
    rw [cons_append, beforeComment, if_neg fun h => hhash h.2, step_outside hdouble hsingle,
      ih hkey, cons_append]

theorem splitAssignment_key (hkey : ∀ c ∈ key, c ≠ '"' ∧ c ≠ '\'' ∧ c ≠ '=') (value : Text) :
    splitAssignment .outside (key ++ '=' :: value) = some (key, value) := by
  induction key with
  | nil => rfl
  | cons c key ih =>
    obtain ⟨⟨hdouble, hsingle, hequal⟩, hkey⟩ := forall_mem_cons.1 hkey
    rw [cons_append, splitAssignment, if_neg fun h => hequal h.2, step_outside hdouble hsingle, ih hkey]
    rfl

structure OneLine (value : Text) : Prop where
  tight : Tight value
  uncommented : beforeComment .outside value = value
  complete : tomlValueIsComplete value = true

theorem oneLine_lockQuote (value : Text) : OneLine (lockQuote value) :=
  ⟨tight_lockQuote value, beforeComment_lockQuote value, tomlValueIsComplete_lockQuote value⟩

variable (hkey : plainKey key = true)
include hkey

theorem tight_key : Tight key where
  ne_nil := by
    rintro rfl
    cases hkey
  head := fun _ hc => (plain_of_mem hkey (mem_of_head? hc)).2.2.2.2.2.2
  last := fun _ hc => (plain_of_mem hkey (mem_of_getLast? hc)).2.2.2.2.2.2

theorem stripTomlComment_assignment (htight : Tight value)
    (huncommented : beforeComment .outside value = value) :
    stripTomlComment (assignmentLine key value) = assignmentLine key value := by
  have hfront : ∀ c ∈ key ++ " = ".toList, c ≠ '"' ∧ c ≠ '\'' ∧ c ≠ '#' := by
    intro c hc
    rcases mem_append.1 hc with hc | hc
    · have hplain := plain_of_mem hkey hc
      exact ⟨hplain.1, hplain.2.1, hplain.2.2.1⟩
    · have hspaced : ∀ c ∈ " = ".toList, c ≠ '"' ∧ c ≠ '\'' ∧ c ≠ '#' := by decide
      exact hspaced c hc
  rw [stripTomlComment, assignmentLine, beforeComment_key hfront, huncommented]
  exact ((tight_key hkey).between htight _).trimCopy

theorem parseTomlAssignment_key (text : Text) (lines : List Text) :
    parseTomlAssignment (key ++ " =".toList ++ text) lines =
      (some ⟨key, (collectMultilineTomlValue (trimCopy text) lines).1, false⟩,
        (collectMultilineTomlValue (trimCopy text) lines).2) := by
  have hline : key ++ " =".toList ++ text = (key ++ [' ']) ++ '=' :: text := by
    simp
  have hfront : ∀ c ∈ key ++ [' '], c ≠ '"' ∧ c ≠ '\'' ∧ c ≠ '=' := by
    intro c hc
    rcases mem_append.1 hc with hc | hc
    · have hplain := plain_of_mem hkey hc
      exact ⟨hplain.1, hplain.2.1, hplain.2.2.2.1⟩
    · rw [mem_singleton.1 hc]
      decide
  have hkeyTrim : trimCopy (key ++ [' ']) = key := by
    rw [BracketedText.trimCopy_concat (by decide), (tight_key hkey).trimCopy]
  rw [hline, parseTomlAssignment, splitAssignment_key hfront]
  simp [hkeyTrim, (tight_key hkey).ne_nil]

theorem parseTomlAssignment_collected (htight : Tight value)
    (lines : List Text) : parseTomlAssignment (assignmentLine key value) lines =
      (some ⟨key, (collectMultilineTomlValue value lines).1, false⟩,
        (collectMultilineTomlValue value lines).2) := by
  have hline : assignmentLine key value = key ++ " =".toList ++ ' ' :: value := by
    simp [assignmentLine]
  have htrim : trimCopy (' ' :: value) = value := by
    rw [BracketedText.trimCopy_cons (by decide), htight.trimCopy]
  rw [hline, parseTomlAssignment_key hkey, htrim]

theorem parseTomlAssignment_assignment (hvalue : OneLine value)
    (lines : List Text) : parseTomlAssignment (assignmentLine key value) lines =
      (some ⟨key, value, false⟩, 0) := by
  rw [parseTomlAssignment_collected hkey hvalue.tight, collectMultilineTomlValue, if_pos hvalue.complete]

theorem head_assignmentLine (value : Text) :
    (assignmentLine key value).head? ≠ some '[' := by
  obtain ⟨c, rest, rfl⟩ := exists_cons_of_ne_nil (tight_key hkey).ne_nil
  exact fun h => (plain_of_mem hkey mem_cons_self).2.2.2.2.2.1 (some.inj h)

theorem assignmentLine_ne_nil (value : Text) :
    assignmentLine key value ≠ [] := by
  rw [assignmentLine, append_assoc]
  exact append_ne_nil_of_left_ne_nil (tight_key hkey).ne_nil _

omit hkey

theorem readLine_assignment (path : Text) (hkey : plainKey key = true) (hvalue : OneLine value)
    (reader : Reader) (lines : List Text) :
    readLine path reader (assignmentLine key value) lines =
      (assign path reader ⟨key, value, false⟩).map fun reader => (reader, 0) := by
  have hopens := head_assignmentLine hkey value
  have hsection : assignmentLine key value ≠ "[[package]]".toList := fun h =>
    hopens (congrArg List.head? h)
  rw [readLine, stripTomlComment_assignment hkey hvalue.tight hvalue.uncommented]
  rw [if_neg (assignmentLine_ne_nil hkey value), if_neg hsection,
    if_neg fun h => hopens h.1, parseTomlAssignment_assignment hkey hvalue]

variable {n : Int} {word : Text}

def wordCharacter (c : Char) : Bool := c.isAlphanum || c = '-'

theorem ne_of_wordCharacter (h : wordCharacter c = true) :
    c ≠ '"' ∧ c ≠ '\'' ∧ c ≠ '#' ∧ c ≠ '[' ∧ isSpace c = false := by
  have hlow : 45 ≤ c.toNat := by
    rw [wordCharacter, Bool.or_eq_true, decide_eq_true_iff] at h
    rcases h with h | rfl
    · exact le_trans (by decide) (DecimalTexts.toNat_of_isAlphanum h).1
    · decide
  refine ⟨?_, ?_, ?_, ?_, ?_⟩
  rotate_right
  · rw [isSpace, Bool.or_eq_false_iff, decide_eq_false_iff_not, Bool.and_eq_false_iff,
      decide_eq_false_iff_not, decide_eq_false_iff_not]
    refine ⟨?_, by omega⟩
    rintro rfl
    exact absurd hlow (by decide)
  all_goals
    rintro rfl
    exact absurd h (by decide)

theorem oneLine_word (hne : word ≠ []) (hword : ∀ c ∈ word, wordCharacter c = true) : OneLine word := by
  have htight : Tight word :=
    ⟨hne, fun _ hc => (ne_of_wordCharacter (hword _ (mem_of_head? hc))).2.2.2.2,
      fun _ hc => (ne_of_wordCharacter (hword _ (mem_of_getLast? hc))).2.2.2.2⟩
  refine ⟨htight, ?_, ?_⟩
  · have hplain : ∀ c ∈ word, c ≠ '"' ∧ c ≠ '\'' ∧ c ≠ '#' := fun c hc =>
      have h := ne_of_wordCharacter (hword c hc)
      ⟨h.1, h.2.1, h.2.2.1⟩
    have hscan := beforeComment_key hplain []
    rwa [append_nil, beforeComment, append_nil] at hscan
  · obtain ⟨c, rest, rfl⟩ := exists_cons_of_ne_nil hne
    have hc := ne_of_wordCharacter (hword c mem_cons_self)
    rw [tomlValueIsComplete, htight.trimCopy]
    split
    next h => exact absurd (List.cons.inj h).1 hc.2.2.2.1
    next h => exact absurd (List.cons.inj h).1 hc.1
    next h => exact absurd (List.cons.inj h).1 hc.2.1
    rfl

theorem unquote_word (hne : word ≠ []) (hword : ∀ c ∈ word, wordCharacter c = true) :
    unquote word = word := by
  obtain ⟨c, rest, rfl⟩ := exists_cons_of_ne_nil hne
  have hc := ne_of_wordCharacter (hword c mem_cons_self)
  have hquoted : ∀ quote : Char, c ≠ quote → quoted quote (c :: rest) = none := by
    intro quote hquote
    rw [quoted, if_neg]
    exact fun h => hquote (some.inj h.2.1)
  rw [unquote, (oneLine_word hne hword).tight.trimCopy, hquoted '"' hc.1, hquoted '\'' hc.2.1]
  rfl

theorem wordCharacter_of_intText (hc : c ∈ TypeText.intText n) : wordCharacter c = true := by
  have hdigit : ∀ {k : Nat} {c : Char}, c ∈ Nat.toDigits 10 k → wordCharacter c = true := by
    intro k c hc
    have h := Nat.isDigit_of_mem_toDigits (by decide) (by decide) hc
    simp [wordCharacter, Char.isAlphanum, h]
  cases n with
  | ofNat k => exact hdigit hc
  | negSucc k =>
    rcases mem_cons.1 hc with rfl | hc
    · rfl
    · exact hdigit hc

theorem intText_ne_nil (n : Int) : TypeText.intText n ≠ [] := by
  cases n with
  | ofNat k => exact Nat.toDigits_ne_nil
  | negSucc k => exact cons_ne_nil _ _

theorem parseInt_intText (hlow : -2 ^ 31 ≤ n) (hhigh : n < 2 ^ 31) :
    parseIntOrDefault (TypeText.intText n) 1 = n := by
  have hspace : (TypeText.intText n).dropWhile isSpace = TypeText.intText n := by
    obtain ⟨c, rest, h⟩ := exists_cons_of_ne_nil (intText_ne_nil n)
    have hc := ne_of_wordCharacter (wordCharacter_of_intText (h ▸ mem_cons_self : c ∈ _))
    rw [h, dropWhile_cons_of_neg (by simp [hc.2.2.2.2])]
  have hdigits : ∀ k : Nat, (Nat.toDigits 10 k).takeWhile Char.isDigit = Nat.toDigits 10 k :=
    fun k => takeWhile_eq_self_iff.2 fun c hc =>
      Nat.isDigit_of_mem_toDigits (by decide) (by decide) hc
  rw [parseIntOrDefault, if_neg (intText_ne_nil n), stoi, hspace]
  cases n with
  | ofNat k =>
    have hhead : ∀ c : Char, c.isDigit = false → (Nat.toDigits 10 k).head? ≠ some c := by
      intro c hc h
      have hdigit := Nat.isDigit_of_mem_toDigits (by decide) (by decide) (mem_of_head? h)
      exact Bool.false_ne_true (hc.symm.trans hdigit)
    have hvalue : (k : Int) < 2 ^ 31 := hhigh
    simp [TypeText.intText, hhead '-' rfl, hhead '+' rfl, hdigits, Nat.toDigits_ne_nil,
      Nat.ofDigitChars_ten_toDigits]
    rw [if_pos (by omega), getD_some]
  | negSucc k =>
    have hvalue : -2 ^ 31 ≤ -((k : Int) + 1) := by
      rw [Int.negSucc_eq] at hlow
      exact hlow
    simp [TypeText.intText, hdigits, Nat.toDigits_ne_nil, Nat.ofDigitChars_ten_toDigits]
    rw [if_pos (by omega), getD_some]
    omega

variable (path : Text)

def reading (reader : Reader) (entry : DependencyLockEntry) : Reader :=
  { reader with current := some entry }

def readChecksum (checksum : Text) : Text :=
  if checksum = [] then []
  else
    let value := squeeze ("sha256:".toList ++ checksum)
    if "sha256:".toList <+: value then value.drop 7 else value

/-- The entry that is read where `entry` was written. -/
def readBack (entry : DependencyLockEntry) : DependencyLockEntry where
  manifest := squeeze entry.manifest
  name := squeeze entry.name
  source := squeeze entry.source
  url := squeeze entry.url
  path := squeeze entry.path
  versionRequirement := squeeze entry.versionRequirement
  resolvedVersion := squeeze entry.resolvedVersion
  requestedFeatures := squeeze entry.requestedFeatures
  requestedRev := squeeze entry.requestedRev
  requestedTag := squeeze entry.requestedTag
  revision := squeeze entry.revision
  checksum := readChecksum entry.checksum
  archiveType := squeeze entry.archiveType
  subdir := squeeze entry.subdir
  stripComponents := entry.stripComponents
  submodules := entry.submodules
  optional := entry.optional
  defaultFeatures := entry.defaultFeatures

theorem readLines_assignment (hkey : plainKey key = true) (hvalue : OneLine value) (lines : List Text)
    (reader : Reader) (entry : DependencyLockEntry) :
    readLines path 0 (assignmentLine key value :: lines) (reading reader entry) =
    readLines path 0 lines (reading reader (assignField entry key (unquote value))) := by
  rw [readLines, readLine_assignment path hkey hvalue]
  rfl

theorem readLines_quotedLine {key : String} (hkey : plainKey key.toList = true) (value : Text)
    (lines : List Text) (reader : Reader) (entry : DependencyLockEntry) :
    readLines path 0 (quotedLine key value :: lines) (reading reader entry) =
      readLines path 0 lines (reading reader (assignField entry key.toList (squeeze value))) := by
  rw [← unquote_lockQuote]
  exact readLines_assignment path hkey (oneLine_lockQuote value) lines reader entry

theorem readLines_optionalLine {key : String} (hkey : plainKey key.toList = true)
    (field : Text → DependencyLockEntry)
    (hfield : ∀ value, assignField (field []) key.toList value = field value) (value : Text)
    (lines : List Text) (reader : Reader) :
    readLines path 0 (optionalLine key value ++ lines) (reading reader (field [])) =
      readLines path 0 lines (reading reader (field (squeeze value))) := by
  rw [optionalLine]
  by_cases hempty : value = []
  · rw [if_pos hempty, hempty]
    rfl
  · rw [if_neg hempty, singleton_append, readLines_quotedLine path hkey, hfield]

theorem readLines_word {key : String} (hkey : plainKey key.toList = true) (hne : word ≠ [])
    (hword : ∀ c ∈ word, wordCharacter c = true) (lines : List Text) (reader : Reader)
    (entry : DependencyLockEntry) : readLines path 0 ((key.toList ++ " = ".toList ++ word) :: lines)
    (reading reader entry) = readLines path 0 lines (reading reader (assignField entry key.toList word)) := by
  have hread := readLines_assignment path hkey (oneLine_word hne hword) lines reader entry
  rwa [unquote_word hne hword] at hread

theorem readLines_flag (key : String) (hkey : plainKey key.toList = true)
    (field : Bool → DependencyLockEntry) (default : Bool) {line : Text}
    (hline : line = key.toList ++ " = ".toList ++ (if default then "false" else "true").toList)
    (hfield : assignField (field default) key.toList
      (if default then "false" else "true").toList = field !default) (flag : Bool)
    (lines : List Text) (reader : Reader) :
    readLines path 0 ((if flag = default then [] else [line]) ++ lines)
        (reading reader (field default)) = readLines path 0 lines (reading reader (field flag)) := by
  by_cases hflag : flag = default
  · rw [if_pos hflag, hflag]
    rfl
  · have hword : ∀ c ∈ (if default then "false" else "true").toList, wordCharacter c = true := by
      cases default <;> decide
    have hne : (if default then "false" else "true").toList ≠ [] := by
      cases default <;> decide
    rw [if_neg hflag, hline, singleton_append, readLines_word path hkey hne hword, hfield,
      Bool.eq_not_of_ne hflag]

def readNames (entry : DependencyLockEntry) : DependencyLockEntry where
  manifest := squeeze entry.manifest
  name := squeeze entry.name
  source := squeeze entry.source

def readOrigin (entry : DependencyLockEntry) : DependencyLockEntry :=
  { readNames entry with
    url := squeeze entry.url
    path := squeeze entry.path
    versionRequirement := squeeze entry.versionRequirement
    resolvedVersion := squeeze entry.resolvedVersion }

def readRequest (entry : DependencyLockEntry) : DependencyLockEntry :=
  { readOrigin entry with
    requestedFeatures := squeeze entry.requestedFeatures
    requestedRev := squeeze entry.requestedRev
    requestedTag := squeeze entry.requestedTag
    revision := squeeze entry.revision }

def readArchive (entry : DependencyLockEntry) : DependencyLockEntry :=
  { readRequest entry with
    checksum := readChecksum entry.checksum
    archiveType := squeeze entry.archiveType
    subdir := squeeze entry.subdir
    stripComponents := entry.stripComponents }

variable (entry : DependencyLockEntry) (lines : List Text) (reader : Reader)

theorem readLines_names : readLines path 0 (quotedLine "manifest" entry.manifest ::
      quotedLine "name" entry.name :: quotedLine "source" entry.source :: lines) (reading reader {}) =
    readLines path 0 lines (reading reader (readNames entry)) := by
  rw [readLines_quotedLine path (by decide), readLines_quotedLine path (by decide),
    readLines_quotedLine path (by decide)]
  rfl

theorem readLines_origin : readLines path 0 (optionalLine "url" entry.url ++
      (optionalLine "path" entry.path ++ (optionalLine "requirement" entry.versionRequirement ++
        (optionalLine "resolved_version" entry.resolvedVersion ++ lines))))
      (reading reader (readNames entry)) =
    readLines path 0 lines (reading reader (readOrigin entry)) := by
  refine (readLines_optionalLine path (by decide)
    (fun value => { readNames entry with url := value }) (fun _ => rfl) _ _ _).trans ?_
  refine (readLines_optionalLine path (by decide)
    (fun value => { readNames entry with url := squeeze entry.url, path := value })
    (fun _ => rfl) _ _ _).trans ?_
  refine (readLines_optionalLine path (by decide)
    (fun value => { readNames entry with
      url := squeeze entry.url, path := squeeze entry.path, versionRequirement := value })
    (fun _ => rfl) _ _ _).trans ?_
  exact readLines_optionalLine path (by decide)
    (fun value => { readOrigin entry with resolvedVersion := value }) (fun _ => rfl) _ _ _

theorem readLines_request : readLines path 0 (optionalLine "features" entry.requestedFeatures ++
      (optionalLine "requested_rev" entry.requestedRev ++
        (optionalLine "requested_tag" entry.requestedTag ++
          (optionalLine "revision" entry.revision ++ lines)))) (reading reader (readOrigin entry)) =
    readLines path 0 lines (reading reader (readRequest entry)) := by
  refine (readLines_optionalLine path (by decide)
    (fun value => { readOrigin entry with requestedFeatures := value }) (fun _ => rfl) _ _ _).trans ?_
  refine (readLines_optionalLine path (by decide)
    (fun value => { readOrigin entry with
      requestedFeatures := squeeze entry.requestedFeatures, requestedRev := value })
    (fun _ => rfl) _ _ _).trans ?_
  refine (readLines_optionalLine path (by decide)
    (fun value => { readOrigin entry with
      requestedFeatures := squeeze entry.requestedFeatures
      requestedRev := squeeze entry.requestedRev
      requestedTag := value })
    (fun _ => rfl) _ _ _).trans ?_
  exact readLines_optionalLine path (by decide)
    (fun value => { readRequest entry with revision := value }) (fun _ => rfl) _ _ _

theorem readLines_checksum : readLines path 0 ((if entry.checksum = [] then []
      else [quotedLine "checksum" ("sha256:".toList ++ entry.checksum)]) ++ lines)
      (reading reader (readRequest entry)) =
    readLines path 0 lines
      (reading reader { readRequest entry with checksum := readChecksum entry.checksum }) := by
  rw [readChecksum]
  by_cases hempty : entry.checksum = []
  · rw [if_pos hempty, if_pos hempty]
    rfl
  · rw [if_neg hempty, if_neg hempty, singleton_append, readLines_quotedLine path (by decide)]
    rfl

theorem readLines_strip (hint : -2 ^ 31 ≤ entry.stripComponents ∧ entry.stripComponents < 2 ^ 31) :
    readLines path 0 ((if entry.stripComponents = 1 then []
      else ["strip_components = ".toList ++ TypeText.intText entry.stripComponents]) ++ lines)
      (reading reader { readArchive entry with stripComponents := 1 }) =
    readLines path 0 lines (reading reader (readArchive entry)) := by
  by_cases hone : entry.stripComponents = 1
  · rw [if_pos hone, ← hone]
    rfl
  · have hline : "strip_components = ".toList ++ TypeText.intText entry.stripComponents =
        "strip_components".toList ++ " = ".toList ++ TypeText.intText entry.stripComponents := rfl
    rw [if_neg hone, singleton_append, hline, readLines_word path (by decide)
      (intText_ne_nil _) (fun _ => wordCharacter_of_intText)]
    have hfield : assignField { readArchive entry with stripComponents := 1 }
        "strip_components".toList (TypeText.intText entry.stripComponents) =
        { readArchive entry with
          stripComponents := parseIntOrDefault (TypeText.intText entry.stripComponents) 1 } := rfl
    rw [hfield, parseInt_intText hint.1 hint.2]
    rfl

theorem readLines_archive (hint : -2 ^ 31 ≤ entry.stripComponents ∧ entry.stripComponents < 2 ^ 31) :
    readLines path 0 ((if entry.checksum = [] then []
        else [quotedLine "checksum" ("sha256:".toList ++ entry.checksum)]) ++
      (optionalLine "archive" entry.archiveType ++ (optionalLine "subdir" entry.subdir ++
        ((if entry.stripComponents = 1 then []
          else ["strip_components = ".toList ++ TypeText.intText entry.stripComponents]) ++ lines))))
      (reading reader (readRequest entry)) =
    readLines path 0 lines (reading reader (readArchive entry)) := by
  refine (readLines_checksum path entry _ reader).trans ?_
  refine (readLines_optionalLine path (by decide)
    (fun value => { readRequest entry with
      checksum := readChecksum entry.checksum, archiveType := value })
    (fun _ => rfl) _ _ _).trans ?_
  refine (readLines_optionalLine path (by decide)
    (fun value => { readArchive entry with subdir := value, stripComponents := 1 })
    (fun _ => rfl) _ _ _).trans ?_
  exact readLines_strip path entry lines reader hint

theorem readLines_flags : readLines path 0 ((if entry.submodules then ["submodules = true".toList]
        else []) ++ ((if entry.optional then ["optional = true".toList] else []) ++
      ((if entry.defaultFeatures then [] else ["default_features = false".toList]) ++ lines)))
      (reading reader (readArchive entry)) =
    readLines path 0 lines (reading reader (readBack entry)) := by
  have hfalse : ∀ (flag : Bool) (line : Text),
      (if flag = true then [line] else []) = if flag = false then [] else [line] := by
    intro flag line
    cases flag <;> rfl
  rw [hfalse, hfalse]
  refine (readLines_flag path "submodules" (by decide)
    (fun flag => { readArchive entry with submodules := flag }) false rfl rfl _ _ _).trans ?_
  refine (readLines_flag path "optional" (by decide)
    (fun flag => { readArchive entry with submodules := entry.submodules, optional := flag })
    false rfl rfl _ _ _).trans ?_
  exact readLines_flag path "default_features" (by decide)
    (fun flag => { readBack entry with defaultFeatures := flag }) true rfl rfl _ _ _

theorem readLines_entry (hint : -2 ^ 31 ≤ entry.stripComponents ∧ entry.stripComponents < 2 ^ 31) :
    readLines path 0 (entryLines entry ++ lines) reader =
      (flush path reader).bind fun reader =>
        readLines path 0 lines (reading reader (readBack entry)) := by
  have hblank : readLine path reader [] = fun _ => .ok (reader, 0) := rfl
  have hsection : ∀ lines, readLine path reader "[[package]]".toList lines =
      (flush path reader).map fun reader => (reading reader {}, 0) := fun _ => rfl
  rw [entryLines]
  simp only [append_assoc, cons_append, nil_append]
  rw [readLines, hblank]
  dsimp only [Except.bind]
  rw [readLines, hsection]
  cases flush path reader with
  | error message => rfl
  | ok reader =>
    dsimp only [Except.map, Except.bind]
    rw [readLines_names, readLines_origin, readLines_request, readLines_archive path entry _ _ hint,
      readLines_flags]

variable {entries : List DependencyLockEntry}

theorem textLines_written {lines : List Text} (h : ∀ line ∈ lines, '\n' ∉ line) :
    textLines (lines.flatMap (· ++ ['\n'])) = lines := by
  have hsplit : (lines.flatMap (· ++ ['\n'])).splitOn '\n' = lines ++ [[]] := by
    induction lines with
    | nil => rfl
    | cons line lines ih =>
      obtain ⟨hline, hlines⟩ := forall_mem_cons.1 h
      rw [flatMap_cons, append_assoc, singleton_append,
        splitOn_append_cons_self_of_not_mem hline, ih hlines, cons_append]
  rw [textLines, hsplit]
  simp

theorem newline_notMem_lockQuote (value : Text) : '\n' ∉ lockQuote value := by
  rw [lockQuote_eq]
  intro h
  rcases mem_cons.1 h with h | h
  · exact absurd h (by decide)
  · rcases mem_append.1 h with h | h
    · obtain ⟨c, -, hc⟩ := mem_flatMap.1 h
      rcases escaped_cases c with ⟨he, hquote⟩ | ⟨he, -⟩ | ⟨he, -, -, hline⟩
      · rw [he] at hc
        rcases hquote with rfl | rfl
        · exact absurd hc (by decide)
        · exact absurd hc (by decide)
      · rw [he] at hc
        exact absurd hc (by decide)
      · rw [he] at hc
        exact hline (mem_singleton.1 hc).symm
    · exact absurd h (by decide)

theorem newline_notMem_quotedLine {key : String} (hkey : plainKey key.toList = true) (value : Text) :
    '\n' ∉ quotedLine key value := by
  rw [quotedLine, mem_append, mem_append]
  rintro ((h | h) | h)
  · rw [plainKey, Bool.and_eq_true] at hkey
    exact absurd (all_eq_true.1 hkey.2 _ h) (by decide)
  · exact absurd h (by decide)
  · exact newline_notMem_lockQuote value h

theorem newline_notMem_entryLines (entry : DependencyLockEntry) :
    ∀ line ∈ entryLines entry, '\n' ∉ line := by
  have hoptional : ∀ (key : String) (value : Text), plainKey key.toList = true →
      ∀ line ∈ optionalLine key value, '\n' ∉ line := by
    intro key value hkey line hline
    rw [optionalLine] at hline
    split_ifs at hline
    · cases hline
    · rw [mem_singleton.1 hline]
      exact newline_notMem_quotedLine hkey value
  have hstrip : '\n' ∉ "strip_components = ".toList ++ TypeText.intText entry.stripComponents := by
    rw [mem_append]
    rintro (h | h)
    · exact absurd h (by decide)
    · exact absurd (wordCharacter_of_intText h) (by decide)
  have hwritten : ∀ (p : Prop) [Decidable p] (line : Text), '\n' ∉ line →
      ∀ l ∈ (if p then [] else [line]), '\n' ∉ l := by
    intro p _ line hline l hl
    split_ifs at hl
    · cases hl
    · rwa [mem_singleton.1 hl]
  have hset : ∀ (p : Prop) [Decidable p] (line : Text), '\n' ∉ line →
      ∀ l ∈ (if p then [line] else []), '\n' ∉ l := by
    intro p _ line hline l hl
    split_ifs at hl
    · rwa [mem_singleton.1 hl]
    · cases hl
  simp only [entryLines, forall_mem_append, and_assoc]
  refine ⟨?_, hoptional _ _ (by decide), hoptional _ _ (by decide), hoptional _ _ (by decide),
    hoptional _ _ (by decide), hoptional _ _ (by decide), hoptional _ _ (by decide),
    hoptional _ _ (by decide), hoptional _ _ (by decide),
    hwritten _ _ (newline_notMem_quotedLine (by decide) _), hoptional _ _ (by decide),
    hoptional _ _ (by decide), hwritten _ _ hstrip, hset _ _ (by decide), hset _ _ (by decide),
    hwritten _ _ (by decide)⟩
  simp only [forall_mem_cons]
  exact ⟨not_mem_nil, by decide, newline_notMem_quotedLine (by decide) _,
    newline_notMem_quotedLine (by decide) _, newline_notMem_quotedLine (by decide) _,
    fun _ h => absurd h not_mem_nil⟩

def InInt (n : Int) : Prop := -2 ^ 31 ≤ n ∧ n < 2 ^ 31

def store (entries : Lock) (entry : DependencyLockEntry) : Except Text Lock :=
  if incomplete entry then .error ("Invalid incomplete package entry in ".toList ++ path)
  else if (find entries (dependencyLockKey entry.manifest entry.name)).isSome then
    .error ("Duplicate dependency '".toList ++ entry.name ++ "' for ".toList ++ entry.manifest ++
      " in ".toList ++ path)
  else .ok (insert textBefore entries (dependencyLockKey entry.manifest entry.name) entry)

def storeAll : List DependencyLockEntry → Lock → Except Text Lock
  | [], stored => .ok stored
  | entry :: entries, stored => (store path stored (readBack entry)).bind (storeAll entries)

def finish (reader : Reader) : Except Text Lock :=
  (flush path reader).bind fun reader =>
    if reader.versionSeen then .ok reader.entries
    else .error ("Missing lockfile version in ".toList ++ path)

theorem finish_reading (stored : Lock) (entry : DependencyLockEntry) :
    finish path ⟨stored, some entry, true⟩ = store path stored entry := by
  rw [finish, flush, store]
  dsimp only
  split_ifs
  · rfl
  · rfl
  · rfl

theorem flush_reading (stored : Lock) (entry : DependencyLockEntry) :
    flush path ⟨stored, some entry, true⟩ =
      (store path stored entry).map fun stored => ⟨stored, none, true⟩ := by
  rw [flush, store]
  dsimp only
  split_ifs
  · rfl
  · rfl
  · rfl

theorem readLines_entries (hint : ∀ entry ∈ entries, InInt entry.stripComponents) (stored : Lock)
    (entry : DependencyLockEntry) :
    (readLines path 0 (entries.flatMap entryLines) ⟨stored, some entry, true⟩).bind (finish path) =
    (store path stored entry).bind (storeAll path entries) := by
  induction entries generalizing stored entry with
  | nil =>
    have hdone : readLines path 0 [] ⟨stored, some entry, true⟩ =
        .ok ⟨stored, some entry, true⟩ := rfl
    rw [flatMap_nil, hdone]
    refine (finish_reading path stored entry).trans ?_
    cases store path stored entry <;> rfl
  | cons next entries ih =>
    obtain ⟨hnext, hint⟩ := forall_mem_cons.1 hint
    rw [flatMap_cons, readLines_entry path next _ _ hnext, flush_reading]
    cases store path stored entry with
    | error message => rfl
    | ok stored => exact ih hint stored (readBack next)

theorem readLines_header (lines : List Text) :
    readLines path 0 (headerLines ++ lines) ⟨[], none, false⟩ =
      readLines path 0 lines ⟨[], none, true⟩ := rfl

theorem readDependencyLock_written {entries : Lock} (hint : ∀ e ∈ entries, InInt e.2.stripComponents) :
    readDependencyLock path (writeDependencyLock entries) = storeAll path (entries.map Prod.snd) [] := by
  have hheader : ∀ line ∈ headerLines, '\n' ∉ line := by decide
  have hlines : ∀ line ∈ headerLines ++ entries.flatMap fun e => entryLines e.2, '\n' ∉ line := by
    intro line hline
    rcases mem_append.1 hline with hline | hline
    · exact hheader line hline
    · obtain ⟨e, -, he⟩ := mem_flatMap.1 hline
      exact newline_notMem_entryLines e.2 line he
  have hmap : (entries.flatMap fun e => entryLines e.2) =
      (entries.map Prod.snd).flatMap entryLines := (flatMap_map _ _ _).symm
  rw [readDependencyLock, writeDependencyLock, textLines_written hlines, readLines_header, hmap]
  cases entries with
  | nil => rfl
  | cons e entries =>
    obtain ⟨he, hint⟩ := forall_mem_cons.1 hint
    rw [map_cons, flatMap_cons, readLines_entry path e.2 _ _ he]
    refine readLines_entries path (fun entry hentry => ?_) [] (readBack e.2)
    obtain ⟨e', he', rfl⟩ := mem_map.1 hentry
    exact hint e' he'

variable {entry : DependencyLockEntry} {stored : Lock} {checksum : Text} {path : Text}

/-- A lock as a run keeps it: each complete entry under its own key, in the order of the keys. -/
structure Stored (entries : Lock) : Prop where
  keyed : ∀ e ∈ entries, e.1 = dependencyLockKey e.2.manifest e.2.name
  ordered : entries.Pairwise fun a b => a.1 < b.1
  complete : ∀ e ∈ entries, incomplete e.2 = false
  inInt : ∀ e ∈ entries, InInt e.2.stripComponents

structure Kept (entry : DependencyLockEntry) : Prop where
  texts : ∀ text ∈ [entry.manifest, entry.name, entry.source, entry.url, entry.path,
    entry.versionRequirement, entry.resolvedVersion, entry.requestedFeatures, entry.requestedRev,
    entry.requestedTag, entry.revision, entry.archiveType, entry.subdir], Squeezed text
  checksum : entry.checksum = [] ∨ Squeezed ("sha256:".toList ++ entry.checksum)

theorem readChecksum_of_ne_nil (hne : checksum ≠ []) :
    "sha256:".toList ++ readChecksum checksum = squeeze ("sha256:".toList ++ checksum) := by
  have hstarts : "sha256:".toList <+: squeeze ("sha256:".toList ++ checksum) :=
    prefix_squeeze (by decide) (by decide) checksum
  rw [readChecksum, if_neg hne]
  dsimp only
  rw [if_pos hstarts]
  exact prefix_iff_eq_append.1 hstarts

theorem readChecksum_eq_self_iff : readChecksum checksum = checksum ↔ checksum = [] ∨
    Squeezed ("sha256:".toList ++ checksum) := by
  by_cases hempty : checksum = []
  · rw [hempty]
    exact iff_of_true rfl (.inl rfl)
  · rw [or_iff_right hempty, ← squeeze_eq_self_iff, ← readChecksum_of_ne_nil hempty,
      append_cancel_left_eq]

theorem squeezed_readChecksum (checksum : Text) : readChecksum checksum = [] ∨
    Squeezed ("sha256:".toList ++ readChecksum checksum) := by
  by_cases hempty : checksum = []
  · exact .inl (if_pos hempty)
  · rw [readChecksum_of_ne_nil hempty]
    exact .inr (squeezed_squeeze _)

theorem kept_readBack (entry : DependencyLockEntry) : Kept (readBack entry) where
  texts := by
    simp only [readBack, forall_mem_cons]
    simp [squeezed_squeeze]
  checksum := squeezed_readChecksum entry.checksum

theorem readBack_eq_self_iff : readBack entry = entry ↔ Kept entry := by
  constructor
  · intro h
    exact h ▸ kept_readBack entry
  · intro h
    have htexts := h.texts
    simp only [forall_mem_cons, ← squeeze_eq_self_iff] at htexts
    obtain ⟨h₁, h₂, h₃, h₄, h₅, h₆, h₇, h₈, h₉, h₁₀, h₁₁, h₁₂, h₁₃, -⟩ := htexts
    rw [readBack, h₁, h₂, h₃, h₄, h₅, h₆, h₇, h₈, h₉, h₁₀, h₁₁, h₁₂, h₁₃,
      readChecksum_eq_self_iff.2 h.checksum]

theorem insert_last (entry : DependencyLockEntry) (h : ∀ e ∈ stored, e.1 < key) :
    insert textBefore stored key entry = stored ++ [(key, entry)] := by
  have herase : erase stored key = stored :=
    filter_eq_self.2 fun e he => decide_eq_true (h e he).ne
  rw [OrderedTables.insert, herase]
  induction stored with
  | nil => rfl
  | cons e stored ih =>
    obtain ⟨he, hstored⟩ := forall_mem_cons.1 h
    have hnot : ¬ textBefore key e.1 = true := by
      rw [textBefore, decide_eq_true_iff]
      exact lt_asymm he
    rw [place, if_neg hnot, cons_append, ih hstored]
    exact filter_eq_self.2 fun e he => decide_eq_true (hstored e he).ne

theorem storeAll_stored {entries : Lock} (h : Stored (stored ++ entries))
    (hkept : ∀ e ∈ entries, readBack e.2 = e.2) :
    storeAll path (entries.map Prod.snd) stored = .ok (stored ++ entries) := by
  induction entries generalizing stored with
  | nil => rw [append_nil]; rfl
  | cons e entries ih =>
    obtain ⟨he, hkept⟩ := forall_mem_cons.1 hkept
    have hmem : e ∈ stored ++ e :: entries := mem_append_right _ mem_cons_self
    have hbefore : ∀ e' ∈ stored, e'.1 < e.1 := fun e' he' =>
      (pairwise_append.1 h.ordered).2.2 e' he' e mem_cons_self
    have hkey := h.keyed e hmem
    have hnew : find stored e.1 = none :=
      find_eq_none.2 fun e' he' => (hbefore e' he').ne
    have hstore : store path stored (readBack e.2) = .ok (stored ++ [e]) := by
      rw [he, store, if_neg (by rw [h.complete e hmem]; exact Bool.false_ne_true), ← hkey, hnew,
        insert_last e.2 hbefore]
      rfl
    rw [map_cons, storeAll, hstore]
    have hbehind : Stored (stored ++ [e] ++ entries) := by
      rwa [append_assoc, singleton_append]
    have hnext := ih hbehind hkept
    rwa [append_assoc, singleton_append] at hnext

theorem mem_storeAll {result : Lock} (h : storeAll path entries stored = .ok result) :
    ∀ e ∈ result, e ∈ stored ∨ ∃ entry ∈ entries, e.2 = readBack entry := by
  induction entries generalizing stored with
  | nil =>
    obtain rfl := Except.ok.inj h
    exact fun e he => .inl he
  | cons entry entries ih =>
    rw [storeAll] at h
    cases hstore : store path stored (readBack entry) with
    | error message =>
      rw [hstore] at h
      cases h
    | ok next =>
      rw [hstore] at h
      have hnext : next = insert textBefore stored
          (dependencyLockKey (readBack entry).manifest (readBack entry).name)
          (readBack entry) := by
        rw [store] at hstore
        split_ifs at hstore
        exact (Except.ok.inj hstore).symm
      intro e he
      rcases ih h e he with he | ⟨entry', hentry', he⟩
      · rw [hnext, mem_insert] at he
        rcases he with rfl | he
        · exact .inr ⟨entry, mem_cons_self, rfl⟩
        · exact .inl he.1
      · exact .inr ⟨entry', mem_cons_of_mem _ hentry', he⟩

theorem kept_of_read {entries : Lock} (h : Stored entries)
    (hread : readDependencyLock path (writeDependencyLock entries) = .ok entries) :
    ∀ e ∈ entries, Kept e.2 := by
  rw [readDependencyLock_written path h.inInt] at hread
  intro e he
  rcases mem_storeAll hread e he with hstored | ⟨entry, -, hback⟩
  · cases hstored
  · exact hback ▸ kept_readBack entry

/-- A lock file is read as it was written exactly where the texts in it are squeezed. -/
theorem readDependencyLock_written_iff {entries : Lock} (h : Stored entries) :
    readDependencyLock path (writeDependencyLock entries) = .ok entries ↔ ∀ e ∈ entries, Kept e.2 := by
  constructor
  · exact kept_of_read h
  · intro hkept
    have hstored : Stored ([] ++ entries) := h
    rw [readDependencyLock_written path h.inInt]
    exact storeAll_stored hstored fun e he => readBack_eq_self_iff.2 (hkept e he)

def Built (entry : DependencyLockEntry) : Prop :=
  ∃ content, ∃ dep ∈ ManifestDependencies.parseSourceDeps content,
    entry = { makeDependencyLockEntry entry.manifest dep with
      revision := entry.revision
      checksum := entry.checksum
      resolvedVersion := entry.resolvedVersion }

def lockOf (entry : DependencyLockEntry) : Lock :=
  [(dependencyLockKey entry.manifest entry.name, entry)]

theorem stored_lockOf (hcomplete : incomplete entry = false) (hint : InInt entry.stripComponents) :
    Stored (lockOf entry) where
  keyed := forall_mem_singleton.2 rfl
  ordered := pairwise_singleton _ _
  complete := forall_mem_singleton.2 hcomplete
  inInt := forall_mem_singleton.2 hint

def markedEntry : DependencyLockEntry where
  manifest := "mlang.toml".toList
  name := "shapes".toList
  source := "archive".toList
  url := "https://host/a#\"b\" c\\d".toList
  checksum := "ab12".toList
  archiveType := "tar.gz".toList
  optional := true

/-- Marks, quotes and backslashes are read as they were written. -/
theorem markedEntry_read :
    readDependencyLock [] (writeDependencyLock (lockOf markedEntry)) = .ok (lockOf markedEntry) := by
  have hback : readBack markedEntry = markedEntry := by decide
  have hstored : Stored (lockOf markedEntry) := stored_lockOf (by decide) ⟨by decide, by decide⟩
  refine (readDependencyLock_written_iff hstored).2 ?_
  exact forall_mem_singleton.2 (readBack_eq_self_iff.1 hback)

def spacedManifest : Text := "[dependencies]\nshapes = \x7b path = 'libs/2  d' \x7d\n".toList

def spacedDependency : DepSpec where
  name := "shapes".toList
  path := "libs/2  d".toList
  build := "mlang".toList

def spacedEntry : DependencyLockEntry :=
  { makeDependencyLockEntry "mlang.toml".toList spacedDependency with
    resolvedVersion := "1.0.0".toList }

theorem spacedEntry_built : Built spacedEntry := by
  have hparsed : ManifestDependencies.parseSourceDeps spacedManifest = [spacedDependency] := by
    decide
  exact ⟨spacedManifest, spacedDependency, hparsed ▸ mem_singleton_self _, rfl⟩

/-- Of two blanks in the name of a directory one is read back. -/
theorem spacedEntry_notRead : ¬ ∀ (path : Text) (entries : Lock), Stored entries →
    (∀ e ∈ entries, Built e.2) → readDependencyLock path (writeDependencyLock entries) = .ok entries := by
  intro hread
  have hstored : Stored (lockOf spacedEntry) := stored_lockOf (by decide) ⟨by decide, by decide⟩
  have hspaced := hread [] _ hstored (forall_mem_singleton.2 spacedEntry_built)
  have hkept := forall_mem_singleton.1 (kept_of_read hstored hspaced)
  exact absurd (readBack_eq_self_iff.2 hkept) (by decide)

end Mlang.LockRoundTrip
