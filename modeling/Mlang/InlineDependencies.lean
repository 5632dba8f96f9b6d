import Mlang.InlineTables

namespace Mlang.InlineDependencies

open BracketedText (Text Tight isSpace trimCopy commaSeparated)
open OrderedTables DependencyLocks TomlText ManifestDependencies LockFiles LockRoundTrip SqueezedTexts List
open ClosedTexts ManifestScans InlineTables Option

variable {d : InlineDependency} {entries : List (Text × Text)} {name : Text}

theorem closed_commaSeparated {allowed : Char → Prop} {pieces : List Text} (hcomma : allowed ',')
    (hspace : allowed ' ') (h : ∀ piece ∈ pieces, Closed allowed .outside piece) :
    Closed allowed .outside (commaSeparated pieces) := by
  induction pieces with
  | nil => exact rfl
  | cons piece pieces ih =>
    obtain ⟨hpiece, hpieces⟩ := forall_mem_cons.1 h
    cases pieces with
    | nil => exact hpiece
    | cons next pieces =>
      exact hpiece.append ⟨fun _ => hcomma, fun _ => hspace, ih hpieces⟩

theorem tight_tableText (entries : List (Text × Text)) : Tight (tableText entries) := by
  have htable : tableText entries =
      '{' :: (' ' :: (commaSeparated (entries.map fun entry => assignmentLine entry.1 entry.2) ++ [' '])) ++
        ['}'] := by
    simp [tableText]
  rw [htable]
  exact Tight.surround (by decide) (by decide)

theorem closed_tableText (hentries : ∀ entry ∈ entries, entry ∈ d.entries) :
    Closed (· ≠ '#') .outside (tableText entries) := by
  have hpieces : ∀ piece ∈ entries.flatMap d.pieces, Closed (· ≠ '#') .outside piece :=
    fun piece hpiece => (piece_pieces hentries piece hpiece).closed.mono fun c hc => hc.2.2.2
  have hclosed := @closed_commaSeparated (· ≠ '#') _ (by decide) (by decide) hpieces
  rw [tableText_eq hentries, cons_append, cons_append, append_assoc]
  refine ⟨fun _ => by decide, fun _ => by decide, hclosed.append (closed_of_forall (by decide))⟩

theorem stripTomlComment_inlineLine (hname : DependencyName name)
    (hentries : ∀ entry ∈ entries, entry ∈ d.entries) :
    stripTomlComment (inlineLine name entries) = inlineLine name entries := by
  have hclosed : Closed (· ≠ '#') .outside (inlineLine name entries) := by
    refine (Closed.append ?_ ?_).append (closed_tableText hentries)
    · exact closed_of_forall fun c hc =>
        ⟨(hname.plain c hc).2.2.2.1, (hname.plain c hc).1, (hname.plain c hc).2.1⟩
    · exact closed_of_forall (by decide)
  have hline := hclosed.beforeComment []
  rw [append_nil, beforeComment, append_nil] at hline
  rw [stripTomlComment, hline]
  exact (hname.tight.between (tight_tableText entries) _).trimCopy

theorem sectionHeader_inlineLine (name : Text) (entries : List (Text × Text)) :
    sectionHeader (inlineLine name entries) = none := by
  have hlast : (inlineLine name entries).getLast? = some '}' := by
    have hline : inlineLine name entries = (name ++ " = ".toList ++ '{' :: ' ' ::
        (commaSeparated (entries.map fun entry => assignmentLine entry.1 entry.2) ++ [' '])) ++ ['}'] := by
      simp [inlineLine, assignmentLine, tableText]
    rw [hline, getLast?_concat]
  rw [sectionHeader, if_neg]
  rintro ⟨-, h⟩
  rw [hlast] at h
  exact absurd h (by decide)

theorem parseTomlAssignment_inlineLine (hname : DependencyName name) (lines : List Text) :
    parseTomlAssignment (inlineLine name entries) lines = (some ⟨name, tableText entries, false⟩, 0) := by
  have hfront : ∀ c ∈ name ++ [' '], c ≠ '"' ∧ c ≠ '\'' ∧ c ≠ '=' := by
    intro c hc
    rcases mem_append.1 hc with hc | hc
    · exact ⟨(hname.plain c hc).1, (hname.plain c hc).2.1, (hname.plain c hc).2.2.1⟩
    · rw [mem_singleton.1 hc]
      decide
  have hlast : ¬ (name ++ [' ']).getLast? = some '+' := by
    rw [getLast?_concat]
    decide
  have hvalue : trimCopy (' ' :: tableText entries) = tableText entries := by
    rw [BracketedText.trimCopy_cons (by decide), (tight_tableText entries).trimCopy]
  have hcomplete : tomlValueIsComplete (tableText entries) = true := by
    rw [tomlValueIsComplete, (tight_tableText entries).trimCopy]
    rfl
  rw [inlineLine, assignmentLine_eq, parseTomlAssignment, splitAssignment_key hfront]
  dsimp only
  rw [decide_eq_false hlast, if_neg hlast, BracketedText.trimCopy_concat (by decide),
    hname.tight.trimCopy, if_neg hname.tight.ne_nil, hvalue, collectMultilineTomlValue, if_pos hcomplete]

theorem scanLine_inlineLine (hname : DependencyName name) (hentries : ∀ entry ∈ entries, entry ∈ d.entries)
    (lines : List Text) : scanLine dependencySection ⟨0, "dependencies".toList⟩ (inlineLine name entries)
    lines =
    ([⟨"dependencies".toList, inlineLine name entries, name, tableText entries, false⟩], ⟨0,
      "dependencies".toList⟩) := by
  have hstrip := stripTomlComment_inlineLine hname hentries
  have hne : inlineLine name entries ≠ [] :=
    append_ne_nil_of_right_ne_nil _ (cons_ne_nil _ _)
  rw [scanLine_assignment rfl (by rwa [hstrip]) (by rw [hstrip, sectionHeader_inlineLine]) (by decide),
    hstrip, parseTomlAssignment_inlineLine hname, map_some, toList_some]

theorem depSpecOf_source (name : Text) (kv : Table Text Text) : ∃ dep, depSpecOf false name kv = some dep ∧
    dep.name = name ∧ dep.path = (find kv "path".toList).getD [] ∧
    dep.versionRequirement = (find kv "version".toList).getD [] ∧
    dep.features = ((find kv "features".toList).map tomlStringList).getD [] ∧
    dep.optional = ((find kv "optional".toList).map parseTomlBoolValue).getD false ∧
    dep.defaultFeatures = ((find kv "default_features".toList).map parseTomlBoolValue).getD true := by
  rw [depSpecOf, if_neg fun h => Bool.false_ne_true h.1]
  exact ⟨_, rfl, rfl, rfl, rfl, rfl, rfl, rfl⟩

theorem unquote_of_head {text : Text} (h : Tight text) (hdouble : text.head? ≠ some '"')
    (hsingle : text.head? ≠ some '\'') : unquote text = text := by
  rw [unquote, h.trimCopy, quoted, if_neg fun hquoted => hdouble hquoted.2.1, quoted,
    if_neg fun hquoted => hsingle hquoted.2.1]
  rfl

/-- The features of an array: more than one are read as one, with a bracket and quotes. -/
def readFeatures : List Text → List Text
  | [] => []
  | [feature] => [squeeze feature].filter (· ≠ [])
  | feature :: _ :: _ => ['[' :: lockQuote feature]

theorem firstPart_tight (features : List Text) :
    Tight (firstPart (features.map lockQuote)) ∧ (firstPart (features.map lockQuote)).head? = some '[' := by
  have hpiece := @piece_firstPart _ InTable (by decide) (by decide)
    fun part hpart => (piece_features (d := ⟨[], [], [], features, false, false⟩) part hpart).1
  refine ⟨hpiece.tight, ?_⟩
  cases features with
  | nil => rfl
  | cons feature features =>
    cases features with
    | nil => rfl
    | cons next features => rfl

theorem tomlStringList_firstPart (features : List Text) :
    tomlStringList (unquote (firstPart (features.map lockQuote))) = readFeatures features := by
  obtain ⟨htight, hhead⟩ := firstPart_tight features
  have hunquote := unquote_of_head htight (by rw [hhead]; decide) (by rw [hhead]; decide)
  rw [hunquote, tomlStringList, htight.trimCopy]
  cases features with
  | nil => rfl
  | cons feature features =>
    cases features with
    | nil =>
      have hclosed : Closed (fun c => c ≠ ',' ∧ c ≠ '[' ∧ c ≠ ']') .outside (lockQuote feature) :=
        closed_lockQuote (by decide) feature
      have hdepth : ∀ c, c ≠ ',' ∧ c ≠ '[' ∧ c ≠ ']' →
          (if c = '[' then (0 : Int) + 1 else if c = ']' ∧ (0 : Int) < 0 then 0 - 1 else 0) = 0 := by
        rintro c ⟨-, hopen, hclose⟩
        rw [if_neg hopen, if_neg fun h => hclose h.1]
      have hsplit := @Closed.splitCommas _ _ _
        (fun depth c => if c = '[' then depth + 1 else if c = ']' ∧ 0 < depth then depth - 1 else depth)
        hclosed hdepth (fun h => h.1 rfl) [] []
      have hparts : splitTomlArray (lockQuote feature) = [lockQuote feature] := by
        rw [append_nil] at hsplit
        rw [splitTomlArray, hsplit, nil_append, splitCommas,
          if_neg (tight_lockQuote feature).ne_nil, (tight_lockQuote feature).trimCopy]
      have hlast : (firstPart [lockQuote feature]).getLast? = some ']' := by
        rw [firstPart, ← cons_append, getLast?_concat]
      rw [map_cons, map_nil, if_pos ⟨hhead, hlast⟩, firstPart, tail_cons,
        dropLast_concat, hparts, map_singleton, unquote_lockQuote]
      rfl
    | cons next features =>
      have hlast : (firstPart ((feature :: next :: features).map lockQuote)).getLast? = some '"' := by
        rw [map_cons, map_cons, firstPart, lockQuote_eq, ← cons_append, ← cons_append, getLast?_concat]
      rw [if_neg fun h => by rw [hlast] at h; exact absurd h.2 (by decide), map_singleton, hunquote]
      rfl

theorem parseTomlBoolValue_flagText (value : Bool) :
    parseTomlBoolValue (unquote (flagText value)) = value := by
  cases value with
  | false => decide
  | true => decide

theorem readFeatures_eq_self_iff {features : List Text} : readFeatures features = features ↔
    features.length ≤ 1 ∧ ∀ feature ∈ features, feature ≠ [] ∧ Squeezed feature := by
  cases features with
  | nil => simp [readFeatures]
  | cons feature features =>
    cases features with
    | nil =>
      have hsingle : [squeeze feature].filter (· ≠ []) = [feature] ↔
          feature ≠ [] ∧ squeeze feature = feature := by
        by_cases hempty : squeeze feature = []
        · rw [hempty, filter_cons_of_neg (by simp), filter_nil]
          exact ⟨fun h => absurd h.symm (cons_ne_nil _ _), fun h => absurd h.2.symm h.1⟩
        · rw [filter_cons_of_pos (by simpa using hempty), filter_nil]
          refine ⟨fun h => ?_, fun h => by rw [h.2]⟩
          have heq := head_eq_of_cons_eq h
          exact ⟨heq ▸ hempty, heq⟩
      rw [readFeatures, hsingle, squeeze_eq_self_iff]
      simp
    | cons next features =>
      simp [readFeatures]

/-- The line stands in the section, and not inside of a value that an earlier line begins. -/
structure StandsIn (header content : Text) (before : List Text) (line : Text) (after : List Text) :
    Prop where
  lines : textLines content = before ++ line :: after
  place : (scanLines dependencySection start before (line :: after)).2 = ⟨0, header⟩

theorem depsAfter_inlineLine (hname : DependencyName d.name) (hentries : entries.Perm d.entries)
    (after : List Text) : ∃ dep,
      depsAfter ⟨0, "dependencies".toList⟩ (inlineLine d.name entries :: after) =
        dep :: depsAfter ⟨0, "dependencies".toList⟩ after ∧
      dep.name = d.name ∧ dep.path = squeeze d.path ∧ dep.versionRequirement = squeeze d.version ∧
      dep.features = readFeatures d.features ∧ dep.optional = d.optional ∧
      dep.defaultFeatures = d.defaultFeatures := by
  have hsub : ∀ entry ∈ entries, entry ∈ d.entries := fun entry hentry => hentries.subset hentry
  have hopen : '{' ∉ d.name := fun h => (hname.plain _ h).2.2.2.2 rfl
  have hopenLine : '{' ∈ inlineLine d.name entries := by
    rw [inlineLine, assignmentLine]
    exact mem_append_right _ mem_cons_self
  have hfind : ∀ entry ∈ d.entries, find (parseInlineTable (inlineLine d.name entries)) entry.1 =
      some (unquote (d.value entry)) := fun entry hentry => find_inlineLine hopen hentries hentry
  obtain ⟨hpath, hversion, hfeatures, hoptional, hdefault, -⟩ :
      _ ∧ _ ∧ _ ∧ _ ∧ _ ∧ ∀ entry ∈ ([] : List (Text × Text)), _ := by
    simpa only [InlineDependency.entries, forall_mem_cons] using hfind
  rw [d.value_other (by decide), unquote_lockQuote] at hpath hversion
  rw [d.value_features] at hfeatures
  rw [d.value_other (by decide)] at hoptional hdefault
  obtain ⟨dep, hdep, hdepName, hdepPath, hdepVersion, hdepFeatures, hdepOptional, hdepDefault⟩ :=
    depSpecOf_source d.name (parseInlineTable (inlineLine d.name entries))
  refine ⟨dep, ?_, hdepName, ?_, ?_, ?_, ?_, ?_⟩
  · have hsection : decide ("dependencies".toList = "c-dependencies".toList) = false := by decide
    exact depsAfter_cons (scanLine_inlineLine hname hsub after) hopenLine (hsection ▸ hdep)
  · rw [hdepPath, hpath, getD_some]
  · rw [hdepVersion, hversion, getD_some]
  · rw [hdepFeatures, hfeatures, map_some, getD_some, tomlStringList_firstPart]
  · rw [hdepOptional, hoptional, map_some, getD_some, parseTomlBoolValue_flagText]
  · rw [hdepDefault, hdefault, map_some, getD_some, parseTomlBoolValue_flagText]

variable {content : Text} {before after : List Text}

theorem readAsOne_iff (hname : DependencyName d.name) (hentries : entries.Perm d.entries)
    (hstands : StandsIn "dependencies".toList content before (inlineLine d.name entries) after) :
    ReadAsOne d content before after (inlineLine d.name entries) ↔
      squeeze d.path = d.path ∧ squeeze d.version = d.version ∧ readFeatures d.features = d.features := by
  obtain ⟨dep, hdep, hdepName, hpath, hversion, hfeatures, hoptional, hdefault⟩ :=
    depsAfter_inlineLine hname hentries after
  have hdeps := parseSourceDeps_append hstands.lines
  rw [hstands.place, hdep] at hdeps
  constructor
  · rintro ⟨dep', hdeps', -, hpath', hversion', hfeatures', -⟩
    rw [hdeps, append_cancel_left_eq] at hdeps'
    obtain rfl := head_eq_of_cons_eq hdeps'
    exact ⟨hpath ▸ hpath', hversion ▸ hversion', hfeatures ▸ hfeatures'⟩
  · rintro ⟨hpath', hversion', hfeatures'⟩
    exact ⟨dep, hdeps, hdepName, hpath.trans hpath', hversion.trans hversion',
      hfeatures.trans hfeatures', hoptional, hdefault⟩

/-- The line is read as what it says where it has at most one feature, with a name, and where no text
has blanks that are lost when it is read. -/
theorem parseSourceDeps_inline_iff (d : InlineDependency) (entries : List (Text × Text))
    (content : Text) (before after : List Text) (hname : DependencyName d.name)
    (hentries : entries.Perm d.entries)
    (hstands : StandsIn "dependencies".toList content before (inlineLine d.name entries) after) :
    ReadAsOne d content before after (inlineLine d.name entries) ↔
      d.features.length ≤ 1 ∧ (∀ feature ∈ d.features, feature ≠ [] ∧ Squeezed feature) ∧
        Squeezed d.path ∧ Squeezed d.version := by
  rw [readAsOne_iff hname hentries hstands, squeeze_eq_self_iff, squeeze_eq_self_iff,
    readFeatures_eq_self_iff]
  tauto

def fastJson : InlineDependency :=
  ⟨"json".toList, "../json".toList, "^1.2".toList, ["fast".toList], true, false⟩

def fastJsonLine : Text := inlineLine "json".toList fastJson.entries.reverse

theorem plain_json : DependencyName "json".toList where
  tight := BracketedText.tight_of_forall (by decide) (by decide)
  plain := by decide

def manifestOf (line : Text) : Text := ["[dependencies]".toList, line].flatMap (· ++ ['\n'])

theorem standsIn_manifestOf {line : Text} (hline : '\n' ∉ line) :
    StandsIn "dependencies".toList (manifestOf line) ["[dependencies]".toList] line [] where
  lines := textLines_written (forall_mem_cons.2 ⟨by decide, forall_mem_singleton.2 hline⟩)
  place := rfl

theorem fastJson_read : ReadAsOne fastJson (manifestOf fastJsonLine) ["[dependencies]".toList] []
    fastJsonLine :=
  (parseSourceDeps_inline_iff fastJson fastJson.entries.reverse (manifestOf fastJsonLine) _ []
    plain_json (reverse_perm _) (standsIn_manifestOf (by decide))).2
    ⟨by decide, forall_mem_singleton.2 ⟨by decide, squeeze_eq_self_iff.1 (by decide)⟩,
      squeeze_eq_self_iff.1 (by decide), squeeze_eq_self_iff.1 (by decide)⟩

def twoFeatures : InlineDependency := { fastJson with features := ["fast".toList, "pretty".toList] }

theorem not_inlineDependency_read : ¬ ∀ (d : InlineDependency) (entries : List (Text × Text))
    (content : Text) (before after : List Text), DependencyName d.name → entries.Perm d.entries →
    (∀ feature ∈ d.features, feature ≠ [] ∧ ∀ c ∈ feature, c.isAlphanum) →
    StandsIn "dependencies".toList content before (inlineLine d.name entries) after →
    ReadAsOne d content before after (inlineLine d.name entries) := by
  intro hall
  have hstands := @standsIn_manifestOf (inlineLine "json".toList twoFeatures.entries) (by decide)
  have hread := hall twoFeatures twoFeatures.entries _ _ [] plain_json (List.Perm.refl _) (by decide) hstands
  exact absurd ((readAsOne_iff plain_json (List.Perm.refl _) hstands).1 hread).2.2 (by decide)

end Mlang.InlineDependencies
