import Mlang.RequirementTerms

namespace Mlang.RequirementMatching

open BracketedText (Text isSpace trimCopy)
open SemanticVersions VersionPrecedence VersionRequirements VersionReading RequirementTerms List Bool

def words (s : Text) : List Text := (s.splitOnP isSpace).filter (· ≠ [])

def blanked (s : Text) : Text := s.map fun a => if a = ',' then ' ' else a

variable {a : Char} {w s text : Text} {ts : List Term} {texts : List Text} {version : SemanticVersion}
  {requirement : List (List Term)}

theorem words_cons_space (ha : isSpace a = true) (s : Text) : words (a :: s) = words s := by
  rw [words, ← nil_append (a :: s), splitOnP_append_cons _ _ ha, filter_append]
  rfl

theorem words_append_space (ha : isSpace a = true) (s : Text) : words (s ++ [a]) = words s := by
  rw [words, splitOnP_append_cons _ _ ha, filter_append]
  simp [words]

theorem words_cons_word (hw : ∀ c ∈ w, isSpace c = false) (hne : w ≠ []) (ha : isSpace a = true) :
    words (w ++ a :: s) = w :: words s := by
  rw [words, splitOnP_append_cons_of_forall_mem hw _ ha, filter_cons_of_pos (by simpa using hne), words]

theorem words_word (hw : ∀ c ∈ w, isSpace c = false) (hne : w ≠ []) : words w = [w] := by
  rw [words, splitOnP_eq_singleton hw, filter_cons_of_pos (by simpa using hne)]
  rfl

theorem blanked_space (ha : isSpace a = true) : (if a = ',' then ' ' else a) = a := by
  rw [if_neg]
  rintro rfl
  exact absurd ha (by decide)

theorem words_blanked_dropWhile (s : Text) :
    words (blanked (s.dropWhile isSpace)) = words (blanked s) := by
  induction s with
  | nil => rfl
  | cons a s ih =>
    cases ha : isSpace a with
    | true =>
      rw [dropWhile_cons_of_pos ha, ih]
      refine (words_cons_space (a := if a = ',' then ' ' else a) ?_ _).symm
      rw [blanked_space ha, ha]
    | false => rw [dropWhile_cons_of_neg (by simp [ha])]

theorem words_blanked_rdropWhile (s : Text) :
    words (blanked (s.rdropWhile isSpace)) = words (blanked s) := by
  induction s using List.reverseRecOn with
  | nil => rfl
  | append_singleton s a ih =>
    cases ha : isSpace a with
    | true =>
      rw [rdropWhile_concat_pos _ _ _ ha, ih, blanked, blanked, map_append]
      refine (words_append_space (a := if a = ',' then ' ' else a) ?_ _).symm
      rw [blanked_space ha, ha]
    | false => rw [rdropWhile_concat_neg _ _ _ (by simp [ha])]

theorem terms_eq_words (s : Text) : terms s = words (blanked s) := by
  calc
    terms s = words (blanked (trimCopy s)) := rfl
    _ = words (blanked (s.dropWhile isSpace)) := words_blanked_rdropWhile _
    _ = words (blanked s) := words_blanked_dropWhile s

theorem blanked_text (t : Term) : blanked t.text = t.text := by
  calc
    blanked t.text = t.text.map id :=
      map_congr_left fun a ha => if_neg (plain_of_mem_text ha).comma
    _ = t.text := map_id _

theorem terms_of_spelled (h : SpelledTerms ts s) : terms s = ts.map Term.text := by
  rw [terms_eq_words]
  induction h with
  | nothing => rfl
  | @blank separator ts s hsep _ ih =>
    have hblank : blanked (separator :: s) = ' ' :: blanked s := by
      rcases hsep with rfl | rfl
      all_goals rfl
    rw [hblank, words_cons_space (by decide), ih]
  | @term separator ts s t hsep _ ih =>
    have hblank : blanked (t.text ++ separator :: s) = t.text ++ ' ' :: blanked s := by
      rw [blanked, map_append, ← blanked, blanked_text]
      rcases hsep with rfl | rfl
      all_goals rfl
    rw [hblank, words_cons_word (fun a ha => (plain_of_mem_text ha).unspaced) (text_ne_nil t)
      (by decide), ih, map_cons]
  | last t =>
    rw [blanked_text, words_word (fun a ha => (plain_of_mem_text ha).unspaced) (text_ne_nil t)]
    rfl

theorem alternatives_append (h : '|' ∉ s) (rest : Text) :
    alternatives (s ++ '|' :: '|' :: rest) = s :: alternatives rest := by
  induction s with
  | nil => rw [nil_append, alternatives]
  | cons a s ih =>
    have ha : a ≠ '|' := fun heq => h (heq ▸ mem_cons_self)
    have hs : '|' ∉ s := fun hin => h (mem_cons_of_mem _ hin)
    rw [cons_append, alternatives, ih hs]
    · rfl
    · rintro _ heq
      exact absurd heq ha

theorem alternatives_single (h : '|' ∉ s) : alternatives s = [s] := by
  induction s with
  | nil => rfl
  | cons a s ih =>
    have ha : a ≠ '|' := fun heq => h (heq ▸ mem_cons_self)
    have hs : '|' ∉ s := fun hin => h (mem_cons_of_mem _ hin)
    rw [alternatives, ih hs]
    · rfl
    · rintro _ heq
      exact absurd heq ha

theorem alternatives_intercalate (hne : texts ≠ []) (h : ∀ s ∈ texts, '|' ∉ s) :
    alternatives ("||".toList.intercalate texts) = texts := by
  induction texts with
  | nil => exact absurd rfl hne
  | cons s rest ih =>
    obtain ⟨hs, hrest⟩ := forall_mem_cons.1 h
    cases rest with
    | nil => simpa using alternatives_single hs
    | cons next rest =>
      rw [intercalate_cons_cons, append_assoc]
      exact (alternatives_append hs _).trans
        (congrArg (s :: ·) (ih (cons_ne_nil _ _) hrest))

theorem bar_notMem_of_spelled (h : SpelledTerms ts s) : '|' ∉ s := by
  have htext : ∀ t : Term, '|' ∉ t.text := fun t hbar => (plain_of_mem_text hbar).bar rfl
  induction h with
  | nothing => exact not_mem_nil
  | @blank separator ts s hsep _ ih =>
    intro hbar
    rcases mem_cons.1 hbar with rfl | hbar
    · exact absurd hsep (by decide)
    · exact ih hbar
  | @term separator ts s t hsep _ ih =>
    intro hbar
    rcases mem_append.1 hbar with hbar | hbar
    · exact htext t hbar
    · rcases mem_cons.1 hbar with rfl | hbar
      · exact absurd hsep (by decide)
      · exact ih hbar
  | last t => exact htext t

theorem text_subset_of_spelled (h : SpelledTerms ts s) {t : Term} (ht : t ∈ ts) : t.text ⊆ s := by
  induction h with
  | nothing => cases ht
  | blank _ _ ih => exact fun a ha => mem_cons_of_mem _ (ih ht ha)
  | term t' _ _ ih =>
    intro a ha
    rcases mem_cons.1 ht with rfl | ht
    · exact mem_append_left _ ha
    · exact mem_append_right _ (mem_cons_of_mem _ (ih ht ha))
  | last t' =>
    obtain rfl := mem_singleton.1 ht
    exact fun a ha => ha

theorem trimCopy_ne_nil (ha : a ∈ s) (hspace : isSpace a = false) : trimCopy s ≠ [] := by
  intro h
  have hall := rdropWhile_eq_nil_iff.1 h
  rw [← takeWhile_append_dropWhile (p := isSpace) (l := s)] at ha
  rcases mem_append.1 ha with ha | ha
  · exact false_ne_true (hspace.symm.trans (mem_takeWhile_imp ha))
  · exact false_ne_true (hspace.symm.trans (hall a ha))

/-- What the code accepts: an alternative each of whose terms is read as it is meant. -/
def Accepts (version : SemanticVersion) (requirement : List (List Term)) : Prop :=
  ∃ alternative ∈ requirement, ∀ t ∈ alternative,
    ¬ t.Misread ∧ (t.Admits version ∨ t.Overshoots version)

theorem satisfiesOne_iff (hversion : WellRead version) (t : Term) :
    semanticVersionSatisfiesOne version t.text = true ↔ ¬ t.Misread ∧
    (t.Admits version ∨ t.Overshoots version) := by
  cases t with
  | comparison c => exact satisfiesOne_comparison hversion c
  | wildcard w =>
    refine (satisfiesOne_wildcard hversion w).trans ?_
    simp [Term.Misread, Term.Overshoots, Term.Admits]

theorem satisfies_alternative (hversion : WellRead version) (hspelled : SpelledTerms ts s) (hne : ts ≠ []) :
    ((terms s).all (semanticVersionSatisfiesOne version) && terms s ≠ []) = true ↔ ∀ t ∈ ts, ¬ t.Misread ∧
    (t.Admits version ∨ t.Overshoots version) := by
  have hsome : terms s ≠ [] := by
    rw [terms_of_spelled hspelled]
    simpa using hne
  rw [and_eq_true, and_iff_left (decide_eq_true hsome), all_eq_true,
    terms_of_spelled hspelled, forall_mem_map]
  exact forall₂_congr fun t _ => satisfiesOne_iff hversion t

theorem any_alternative (hversion : WellRead version) (hspelled : List.Forall₂ SpelledTerms requirement texts)
    (hne : ∀ ts ∈ requirement, ts ≠ []) :
    (texts.any fun s => (terms s).all (semanticVersionSatisfiesOne version) && terms s ≠ []) = true ↔
    Accepts version requirement := by
  induction hspelled with
  | nil => simp [Accepts]
  | cons hts _ ih =>
    obtain ⟨hfirst, hrest⟩ := forall_mem_cons.1 hne
    rw [any_cons, or_eq_true, satisfies_alternative hversion hts hfirst, ih hrest,
      Accepts, Accepts, exists_mem_cons_iff]

theorem bar_notMem_texts (hspelled : List.Forall₂ SpelledTerms requirement texts) : ∀ s ∈ texts, '|' ∉ s := by
  induction hspelled with
  | nil => exact fun s hs => absurd hs not_mem_nil
  | cons hts _ ih => exact forall_mem_cons.2 ⟨bar_notMem_of_spelled hts, ih⟩

theorem trimCopy_requirement_ne_nil (hspelled : Spelled requirement text) : trimCopy text ≠ [] := by
  obtain ⟨texts, htexts, rfl⟩ := hspelled.spelled
  cases htexts with
  | nil => exact absurd rfl hspelled.ne_nil
  | @cons ts s requirement texts hts _ =>
    obtain ⟨t, rest, rfl⟩ :=
      exists_cons_of_ne_nil (hspelled.terms_ne_nil ts mem_cons_self)
    obtain ⟨a, tail, htext⟩ := exists_cons_of_ne_nil (text_ne_nil t)
    have ha : a ∈ t.text := htext ▸ mem_cons_self
    have hs : a ∈ s := text_subset_of_spelled hts mem_cons_self ha
    refine trimCopy_ne_nil (a := a) ?_ (plain_of_mem_text ha).unspaced
    cases texts with
    | nil => simpa using hs
    | cons next texts =>
      rw [intercalate_cons_cons, append_assoc]
      exact mem_append_left _ hs

theorem satisfies_iff_accepts {versionText : Text} (hparse : parseSemanticVersion versionText = some version)
    (hspelled : Spelled requirement text) :
    semanticVersionSatisfies versionText text = true ↔ Accepts version requirement := by
  have hversion := wellRead_of_parse hparse
  have hblank := trimCopy_requirement_ne_nil hspelled
  obtain ⟨texts, htexts, rfl⟩ := hspelled.spelled
  have hsome : texts ≠ [] := by
    rintro rfl
    cases htexts
    exact hspelled.ne_nil rfl
  rw [semanticVersionSatisfies, hparse]
  dsimp only
  rw [alternatives_intercalate hsome (bar_notMem_texts htexts), or_eq_true,
    any_alternative hversion htexts hspelled.terms_ne_nil, or_iff_left]
  rw [List.isEmpty_iff]
  exact hblank

/-- The requirement admits the version, but each alternative has a term that is misread or that
neither admits nor overshoots to it. -/
def Overlooked (version : SemanticVersion) (requirement : List (List Term)) : Prop :=
  Admits version requirement ∧ ∀ alternative ∈ requirement, ∃ t ∈ alternative,
    t.Misread ∨ (¬ t.Admits version ∧ ¬ t.Overshoots version)

/-- No alternative admits the version, but the terms of one, none of them misread, would where a
range that names a pre-release took in the pre-releases of its excluded bound. -/
def Overreached (version : SemanticVersion) (requirement : List (List Term)) : Prop :=
  ¬ Admits version requirement ∧ ∃ alternative ∈ requirement, ∀ t ∈ alternative,
    ¬ t.Misread ∧ (t.Admits version ∨ t.Overshoots version)

theorem not_accepts_iff {version : SemanticVersion} {requirement : List (List Term)} :
    ¬ Accepts version requirement ↔ ∀ alternative ∈ requirement, ∃ t ∈ alternative,
      t.Misread ∨ (¬ t.Admits version ∧ ¬ t.Overshoots version) := by
  rw [Accepts]
  push Not
  refine forall₂_congr fun alternative _ => exists_congr fun t => and_congr_right fun _ => ?_
  tauto

/-- The code admits a version exactly as documented, except where a term is misread or a range
overshoots. -/
theorem satisfies_iff_admits {versionText text : Text} {requirement : List (List Term)}
    (hcomplete : isCompleteSemanticVersion versionText = true) (hspelled : Spelled requirement text) :
    ∃ version, parseSemanticVersion versionText = some version ∧
      ((semanticVersionSatisfies versionText text = true ↔ Admits version requirement) ↔
        ¬ Overlooked version requirement ∧ ¬ Overreached version requirement) := by
  rw [isCompleteSemanticVersion, and_eq_true] at hcomplete
  obtain ⟨version, hparse⟩ := Option.isSome_iff_exists.1 hcomplete.2
  refine ⟨version, hparse, ?_⟩
  have hreached : (∃ alternative ∈ requirement, ∀ t ∈ alternative,
      ¬ t.Misread ∧ (t.Admits version ∨ t.Overshoots version)) ↔ Accepts version requirement :=
    Iff.rfl
  rw [satisfies_iff_accepts hparse hspelled, Overlooked, Overreached, ← not_accepts_iff, hreached]
  tauto

def taggedTerm (operator : Operator) (tag : String) (hvalid : validIdentifier tag.toList = true)
    (hcharacters : tag.toList.all tagCharacter = true) : Term :=
  .comparison
    { operator := some operator
      numbers := [1, 2, 3]
      tag := [tag.toList]
      numbers_ne_nil := cons_ne_nil _ _
      numbers_length := by decide
      tag_valid := forall_mem_singleton.2 hvalid
      tag_characters := forall_mem_singleton.2 hcharacters }

theorem spelled_single (t : Term) : Spelled [[t]] t.text where
  ne_nil := cons_ne_nil _ _
  terms_ne_nil := by simp
  spelled := ⟨[t.text], .cons (.last t) .nil, by simp⟩

theorem afterAlpha_judged : ∃ version, parseSemanticVersion "1.2.4".toList = some version ∧
    ((semanticVersionSatisfies "1.2.4".toList ">=1.2.3-alpha".toList = true ↔
        Admits version [[taggedTerm .atLeast "alpha" (by decide) (by decide)]]) ↔
      ¬ Overlooked version [[taggedTerm .atLeast "alpha" (by decide) (by decide)]] ∧
        ¬ Overreached version [[taggedTerm .atLeast "alpha" (by decide) (by decide)]]) :=
  satisfies_iff_admits (by decide) (spelled_single _)

/-- The version that a requirement names is refused where its tag has an `x` in it, and a
pre-release of the next major version is taken for a compatible one. -/
theorem taggedTerms_misjudged :
    (isCompleteSemanticVersion "1.2.3-fix".toList = true ∧
      Spelled [[taggedTerm .equal "fix" (by decide) (by decide)]] "=1.2.3-fix".toList ∧
      semanticVersionSatisfies "1.2.3-fix".toList "=1.2.3-fix".toList = false ∧
      parseSemanticVersion "1.2.3-fix".toList = some ⟨1, 2, 3, ["fix".toList]⟩ ∧
      Admits ⟨1, 2, 3, ["fix".toList]⟩ [[taggedTerm .equal "fix" (by decide) (by decide)]]) ∧
    (isCompleteSemanticVersion "2.0.0-alpha".toList = true ∧
      Spelled [[taggedTerm .caret "alpha" (by decide) (by decide)]] "^1.2.3-alpha".toList ∧
      semanticVersionSatisfies "2.0.0-alpha".toList "^1.2.3-alpha".toList = true ∧
      parseSemanticVersion "2.0.0-alpha".toList = some ⟨2, 0, 0, ["alpha".toList]⟩ ∧
      ¬ Admits ⟨2, 0, 0, ["alpha".toList]⟩ [[taggedTerm .caret "alpha" (by decide) (by decide)]]) := by
  refine ⟨⟨by decide, spelled_single _, by decide, by decide, ?_⟩,
    by decide, spelled_single _, by decide, by decide, ?_⟩
  · refine ⟨_, mem_singleton_self _, forall_mem_singleton.2 ⟨fun _ => ?_, rfl⟩⟩
    exact cons_ne_nil _ _
  · rintro ⟨alternative, halternative, hall⟩
    obtain rfl := mem_singleton.1 halternative
    have hkeeps := (forall_mem_singleton.1 hall).2.2
    exact absurd (cons_prefix_cons.1 hkeeps).1 (by decide)

end Mlang.RequirementMatching
