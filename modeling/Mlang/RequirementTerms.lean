import Mlang.VersionReading

namespace Mlang.RequirementTerms

open BracketedText (Text isSpace trimCopy)
open SemanticVersions VersionPrecedence VersionRequirements VersionReading DecimalTexts List

variable {numbers : List Nat} {version : SemanticVersion}

section Operators

variable {bound : SemanticVersion} {a b c : Nat} {tag : List Text} {written : List Nat}

theorem keeps_one : Keeps version [a] ↔ version.major = a := by
  simp [Keeps, cons_prefix_cons, eq_comm]

theorem keeps_two : Keeps version [a, b] ↔ version.major = a ∧ version.minor = b := by
  simp [Keeps, cons_prefix_cons, eq_comm]

theorem keeps_three : Keeps version [a, b, c] ↔ version.major = a ∧ version.minor = b ∧
    version.patch = c := by
  simp [Keeps, cons_prefix_cons, eq_comm]

theorem increment_of_ne {n : Int} (h : n ≠ intMax) : increment n = n + 1 := if_neg h

inductive CountsUp (a b c : Nat) : List Nat → SemanticVersion → Prop
  | major : CountsUp a b c [a] ⟨increment a, 0, 0, []⟩
  | minor : CountsUp a b c [a, b] ⟨a, increment b, 0, []⟩
  | patch : CountsUp a b c [a, b, c] ⟨a, b, increment c, []⟩

theorem countsUp_caret : CountsUp a b c (throughNonzero [a, b, c]) (caretBound ⟨a, b, c, tag⟩) := by
  by_cases ha : a = 0
  · by_cases hb : b = 0
    · have hkeeps : throughNonzero [a, b, c] = [a, b, c] := by
        simp [throughNonzero, ha, hb]
      have hbound : caretBound ⟨a, b, c, tag⟩ = ⟨a, b, increment c, []⟩ := by
        simp [caretBound, ha, hb]
      rw [hbound, hkeeps]
      exact .patch
    · have hkeeps : throughNonzero [a, b, c] = [a, b] := by
        simp [throughNonzero, ha, hb]
      have hbound : caretBound ⟨a, b, c, tag⟩ = ⟨a, increment b, 0, []⟩ := by
        simp [caretBound, ha, Nat.pos_of_ne_zero hb]
      rw [hbound, hkeeps]
      exact .minor
  · have hkeeps : throughNonzero [a, b, c] = [a] := by
      simp [throughNonzero, ha]
    have hbound : caretBound ⟨a, b, c, tag⟩ = ⟨increment a, 0, 0, []⟩ := by
      simp [caretBound, Nat.pos_of_ne_zero ha]
    rw [hbound, hkeeps]
    exact .major

theorem countsUp_tilde : CountsUp a b c [a, b] (tildeBound ⟨a, b, c, tag⟩) := .minor

theorem range_iff (hversion : WellRead version) (hbound : CountsUp a b c written bound)
    (hcount : ∀ n, written.getLast? = some n → (n : Int) ≠ intMax) :
    precedence ⟨a, b, c, tag⟩ ≤ precedence version ∧ precedence version < precedence bound ↔
    (precedence ⟨a, b, c, tag⟩ ≤ precedence version ∧ Keeps version written) ∨
    (version.prerelease ≠ [] ∧ version.major = bound.major ∧ version.minor = bound.minor ∧ version.patch =
      bound.patch) := by
  have hminor := hversion.minor.1
  have hpatch := hversion.patch.1
  have habove : version.major = bound.major ∧ version.minor = bound.minor ∧
      version.patch = bound.patch → precedence ⟨a, b, c, tag⟩ ≤ precedence version := by
    intro h
    refine le_of_lt (precedence_lt.2 ?_)
    cases hbound with
    | major =>
      rw [increment_of_ne (hcount a rfl)] at h
      exact .inl (h.1 ▸ Int.lt_succ a)
    | minor =>
      rw [increment_of_ne (hcount b rfl)] at h
      exact .inr ⟨h.1.symm, .inl (h.2.1 ▸ Int.lt_succ b)⟩
    | patch =>
      rw [increment_of_ne (hcount c rfl)] at h
      exact .inr ⟨h.1.symm, .inr ⟨h.2.1.symm, .inl (h.2.2 ▸ Int.lt_succ c)⟩⟩
  have hbelow : precedence ⟨a, b, c, tag⟩ ≤ precedence version →
      (precedence version < precedence bound ↔ Keeps version written ∨
        (version.prerelease ≠ [] ∧ version.major = bound.major ∧ version.minor = bound.minor ∧
          version.patch = bound.patch)) := by
    intro hle
    have hcomponents := components_of_le hle
    dsimp only at hcomponents
    cases hbound with
    | major =>
      rw [increment_of_ne (hcount a rfl), keeps_one, precedence_lt_release]
      refine or_congr_left ?_
      omega
    | minor =>
      rw [increment_of_ne (hcount b rfl), keeps_two, precedence_lt_release]
      refine or_congr_left ?_
      omega
    | patch =>
      rw [increment_of_ne (hcount c rfl), keeps_three, precedence_lt_release]
      refine or_congr_left ?_
      omega
  constructor
  · exact fun h => ((hbelow h.1).1 h.2).imp (⟨h.1, ·⟩) id
  · rintro (h | h)
    · exact ⟨h.1, (hbelow h.1).2 (.inl h.2)⟩
    · exact ⟨habove h.2, (hbelow (habove h.2)).2 (.inr h)⟩

theorem not_lt_of_overflow {n : Nat} (hversion : WellRead version) (hbound : CountsUp a b c written bound)
    (hcount : written.getLast? = some n) (hn : (n : Int) = intMax)
    (hle : precedence ⟨a, b, c, tag⟩ ≤ precedence version) : ¬ precedence version < precedence bound := by
  have hcomponents := components_of_le hle
  dsimp only at hcomponents
  have hmajor := hversion.major.1
  have hminor := hversion.minor.1
  have hpatch := hversion.patch.1
  have hmax : 0 < intMax := by decide
  have hwrapped : increment n = -intMax - 1 := if_pos hn
  cases hbound with
  | major =>
    obtain rfl : a = n := by simpa using hcount
    rw [hwrapped, precedence_lt_release]
    omega
  | minor =>
    obtain rfl : b = n := by simpa using hcount
    rw [hwrapped, precedence_lt_release]
    omega
  | patch =>
    obtain rfl : c = n := by simpa using hcount
    rw [hwrapped, precedence_lt_release]
    omega

theorem count_dotted (h : numbers ≠ []) :
    (dotted (numbers.map (Nat.toDigits 10))).count '.' + 1 = numbers.length := by
  have hdigits : ∀ n : Nat, (Nat.toDigits 10 n).count '.' = 0 := by
    refine fun n => count_eq_zero.2 fun hdot => ?_
    exact absurd (all_eq_true.1 (canonical_toDigits n).digits '.' hdot) (by decide)
  induction numbers with
  | nil => exact absurd rfl h
  | cons n rest ih =>
    cases rest with
    | nil => simp [dotted, hdigits]
    | cons m rest =>
      have hrest := ih (cons_ne_nil _ _)
      rw [dotted, map_cons] at hrest ⊢
      rw [map_cons, intercalate_cons_cons, count_append, count_append,
        hdigits, length_cons, ← hrest, ← map_cons]
      simp
      omega

theorem bare_iff (c : Comparison) (hversion : WellRead version) :
    satisfiesOperator version c.wanted c.versionText none = true ↔ if c.tag = [] ∧
    c.numbers.length < 3 then Keeps version c.numbers else precedence version = precedence c.wanted := by
  have hcompare := compareSemanticVersions_compares hversion.valid (valid_wanted c)
  have hdash := Comparison.dash_mem_versionText c
  rw [satisfiesOperator]
  by_cases htag : c.tag = []
  · have hcount : c.versionText.count '.' + 1 = c.numbers.length := by
      rw [Comparison.versionText, if_pos htag, append_nil]
      exact count_dotted c.numbers_ne_nil
    have hundashed : '-' ∉ c.versionText := fun h => hdash.1 h htag
    rcases hnumbers : c.numbers with _ | ⟨a, _ | ⟨b, _ | ⟨d, rest⟩⟩⟩
    · exact absurd hnumbers c.numbers_ne_nil
    · have hzero : c.versionText.count '.' = 0 := by simpa [hnumbers] using hcount
      rw [if_pos ⟨hundashed, hzero⟩, if_pos ⟨htag, by simp⟩, decide_eq_true_iff, keeps_one]
      simp [Comparison.wanted, Comparison.component, hnumbers]
    · have hone : c.versionText.count '.' = 1 := by simpa [hnumbers] using hcount
      rw [if_neg (by simp [hone]), if_pos ⟨hundashed, hone⟩, if_pos ⟨htag, by simp⟩, keeps_two]
      simp [Comparison.wanted, Comparison.component, hnumbers]
    · rw [hnumbers] at hcount
      simp only [length_cons] at hcount
      rw [if_neg fun h => by omega, if_neg fun h => by omega, if_neg, decide_eq_true_iff,
        hcompare.eq_eq]
      simp
  · have hdashed : ¬ '-' ∉ c.versionText := not_not.2 (hdash.2 htag)
    rw [if_neg fun h => hdashed h.1, if_neg fun h => hdashed h.1, if_neg fun h => htag h.1,
      decide_eq_true_iff, hcompare.eq_eq]

theorem valid_caretBound (wanted : SemanticVersion) : Valid (caretBound wanted) := by
  rw [caretBound]
  split_ifs
  all_goals exact fun part hpart => absurd hpart not_mem_nil

theorem valid_tildeBound (wanted : SemanticVersion) : Valid (tildeBound wanted) :=
  fun _ hpart => absurd hpart not_mem_nil

theorem countsUp_of_operator (c : Comparison) {op : Operator} (hop : c.operator = some op) :
    (op = .caret → CountsUp (c.component 0) (c.component 1) (c.component 2)
        (throughNonzero c.components) (caretBound c.wanted) ∧
      c.counted = (throughNonzero c.components).getLast?) ∧
    (op = .tilde → CountsUp (c.component 0) (c.component 1) (c.component 2)
        (c.components.take 2) (tildeBound c.wanted) ∧ c.counted = (c.components.take 2).getLast?) := by
  constructor
  · rintro rfl
    exact ⟨countsUp_caret, by rw [Comparison.counted, hop]⟩
  · rintro rfl
    exact ⟨countsUp_tilde, by rw [Comparison.counted, hop]; rfl⟩

theorem satisfiesOperator_iff (c : Comparison) (hversion : WellRead version)
    (hcount : ∀ n, c.counted = some n → (n : Int) ≠ intMax) (hpre : version.prerelease ≠ [] → c.tag ≠ []) :
    satisfiesOperator version c.wanted c.versionText c.operator = true ↔ c.Contains version ∨
    (Term.comparison c).Overshoots version := by
  have hcompare := compareSemanticVersions_compares hversion.valid (valid_wanted c)
  cases hop : c.operator with
  | none =>
    rw [bare_iff c hversion]
    simp [Comparison.Contains, Term.Overshoots, hop]
  | some op =>
    cases op with
    | atLeast =>
      simp [satisfiesOperator, Comparison.Contains, Term.Overshoots, hop, hcompare.ne_lt]
    | atMost =>
      simp [satisfiesOperator, Comparison.Contains, Term.Overshoots, hop, hcompare.ne_gt]
    | above =>
      simp [satisfiesOperator, Comparison.Contains, Term.Overshoots, hop, hcompare.eq_gt]
    | below =>
      simp [satisfiesOperator, Comparison.Contains, Term.Overshoots, hop, hcompare.eq_lt]
    | equal =>
      simp [satisfiesOperator, Comparison.Contains, Term.Overshoots, hop, hcompare.eq_eq]
    | caret =>
      have hbound := compareSemanticVersions_compares hversion.valid
        (valid_caretBound c.wanted)
      obtain ⟨hcounts, hcounted⟩ := (countsUp_of_operator c hop).1 rfl
      rw [satisfiesOperator, Bool.and_eq_true, decide_eq_true_iff, decide_eq_true_iff,
        hcompare.ne_lt, hbound.eq_lt]
      refine (range_iff hversion hcounts fun n hn => hcount n (hcounted.trans hn)).trans ?_
      simp only [Comparison.Contains, Term.Overshoots, hop]
      refine or_congr_right ⟨fun h => ?_, ?_⟩
      · exact ⟨hpre h.1, h.1, caretBound c.wanted, .inl ⟨trivial, rfl⟩, h.2⟩
      · rintro ⟨-, hne, bound, ⟨-, rfl⟩ | ⟨htilde, -⟩, h⟩
        · exact ⟨hne, h⟩
        · cases htilde
    | tilde =>
      have hbound := compareSemanticVersions_compares hversion.valid
        (valid_tildeBound c.wanted)
      obtain ⟨hcounts, hcounted⟩ := (countsUp_of_operator c hop).2 rfl
      rw [satisfiesOperator, Bool.and_eq_true, decide_eq_true_iff, decide_eq_true_iff,
        hcompare.ne_lt, hbound.eq_lt]
      refine (range_iff hversion hcounts fun n hn => hcount n (hcounted.trans hn)).trans ?_
      simp only [Comparison.Contains, Term.Overshoots, hop]
      refine or_congr_right ⟨fun h => ?_, ?_⟩
      · exact ⟨hpre h.1, h.1, tildeBound c.wanted, .inr ⟨trivial, rfl⟩, h.2⟩
      · rintro ⟨-, hne, bound, ⟨hcaret, -⟩ | ⟨-, rfl⟩, h⟩
        · cases hcaret
        · exact ⟨hne, h⟩

theorem satisfiesOperator_overflow (c : Comparison) (hversion : WellRead version)
    (hcount : ∃ n, c.counted = some n ∧ (n : Int) = intMax) :
    satisfiesOperator version c.wanted c.versionText c.operator = false := by
  have hcompare := compareSemanticVersions_compares hversion.valid (valid_wanted c)
  obtain ⟨n, hcounted, hn⟩ := hcount
  cases hop : c.operator with
  | none => simp [Comparison.counted, hop] at hcounted
  | some op =>
    cases op with
    | caret =>
      have hbound := compareSemanticVersions_compares hversion.valid
        (valid_caretBound c.wanted)
      obtain ⟨hcounts, hlast⟩ := (countsUp_of_operator c hop).1 rfl
      have hnot : precedence c.wanted ≤ precedence version →
          ¬ precedence version < precedence (caretBound c.wanted) :=
        not_lt_of_overflow hversion hcounts (hlast.symm.trans hcounted) hn
      rw [satisfiesOperator, Bool.eq_false_iff, ne_eq, Bool.and_eq_true, decide_eq_true_iff,
        decide_eq_true_iff, hcompare.ne_lt, hbound.eq_lt]
      exact fun h => hnot h.1 h.2
    | tilde =>
      have hbound := compareSemanticVersions_compares hversion.valid
        (valid_tildeBound c.wanted)
      obtain ⟨hcounts, hlast⟩ := (countsUp_of_operator c hop).2 rfl
      have hnot : precedence c.wanted ≤ precedence version →
          ¬ precedence version < precedence (tildeBound c.wanted) :=
        not_lt_of_overflow hversion hcounts (hlast.symm.trans hcounted) hn
      rw [satisfiesOperator, Bool.eq_false_iff, ne_eq, Bool.and_eq_true, decide_eq_true_iff,
        decide_eq_true_iff, hcompare.ne_lt, hbound.eq_lt]
      exact fun h => hnot h.1 h.2
    | atLeast => simp [Comparison.counted, hop] at hcounted
    | atMost => simp [Comparison.counted, hop] at hcounted
    | above => simp [Comparison.counted, hop] at hcounted
    | below => simp [Comparison.counted, hop] at hcounted
    | equal => simp [Comparison.counted, hop] at hcounted

end Operators

variable {a : Char} {part : Text}

theorem prefix_separated {p q s t : Text} (hp : a ∉ p) (hq : a ∉ q) :
    p ++ a :: s <+: q ++ a :: t ↔ p = q ∧ s <+: t := by
  induction p generalizing q with
  | nil =>
    cases q with
    | nil => simp [cons_prefix_cons]
    | cons b q =>
      have hne : a ≠ b := fun h => hq (h ▸ mem_cons_self)
      simp [cons_prefix_cons, hne]
  | cons b p ih =>
    cases q with
    | nil =>
      have hne : b ≠ a := fun h => hp (h ▸ mem_cons_self)
      simp [cons_prefix_cons, hne]
    | cons c q =>
      have hp' : a ∉ p := fun h => hp (mem_cons_of_mem _ h)
      have hq' : a ∉ q := fun h => hq (mem_cons_of_mem _ h)
      rw [cons_append, cons_append, cons_prefix_cons, ih hp' hq', List.cons.injEq, and_assoc]

def written (numbers : List Nat) : Text := numbers.flatMap fun n => Nat.toDigits 10 n ++ ['.']

theorem dotted_cons_of_ne_nil {rest : List Text} (h : rest ≠ []) :
    dotted (part :: rest) = part ++ '.' :: dotted rest := by
  cases rest with
  | nil => exact absurd rfl h
  | cons next rest => simp [dotted, intercalate_cons_cons]

theorem wildcard_text (w : Wildcard) : ∃ mark rest, w.text = written w.numbers ++ mark :: rest ∧
    isWildcard mark = true := by
  obtain ⟨mark, marks, hmarks⟩ := exists_cons_of_ne_nil w.marks_ne_nil
  have hmark := w.marks_wild mark (hmarks ▸ mem_cons_self)
  have hlast : ∃ rest, dotted ((mark :: marks).map fun mark => [mark]) = mark :: rest := by
    cases marks with
    | nil => exact ⟨[], rfl⟩
    | cons next marks => exact ⟨_, by simp [dotted, intercalate_cons_cons]; rfl⟩
  obtain ⟨rest, hrest⟩ := hlast
  refine ⟨mark, rest, ?_, hmark⟩
  rw [Wildcard.text, hmarks]
  induction w.numbers with
  | nil => exact hrest
  | cons n ns ih =>
    rw [map_cons, cons_append, dotted_cons_of_ne_nil (by simp), ih, written, written, flatMap_cons]
    simp

theorem mem_written (h : a ∈ written numbers) : a = '.' ∨ a.isDigit = true := by
  obtain ⟨n, -, ha⟩ := mem_flatMap.1 h
  rcases mem_append.1 ha with ha | ha
  · exact .inr (all_eq_true.1 (canonical_toDigits n).digits a ha)
  · exact .inl (mem_singleton.1 ha)

theorem isWildcard_of_digit (h : a = '.' ∨ a.isDigit = true) : isWildcard a = false := by
  rcases h with rfl | h
  · decide
  · rw [Bool.eq_false_iff]
    intro hwild
    simp only [isWildcard, Bool.or_eq_true, decide_eq_true_eq] at hwild
    rcases hwild with (rfl | rfl) | rfl
    all_goals exact absurd h (by decide)

theorem takeWhile_wildcard (w : Wildcard) :
    (w.text.takeWhile fun a => !isWildcard a) = written w.numbers := by
  obtain ⟨mark, rest, htext, hmark⟩ := wildcard_text w
  rw [htext, takeWhile_append_of_pos fun a ha => by
    rw [isWildcard_of_digit (mem_written ha)]; rfl]
  simp [hmark]

theorem renderedVersion_eq (hversion : WellRead version) :
    renderedVersion version = Nat.toDigits 10 version.major.toNat ++
    '.' :: (Nat.toDigits 10 version.minor.toNat ++ '.' :: Nat.toDigits 10 version.patch.toNat) := by
  have hint : ∀ n : Int, 0 ≤ n → TypeText.intText n = Nat.toDigits 10 n.toNat := by
    intro n hn
    obtain ⟨k, rfl⟩ := Int.eq_ofNat_of_zero_le hn
    rfl
  rw [renderedVersion, hint _ hversion.major.1, hint _ hversion.minor.1, hint _ hversion.patch.1]
  simp

theorem written_prefix_iff (hversion : WellRead version) (hlength : numbers.length ≤ 2) :
    written numbers <+: renderedVersion version ↔ Keeps version numbers := by
  have hdigits : ∀ {n : Nat} {m : Int}, 0 ≤ m →
      (Nat.toDigits 10 n = Nat.toDigits 10 m.toNat ↔ m = n) := by
    intro n m hm
    refine ⟨fun h => ?_, fun h => ?_⟩
    · have hsame := toDigits_inj h
      omega
    · rw [h, Int.toNat_natCast]
  rw [renderedVersion_eq hversion]
  match numbers with
  | [] => simp [written, Keeps]
  | [a] =>
    rw [keeps_one, ← hdigits hversion.major.1]
    have hwritten : written [a] = Nat.toDigits 10 a ++ '.' :: [] := by
      simp [written]
    rw [hwritten, prefix_separated (notMem_toDigits rfl a) (notMem_toDigits rfl _)]
    simp
  | [a, b] =>
    rw [keeps_two, ← hdigits hversion.major.1, ← hdigits hversion.minor.1]
    have hwritten : written [a, b] =
        Nat.toDigits 10 a ++ '.' :: (Nat.toDigits 10 b ++ '.' :: []) := by
      simp [written]
    rw [hwritten, prefix_separated (notMem_toDigits rfl a) (notMem_toDigits rfl _),
      prefix_separated (notMem_toDigits rfl b) (notMem_toDigits rfl _)]
    simp
  | a :: b :: c :: rest =>
    simp only [length_cons] at hlength
    omega

structure Plain (a : Char) : Prop where
  low : 42 ≤ a.toNat
  comma : a ≠ ','
  bar : a ≠ '|'

variable {d : Char} {rest : Text}

theorem Plain.unspaced (h : Plain a) : isSpace a = false := by
  have hlow := h.low
  rw [isSpace, Bool.or_eq_false_iff, decide_eq_false_iff_not, Bool.and_eq_false_iff,
    decide_eq_false_iff_not, decide_eq_false_iff_not]
  constructor
  · rintro rfl
    exact absurd hlow (by decide)
  · omega

theorem plain_of_bounds (h : 45 ≤ a.toNat ∧ a.toNat ≤ 122) : Plain a := by
  refine ⟨by omega, ?_, ?_⟩
  · rintro rfl
    exact absurd h.1 (by decide)
  · rintro rfl
    exact absurd h.2 (by decide)

theorem plain_of_mem_text {t : Term} (h : a ∈ t.text) : Plain a := by
  cases t with
  | comparison c =>
    rw [Term.text, Comparison.text, mem_append] at h
    rcases h with h | h
    · cases hop : c.operator with
      | none =>
        rw [hop] at h
        cases h
      | some op =>
        rw [hop] at h
        have hall : ∀ a ∈ op.text, 42 ≤ a.toNat ∧ a ≠ ',' ∧ a ≠ '|' := by
          cases op <;> decide
        exact ⟨(hall a h).1, (hall a h).2.1, (hall a h).2.2⟩
    · exact plain_of_bounds (Comparison.toNat_of_mem_versionText c h)
  | wildcard w =>
    have hmark : ∀ a, isWildcard a = true → Plain a := by
      intro a ha
      simp only [isWildcard, Bool.or_eq_true, decide_eq_true_eq] at ha
      rcases ha with (rfl | rfl) | rfl
      all_goals exact ⟨by decide, by decide, by decide⟩
    rcases mem_dotted h with rfl | ⟨part, hpart, ha⟩
    · exact plain_of_bounds (by decide)
    · rcases mem_append.1 hpart with hpart | hpart
      · obtain ⟨n, -, rfl⟩ := mem_map.1 hpart
        have hdigit := all_eq_true.1 (canonical_toDigits n).digits a ha
        have hbounds := toNat_of_tagCharacter (tagCharacter_of_isDigit hdigit)
        exact plain_of_bounds ⟨hbounds.1, hbounds.2.1⟩
      · obtain ⟨mark, hmem, rfl⟩ := mem_map.1 hpart
        rw [mem_singleton.1 ha]
        exact hmark mark (w.marks_wild mark hmem)

theorem text_ne_nil (t : Term) : t.text ≠ [] := by
  cases t with
  | comparison c =>
    obtain ⟨d, rest, h, -⟩ := Comparison.versionText_eq_cons c
    simp [Term.text, Comparison.text, h]
  | wildcard w =>
    obtain ⟨mark, rest, h, -⟩ := wildcard_text w
    simp [Term.text, h]

theorem trimCopy_text (t : Term) : trimCopy t.text = t.text :=
  trimCopy_of_unspaced fun _ ha => (plain_of_mem_text ha).unspaced

theorem operator_not_front (hd : d.isDigit = true ∨ isWildcard d = true) (op : Operator) :
    op.text.isPrefixOf (d :: rest) = false := by
  have hne : d ≠ '>' ∧ d ≠ '<' ∧ d ≠ '=' ∧ d ≠ '^' ∧ d ≠ '~' := by
    refine ⟨?_, ?_, ?_, ?_, ?_⟩
    all_goals
      rintro rfl
      rcases hd with hd | hd
      all_goals exact absurd hd (by decide)
  cases op <;> simp [Operator.text, List.isPrefixOf, hne.1.symm, hne.2.1.symm, hne.2.2.1.symm,
    hne.2.2.2.1.symm, hne.2.2.2.2.symm]

theorem splitOperator_none (hd : d.isDigit = true ∨ isWildcard d = true) :
    splitOperator (d :: rest) = (none, d :: rest) := by
  have hnone : [Operator.atLeast, .atMost, .above, .below, .equal, .caret, .tilde].find?
      (fun op => op.text.isPrefixOf (d :: rest)) = none :=
    find?_eq_none.2 fun op _ => by rw [operator_not_front hd]; exact Bool.false_ne_true
  rw [splitOperator, hnone]

theorem splitOperator_text (c : Comparison) : splitOperator c.text = (c.operator, c.versionText) := by
  obtain ⟨d, rest, hversion, hd⟩ := Comparison.versionText_eq_cons c
  rw [Comparison.text]
  cases hop : c.operator with
  | none =>
    rw [Option.map_none, Option.getD_none, nil_append, hversion]
    exact splitOperator_none (.inl hd)
  | some op =>
    have hequal : ('=' == d) = false := by
      rw [beq_eq_false_iff_ne]
      rintro rfl
      exact absurd hd (by decide)
    have hfound : [Operator.atLeast, .atMost, .above, .below, .equal, .caret, .tilde].find?
        (fun op' => op'.text.isPrefixOf (op.text ++ c.versionText)) = some op := by
      rw [hversion]
      cases op <;> simp [Operator.text, List.isPrefixOf, List.find?, hequal]
    rw [Option.map_some, Option.getD_some, splitOperator, hfound]
    dsimp only
    rw [drop_left, Comparison.trimCopy_versionText]

theorem wildcard_head (w : Wildcard) : ∃ d rest, w.text = d :: rest ∧
    (d.isDigit = true ∨ isWildcard d = true) := by
  obtain ⟨mark, rest, htext, hmark⟩ := wildcard_text w
  cases hnumbers : w.numbers with
  | nil => exact ⟨mark, rest, by rw [htext, hnumbers]; rfl, .inr hmark⟩
  | cons n ns =>
    have hcanonical := canonical_toDigits n
    cases hdigits : Nat.toDigits 10 n with
    | nil => exact absurd hdigits hcanonical.ne_nil
    | cons d ds =>
      have hd : d.isDigit = true := (digits_cons.1 (hdigits ▸ hcanonical.digits)).1
      exact ⟨d, _, by rw [htext, hnumbers, written, flatMap_cons, hdigits]; rfl, .inl hd⟩

theorem dash_notMem_wildcard (w : Wildcard) : '-' ∉ w.text := by
  intro h
  rcases mem_dotted h with h | ⟨part, hpart, ha⟩
  · exact absurd h (by decide)
  · rcases mem_append.1 hpart with hpart | hpart
    · obtain ⟨n, -, rfl⟩ := mem_map.1 hpart
      exact absurd (all_eq_true.1 (canonical_toDigits n).digits '-' ha) (by decide)
    · obtain ⟨mark, hmem, rfl⟩ := mem_map.1 hpart
      have hwild := w.marks_wild mark hmem
      rw [← mem_singleton.1 ha] at hwild
      exact absurd hwild (by decide)

theorem satisfiesOne_wildcard (hversion : WellRead version) (w : Wildcard) :
    semanticVersionSatisfiesOne version w.text = true ↔ version.prerelease = [] ∧
    Keeps version w.numbers := by
  obtain ⟨mark, tail, htext, hmark⟩ := wildcard_text w
  have htrim : trimCopy w.text = w.text := trimCopy_text (.wildcard w)
  rw [semanticVersionSatisfiesOne, htrim]
  dsimp only
  by_cases hsingle : w.text = [] ∨ w.text = ['*'] ∨ w.text = ['x'] ∨ w.text = ['X']
  · have hlength : w.text.length ≤ 1 := by
      rcases hsingle with h | h | h | h
      all_goals simp [h]
    have hnumbers : w.numbers = [] := by
      cases hnumbers : w.numbers with
      | nil => rfl
      | cons n ns =>
        rw [htext, hnumbers] at hlength
        simp only [written, flatMap_cons, length_append, length_cons] at hlength
        omega
    rw [if_pos hsingle, List.isEmpty_iff, hnumbers]
    simp [Keeps]
  · rw [if_neg hsingle]
    by_cases hpre : version.prerelease = []
    · obtain ⟨d, rest, hhead, hd⟩ := wildcard_head w
      have hlength : w.numbers.length ≤ 2 := by
        have hmarks := length_pos_iff.2 w.marks_ne_nil
        have hle := w.length_le
        omega
      have hsplit : splitOperator w.text = (none, w.text) := by
        rw [hhead]
        exact splitOperator_none hd
      have hany : w.text.any isWildcard = true := by
        rw [htext]
        simp [hmark]
      rw [if_neg fun h => h.1 hpre, hsplit]
      dsimp only
      rw [if_pos hany, takeWhile_wildcard, isPrefixOf_iff_prefix,
        written_prefix_iff hversion hlength, and_iff_right hpre]
    · rw [if_pos ⟨hpre, dash_notMem_wildcard w⟩]
      simp [hpre]

theorem mem_dotted_of_mem {parts : List Text} (hpart : part ∈ parts) (ha : a ∈ part) : a ∈ dotted parts := by
  induction parts with
  | nil => cases hpart
  | cons first rest ih =>
    by_cases hrest : rest = []
    · subst hrest
      obtain rfl := mem_singleton.1 hpart
      simpa [dotted] using ha
    · rw [dotted_cons_of_ne_nil hrest, mem_append, mem_cons]
      rcases mem_cons.1 hpart with rfl | hpart
      · exact .inl ha
      · exact .inr (.inr (ih hpart))

theorem any_isWildcard_versionText (c : Comparison) : c.versionText.any isWildcard = true ↔
    ∃ part ∈ c.tag, part.any isWildcard = true := by
  rw [any_eq_true]
  constructor
  · rintro ⟨a, ha, hwild⟩
    rw [Comparison.versionText, mem_append] at ha
    rcases ha with ha | ha
    · rw [isWildcard_of_digit (digit_of_mem_numbers ha)] at hwild
      cases hwild
    · split_ifs at ha with htag
      · cases ha
      · rcases mem_cons.1 ha with rfl | ha
        · exact absurd hwild (by decide)
        · rcases mem_dotted ha with rfl | ⟨part, hpart, ha⟩
          · exact absurd hwild (by decide)
          · exact ⟨part, hpart, any_eq_true.2 ⟨a, ha, hwild⟩⟩
  · rintro ⟨part, hpart, hany⟩
    obtain ⟨a, ha, hwild⟩ := any_eq_true.1 hany
    refine ⟨a, ?_, hwild⟩
    rw [Comparison.versionText, if_neg (ne_nil_of_mem hpart), mem_append]
    exact .inr (mem_cons_of_mem _ (mem_dotted_of_mem hpart ha))

theorem dash_notMem_renderedVersion (hversion : WellRead version) : '-' ∉ renderedVersion version := by
  have hdigits : ∀ n : Nat, '-' ∉ Nat.toDigits 10 n := fun n h =>
    absurd (all_eq_true.1 (canonical_toDigits n).digits '-' h) (by decide)
  rw [renderedVersion_eq hversion]
  simp [hdigits]

theorem not_prefix_of_tag (hversion : WellRead version) (c : Comparison) (htag : c.tag ≠ []) :
    (c.versionText.takeWhile fun a => !isWildcard a).isPrefixOf (renderedVersion version) = false := by
  rw [Bool.eq_false_iff]
  intro hstarts
  have hdash : '-' ∈ c.versionText.takeWhile fun a => !isWildcard a := by
    rw [Comparison.versionText, if_neg htag, takeWhile_append_of_pos fun a ha => by
      rw [isWildcard_of_digit (digit_of_mem_numbers ha)]; rfl]
    rw [takeWhile_cons_of_pos (by decide)]
    simp
  exact dash_notMem_renderedVersion hversion ((List.isPrefixOf_iff_prefix.1 hstarts).subset hdash)

theorem comparison_head (c : Comparison) : ∃ d rest, c.text = d :: rest ∧ isWildcard d = false := by
  obtain ⟨d, rest, hversion, hd⟩ := Comparison.versionText_eq_cons c
  rw [Comparison.text, hversion]
  cases c.operator with
  | none => exact ⟨d, rest, rfl, isWildcard_of_digit (.inr hd)⟩
  | some op => cases op <;> exact ⟨_, _, rfl, by decide⟩

theorem dash_mem_text (c : Comparison) : '-' ∈ c.text ↔ c.tag ≠ [] := by
  rw [← Comparison.dash_mem_versionText, Comparison.text, mem_append, or_iff_right]
  cases c.operator with
  | none => exact not_mem_nil
  | some op => cases op <;> decide

theorem satisfiesOne_comparison (hversion : WellRead version) (c : Comparison) :
    semanticVersionSatisfiesOne version c.text = true ↔ ¬ (Term.comparison c).Misread ∧
    ((Term.comparison c).Admits version ∨ (Term.comparison c).Overshoots version) := by
  have htrim : trimCopy c.text = c.text := trimCopy_text (.comparison c)
  have hsingle : ¬ (c.text = [] ∨ c.text = ['*'] ∨ c.text = ['x'] ∨ c.text = ['X']) := by
    obtain ⟨d, rest, htext, hd⟩ := comparison_head c
    rw [htext]
    rintro (h | h | h | h)
    · cases h
    all_goals
      obtain rfl := (List.cons.inj h).1
      exact absurd hd (by decide)
  rw [semanticVersionSatisfiesOne, htrim]
  dsimp only
  rw [if_neg hsingle]
  by_cases hpre : version.prerelease ≠ [] → c.tag ≠ []
  · rw [if_neg fun h => h.2 ((dash_mem_text c).2 (hpre h.1)), splitOperator_text]
    dsimp only
    by_cases hany : ∃ part ∈ c.tag, part.any isWildcard = true
    · obtain ⟨part, hpart, -⟩ := id hany
      rw [if_pos ((any_isWildcard_versionText c).2 hany),
        not_prefix_of_tag hversion c (ne_nil_of_mem hpart)]
      exact iff_of_false Bool.false_ne_true fun h => h.1 (.inl hany)
    · rw [if_neg fun h => hany ((any_isWildcard_versionText c).1 h), Comparison.parse_versionText]
      by_cases hlarge : ∃ n ∈ c.numbers, intMax < (n : Int)
      · rw [if_pos hlarge]
        exact iff_of_false Bool.false_ne_true fun h => h.1 (.inr (.inl hlarge))
      · rw [if_neg hlarge]
        by_cases hcount : ∃ n, c.counted = some n ∧ (n : Int) = intMax
        · dsimp only
          rw [satisfiesOperator_overflow c hversion hcount]
          exact iff_of_false Bool.false_ne_true fun h => h.1 (.inr (.inr hcount))
        · have hread : ¬ (Term.comparison c).Misread := by
            rintro (h | h | h)
            · exact hany h
            · exact hlarge h
            · exact hcount h
          rw [and_iff_right hread]
          refine (satisfiesOperator_iff c hversion (fun n hn h => hcount ⟨n, hn, h⟩) hpre).trans ?_
          exact or_congr_left (and_iff_right hpre).symm
  · have hnames := Classical.not_imp.1 hpre
    have htag : c.tag = [] := not_not.1 hnames.2
    rw [if_pos ⟨hnames.1, fun h => hnames.2 ((dash_mem_text c).1 h)⟩]
    refine iff_of_false Bool.false_ne_true ?_
    rintro ⟨-, h | h⟩
    · exact hpre h.1
    · exact h.1 htag

end Mlang.RequirementTerms
