import Mlang.TomlText

namespace Mlang.SqueezedTexts

open BracketedText (Text Tight isSpace trimCopy)
open TomlText List

def squeeze (value : Text) : Text := trimCopy (collapseBlanks false value)

def lineBlank (c : Char) : Bool := c = '\t' || c = '\n' || c = '\r'

/-- Neither two blanks in a row, nor any but a space; with a flag, none in front either. -/
def Collapsed : Bool → Text → Prop
  | _, [] => True
  | afterSpace, c :: rest =>
    lineBlank c = false ∧ ¬ (afterSpace = true ∧ c = ' ') ∧ Collapsed (c = ' ') rest

theorem collapseBlanks_length (afterSpace : Bool) (s : Text) :
    (collapseBlanks afterSpace s).length ≤ s.length := by
  induction s generalizing afterSpace with
  | nil => exact le_refl _
  | cons c s ih =>
    rw [collapseBlanks]
    split_ifs
    · exact le_trans (ih true) (Nat.le_succ _)
    · exact Nat.succ_le_succ (ih true)
    · exact Nat.succ_le_succ (ih false)

theorem collapsed_collapseBlanks (afterSpace : Bool) (s : Text) :
    Collapsed afterSpace (collapseBlanks afterSpace s) := by
  induction s generalizing afterSpace with
  | nil => trivial
  | cons c s ih =>
    rw [collapseBlanks]
    split_ifs with hblank hafter
    · exact hafter ▸ ih true
    · exact ⟨rfl, fun h => hafter h.1, ih true⟩
    · refine ⟨?_, fun h => hblank (.inr (.inr (.inl h.2))), ?_⟩
      · rw [Bool.eq_false_iff]
        intro hline
        simp only [lineBlank, Bool.or_eq_true, decide_eq_true_eq] at hline
        tauto
      · have hspace : decide (c = ' ') = false :=
          decide_eq_false fun h => hblank (.inr (.inr (.inl h)))
        rw [hspace]
        exact ih false

variable {afterSpace : Bool} {s : Text}

theorem collapseBlanks_of_collapsed (h : Collapsed afterSpace s) : collapseBlanks afterSpace s = s := by
  induction s generalizing afterSpace with
  | nil => rfl
  | cons c s ih =>
    obtain ⟨hline, hspace, hrest⟩ := h
    rw [collapseBlanks]
    by_cases hc : c = ' '
    · subst hc
      have hafter : ¬ afterSpace = true := fun h => hspace ⟨h, rfl⟩
      rw [if_pos (by simp), if_neg hafter]
      exact congrArg (' ' :: ·) (ih hrest)
    · have hblank : ¬ (c = '\n' ∨ c = '\r' ∨ c = ' ' ∨ c = '\t') := by
        rintro (rfl | rfl | rfl | rfl)
        · exact absurd hline (by decide)
        · exact absurd hline (by decide)
        · exact hc rfl
        · exact absurd hline (by decide)
      have hspace : decide (c = ' ') = false := decide_eq_false hc
      rw [hspace] at hrest
      rw [if_neg hblank, ih hrest]

theorem Collapsed.of_suffix (t : Text) (h : Collapsed afterSpace (t ++ s)) :
    ∃ afterSpace', Collapsed afterSpace' s := by
  induction t generalizing afterSpace with
  | nil => exact ⟨afterSpace, h⟩
  | cons c t ih => exact ih h.2.2

theorem Collapsed.of_prefix (t : Text) (h : Collapsed afterSpace (s ++ t)) : Collapsed afterSpace s := by
  induction s generalizing afterSpace with
  | nil => trivial
  | cons c s ih => exact ⟨h.1, h.2.1, ih h.2.2⟩

theorem Collapsed.of_false (h : Collapsed afterSpace s) : Collapsed false s := by
  cases s with
  | nil => trivial
  | cons c s => exact ⟨h.1, fun h => Bool.false_ne_true h.1, h.2.2⟩

structure Squeezed (s : Text) : Prop where
  collapsed : Collapsed false s
  head : ∀ c, s.head? = some c → isSpace c = false
  last : ∀ c, s.getLast? = some c → isSpace c = false

variable {word : Text} {c : Char}

theorem trimCopy_of_ends (head : ∀ c, s.head? = some c → isSpace c = false)
    (last : ∀ c, s.getLast? = some c → isSpace c = false) : trimCopy s = s := by
  cases s with
  | nil => rfl
  | cons c s => exact Tight.trimCopy ⟨cons_ne_nil _ _, head, last⟩

theorem trimCopy_infix (s : Text) : ∃ front back, s = front ++ trimCopy s ++ back :=
  ⟨s.takeWhile isSpace, (s.dropWhile isSpace).rtakeWhile isSpace, by
    rw [trimCopy, append_assoc, rdropWhile_append_rtakeWhile, takeWhile_append_dropWhile]⟩

theorem head_trimCopy (h : (trimCopy s).head? = some c) : isSpace c = false := by
  obtain ⟨back, hback⟩ := rdropWhile_prefix (p := isSpace) (l := s.dropWhile isSpace)
  have hhead : (s.dropWhile isSpace).head? = some c := by
    rw [← hback, head?_append, show (s.dropWhile isSpace).rdropWhile isSpace = trimCopy s from rfl,
      h, Option.some_or]
  have hnot := head?_dropWhile_not isSpace s
  rw [hhead] at hnot
  exact hnot

theorem last_trimCopy (h : (trimCopy s).getLast? = some c) : isSpace c = false := by
  have hne : trimCopy s ≠ [] := by
    intro hempty
    rw [hempty] at h
    cases h
  have hlast := rdropWhile_last_not (p := isSpace) (l := s.dropWhile isSpace) hne
  rw [getLast?_eq_some_getLast hne] at h
  rw [Bool.eq_false_iff]
  exact Option.some.inj h ▸ hlast

theorem squeezed_squeeze (value : Text) : Squeezed (squeeze value) where
  collapsed := by
    obtain ⟨front, back, h⟩ := trimCopy_infix (collapseBlanks false value)
    have hall := collapsed_collapseBlanks false value
    rw [h] at hall
    obtain ⟨afterSpace, hsuffix⟩ := Collapsed.of_suffix front (append_assoc _ _ _ ▸ hall)
    exact (Collapsed.of_prefix back hsuffix).of_false
  head := fun _ h => head_trimCopy h
  last := fun _ h => last_trimCopy h

theorem squeeze_eq_self_iff {value : Text} : squeeze value = value ↔ Squeezed value := by
  constructor
  · intro h
    exact h ▸ squeezed_squeeze value
  · intro h
    rw [squeeze, collapseBlanks_of_collapsed h.collapsed, trimCopy_of_ends h.head h.last]

theorem collapseBlanks_append (hne : word ≠ []) (hword : ∀ c ∈ word, isSpace c = false) (afterSpace : Bool) :
    collapseBlanks afterSpace (word ++ s) = word ++ collapseBlanks false s := by
  induction word generalizing afterSpace with
  | nil => exact absurd rfl hne
  | cons c word ih =>
    obtain ⟨hc, hword⟩ := List.forall_mem_cons.1 hword
    have hblank : ¬ (c = '\n' ∨ c = '\r' ∨ c = ' ' ∨ c = '\t') := by
      rintro (rfl | rfl | rfl | rfl)
      all_goals exact absurd hc (by decide)
    rw [cons_append, collapseBlanks, if_neg hblank]
    cases word with
    | nil => rfl
    | cons d word => exact congrArg (c :: ·) (ih (cons_ne_nil _ _) hword false)

theorem prefix_squeeze (hne : word ≠ []) (hword : ∀ c ∈ word, isSpace c = false) (s : Text) :
    word <+: squeeze (word ++ s) := by
  have hdrop : ∀ t : Text, (word ++ t).dropWhile isSpace = word ++ t := by
    intro t
    obtain ⟨c, rest, rfl⟩ := exists_cons_of_ne_nil hne
    exact dropWhile_cons_of_neg (by simp [hword c mem_cons_self])
  rw [squeeze, collapseBlanks_append hne hword, trimCopy, hdrop]
  induction collapseBlanks false s using List.reverseRecOn with
  | nil =>
    have hself : word.rdropWhile isSpace = word :=
      List.rdropWhile_eq_self_iff.2 fun h => by simp [hword _ (getLast_mem h)]
    exact ⟨[], by rw [append_nil, hself]⟩
  | append_singleton t c ih =>
    rw [← append_assoc]
    by_cases hc : isSpace c = true
    · rwa [rdropWhile_concat_pos _ _ _ hc]
    · rw [rdropWhile_concat_neg _ _ _ hc, append_assoc]
      exact prefix_append _ _

end Mlang.SqueezedTexts
