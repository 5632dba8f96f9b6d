import Mlang.DecimalTexts
import Mlang.SemanticVersions

namespace Mlang.VersionPrecedence

open BracketedText (Text)
open SemanticVersions List

section Order

variable {α β : Type} [LinearOrder α] [LinearOrder β]
variable {a : α} {o : Ordering}

theorem compares_lex {b : α} {x y : β} (h : a = b → o.Compares x y) :
    (if a ≠ b then (if a < b then .lt else .gt) else o).Compares (toLex (a, x)) (toLex (b, y)) := by
  by_cases hne : a ≠ b
  · rw [if_pos hne]
    rcases lt_or_gt_of_ne hne with hlt | hgt
    · rw [if_pos hlt]
      exact Prod.Lex.toLex_lt_toLex.2 (.inl hlt)
    · rw [if_neg (not_lt_of_gt hgt)]
      exact Prod.Lex.toLex_lt_toLex.2 (.inl hgt)
  · rw [if_neg hne]
    obtain rfl := not_not.1 hne
    have h := h rfl
    cases o with
    | lt => exact Prod.Lex.toLex_lt_toLex.2 (.inr ⟨rfl, h⟩)
    | eq => exact congrArg (fun x => toLex (a, x)) h
    | gt => exact Prod.Lex.toLex_lt_toLex.2 (.inr ⟨rfl, h⟩)

theorem compares_cons {s t : List α} (h : o.Compares s t) : o.Compares (a :: s) (a :: t) := by
  cases o with
  | lt => exact cons_lt_cons_iff.2 (.inr ⟨rfl, h⟩)
  | eq => exact congrArg (a :: ·) h
  | gt => exact cons_lt_cons_iff.2 (.inr ⟨rfl, h⟩)

theorem compares_withTop {s t : α} (h : o.Compares s t) : o.Compares (s : WithTop α) (t : WithTop α) := by
  cases o with
  | lt => exact WithTop.coe_lt_coe.2 h
  | eq => exact congrArg _ h
  | gt => exact WithTop.coe_lt_coe.2 h

end Order

abbrev Identifier := ℕ ⊕ₗ Text

def identifier (part : Text) : Identifier :=
  if allDigits part then toLex (.inl (DecimalTexts.value part)) else toLex (.inr part)

def tag (prerelease : List Text) : WithTop (List Identifier) :=
  if prerelease = [] then ⊤ else (prerelease.map identifier : List Identifier)

abbrev Precedence := ℤ ×ₗ ℤ ×ₗ ℤ ×ₗ WithTop (List Identifier)

def precedence (version : SemanticVersion) : Precedence :=
  toLex (version.major, toLex (version.minor, toLex (version.patch, tag version.prerelease)))

def Valid (version : SemanticVersion) : Prop :=
  ∀ part ∈ version.prerelease, validIdentifier part = true

variable {part : Text} {lhs rhs : List Text}

theorem canonical_of_valid (hvalid : validIdentifier part = true) (hdigits : allDigits part = true) :
    DecimalTexts.Canonical part where
  digits := hdigits
  ne_nil := by
    rintro rfl
    simp [validIdentifier] at hvalid
  head := by
    intro hlong hzero
    simp [validIdentifier, leadingZero, hdigits, hlong, hzero] at hvalid

theorem normalizedNumber_of_canonical (h : DecimalTexts.Canonical part) : normalizedNumber part = part := by
  cases part with
  | nil => exact absurd rfl h.ne_nil
  | cons c rest =>
    by_cases hzero : c = '0'
    · have hrest : rest = [] := by
        by_contra hne
        exact h.head (by simpa using length_pos_iff.2 hne) (hzero ▸ rfl)
      subst hzero hrest
      rfl
    · have hdrop : (c :: rest).dropWhile (· = '0') = c :: rest :=
        dropWhile_cons_of_neg (by simpa using hzero)
      rw [normalizedNumber, hdrop, if_neg (cons_ne_nil _ _)]

theorem compareIdentifiers_decides {a b : Text} (ha : validIdentifier a = true)
    (hb : validIdentifier b = true) (hne : a ≠ b) :
    (compareIdentifiers a b = .lt ∧ identifier a < identifier b) ∨
      (compareIdentifiers a b = .gt ∧ identifier b < identifier a) := by
  rw [compareIdentifiers, identifier, identifier]
  cases hda : allDigits a with
  | true =>
    cases hdb : allDigits b with
    | true =>
      have hca := canonical_of_valid ha hda
      have hcb := canonical_of_valid hb hdb
      rw [normalizedNumber_of_canonical hca, normalizedNumber_of_canonical hcb]
      simp only [Bool.and_self, if_true, Sum.Lex.inl_lt_inl_iff,
        DecimalTexts.value_lt_iff hca hcb, DecimalTexts.value_lt_iff hcb hca]
      rcases Nat.lt_trichotomy a.length b.length with h | h | h
      · exact .inl ⟨by simp [Nat.ne_of_lt h, h], .inl h⟩
      · rcases lt_or_gt_of_ne hne with hlt | hgt
        · exact .inl ⟨by simp [h, hlt], .inr ⟨h, hlt⟩⟩
        · exact .inr ⟨by simp [h, lt_asymm hgt], .inr ⟨h.symm, hgt⟩⟩
      · exact .inr ⟨by simp [Nat.ne_of_gt h, Nat.lt_asymm h], .inl h⟩
    | false => exact .inl ⟨by simp, Sum.Lex.inl_lt_inr _ _⟩
  | false =>
    cases hdb : allDigits b with
    | true => exact .inr ⟨by simp, Sum.Lex.inl_lt_inr _ _⟩
    | false =>
      simp only [Bool.and_self, if_false, Sum.Lex.inr_lt_inr_iff, Bool.false_eq_true]
      rcases lt_or_gt_of_ne hne with hlt | hgt
      · exact .inl ⟨by simp [hlt], hlt⟩
      · exact .inr ⟨by simp [lt_asymm hgt], hgt⟩

theorem comparePrereleases_compares (hl : ∀ part ∈ lhs, validIdentifier part = true)
    (hr : ∀ part ∈ rhs, validIdentifier part = true) :
    (comparePrereleases lhs rhs).Compares (lhs.map identifier) (rhs.map identifier) := by
  induction lhs generalizing rhs with
  | nil =>
    cases rhs with
    | nil => exact rfl
    | cons b rhs => exact nil_lt_cons _ _
  | cons a lhs ih =>
    cases rhs with
    | nil => exact nil_lt_cons _ _
    | cons b rhs =>
      obtain ⟨ha, hl⟩ := forall_mem_cons.1 hl
      obtain ⟨hb, hr⟩ := forall_mem_cons.1 hr
      rw [comparePrereleases]
      by_cases hab : a = b
      · rw [if_pos hab, hab]
        exact compares_cons (ih hl hr)
      · rw [if_neg hab]
        rcases compareIdentifiers_decides ha hb hab with ⟨ho, hlt⟩ | ⟨ho, hgt⟩
        · rw [ho]
          exact cons_lt_cons_iff.2 (.inl hlt)
        · rw [ho]
          exact cons_lt_cons_iff.2 (.inl hgt)

theorem compareTags_compares (hl : ∀ part ∈ lhs, validIdentifier part = true)
    (hr : ∀ part ∈ rhs, validIdentifier part = true) :
    (if lhs.isEmpty ≠ rhs.isEmpty then (if lhs.isEmpty then .gt else .lt) else comparePrereleases lhs rhs :
      Ordering).Compares (tag lhs) (tag rhs) := by
  cases lhs with
  | nil =>
    cases rhs with
    | nil => exact rfl
    | cons b rhs => exact WithTop.coe_lt_top _
  | cons a lhs =>
    cases rhs with
    | nil => exact WithTop.coe_lt_top _
    | cons b rhs => exact compares_withTop (comparePrereleases_compares hl hr)

theorem compareSemanticVersions_compares {lhs rhs : SemanticVersion} (hl : Valid lhs) (hr : Valid rhs) :
    (compareSemanticVersions lhs rhs).Compares (precedence lhs) (precedence rhs) :=
  compares_lex fun _ => compares_lex fun _ => compares_lex fun _ => compareTags_compares hl hr

end Mlang.VersionPrecedence
