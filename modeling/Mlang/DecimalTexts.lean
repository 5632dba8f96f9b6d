import Mathlib

namespace Mlang.DecimalTexts

open List

abbrev Digits (s : List Char) : Prop := s.all Char.isDigit = true

def value (s : List Char) : Nat := Nat.ofDigitChars 10 s 0

def digit (c : Char) : Nat := c.toNat - '0'.toNat

/-- No zero in front, but for the text `0` itself. -/
structure Canonical (s : List Char) : Prop where
  digits : Digits s
  ne_nil : s ≠ []
  head : 1 < s.length → s.head? ≠ some '0'

theorem value_cons (c : Char) (s : List Char) : value (c :: s) = digit c * 10 ^ s.length + value s := by
  rw [value, Nat.ofDigitChars_cons, Nat.ofDigitChars_eq_ofDigitChars_zero, value, digit]
  ring

variable {c d : Char} {s t : List Char} {n : Nat}

theorem isDigit_iff : c.isDigit = true ↔ '0'.toNat ≤ c.toNat ∧ c.toNat ≤ '9'.toNat := by
  rw [Char.isDigit, Bool.and_eq_true, decide_eq_true_iff, decide_eq_true_iff]
  exact Iff.rfl

theorem toNat_of_isAlphanum (h : c.isAlphanum = true) : 48 ≤ c.toNat ∧ c.toNat ≤ 122 := by
  have htoNat : c.val.toNat = c.toNat := rfl
  simp only [Char.isAlphanum, Char.isAlpha, Char.isUpper, Char.isLower, Char.isDigit,
    Bool.or_eq_true, Bool.and_eq_true, decide_eq_true_eq, ge_iff_le, UInt32.le_iff_toNat_le,
    htoNat] at h
  rcases h with (⟨hlow, hhigh⟩ | ⟨hlow, hhigh⟩) | ⟨hlow, hhigh⟩
  · exact ⟨le_trans (by decide) hlow, le_trans hhigh (by decide)⟩
  · exact ⟨le_trans (by decide) hlow, le_trans hhigh (by decide)⟩
  · exact ⟨le_trans (by decide) hlow, le_trans hhigh (by decide)⟩

theorem digit_lt_ten (h : c.isDigit = true) : digit c < 10 := by
  have hbounds := isDigit_iff.1 h
  have hzero : '0'.toNat = 48 := rfl
  have hnine : '9'.toNat = 57 := rfl
  rw [digit]
  omega

theorem digit_lt_digit (hc : c.isDigit = true) (hd : d.isDigit = true) : digit c < digit d ↔ c < d := by
  have hc' := isDigit_iff.1 hc
  have hd' := isDigit_iff.1 hd
  have hlt : c < d ↔ c.toNat < d.toNat := Iff.rfl
  rw [hlt, digit, digit]
  omega

theorem digit_inj (hc : c.isDigit = true) (hd : d.isDigit = true) (h : digit c = digit d) : c = d := by
  have hc' := isDigit_iff.1 hc
  have hd' := isDigit_iff.1 hd
  refine Char.toNat_inj.1 ?_
  rw [digit, digit] at h
  omega

theorem digits_cons : Digits (c :: s) ↔ c.isDigit = true ∧ Digits s := by
  rw [Digits, all_cons, Bool.and_eq_true]

theorem value_lt_pow (h : Digits s) : value s < 10 ^ s.length := by
  induction s with
  | nil => exact Nat.zero_lt_one
  | cons c s ih =>
    obtain ⟨hc, hs⟩ := digits_cons.1 h
    have hdigit := digit_lt_ten hc
    have hrest := ih hs
    rw [value_cons, length_cons, Nat.pow_succ]
    calc
      digit c * 10 ^ s.length + value s < digit c * 10 ^ s.length + 10 ^ s.length :=
        Nat.add_lt_add_left hrest _
      _ = (digit c + 1) * 10 ^ s.length := by ring
      _ ≤ 10 * 10 ^ s.length := Nat.mul_le_mul_right _ hdigit
      _ = 10 ^ s.length * 10 := Nat.mul_comm _ _

theorem pow_le_value (hc : c.isDigit = true) (hne : c ≠ '0') : 10 ^ s.length ≤ value (c :: s) := by
  have hpos : 1 ≤ digit c := by
    rcases Nat.eq_zero_or_pos (digit c) with hzero | hpos
    · have hsame : digit c = digit '0' := hzero
      exact absurd (digit_inj hc rfl hsame) hne
    · exact hpos
  rw [value_cons]
  calc
    10 ^ s.length = 1 * 10 ^ s.length := (Nat.one_mul _).symm
    _ ≤ digit c * 10 ^ s.length := Nat.mul_le_mul_right _ hpos
    _ ≤ digit c * 10 ^ s.length + value s := Nat.le_add_right _ _

theorem value_lt_of_length_eq (hs : Digits s) (ht : Digits t) (hlength : s.length = t.length) :
    value s < value t ↔ s < t := by
  induction s generalizing t with
  | nil =>
    obtain rfl := List.length_eq_zero_iff.1 hlength.symm
    simp
  | cons c s ih =>
    cases t with
    | nil => cases hlength
    | cons d t =>
      obtain ⟨hc, hs⟩ := digits_cons.1 hs
      obtain ⟨hd, ht⟩ := digits_cons.1 ht
      have hlength : s.length = t.length := Nat.succ.inj hlength
      have hslt := value_lt_pow hs
      have htlt := value_lt_pow ht
      rw [hlength] at hslt
      rw [cons_lt_cons_iff, ← ih hs ht hlength, ← digit_lt_digit hc hd, value_cons, value_cons, hlength]
      constructor
      · intro hlt
        rcases Nat.lt_trichotomy (digit c) (digit d) with h | h | h
        · exact .inl h
        · rw [h] at hlt
          exact .inr ⟨digit_inj hc hd h, Nat.lt_of_add_lt_add_left hlt⟩
        · have hmul := Nat.mul_le_mul_right (10 ^ t.length) (Nat.succ_le_of_lt h)
          rw [Nat.succ_mul] at hmul
          omega
      · rintro (h | ⟨rfl, h⟩)
        · have hmul := Nat.mul_le_mul_right (10 ^ t.length) (Nat.succ_le_of_lt h)
          rw [Nat.succ_mul] at hmul
          omega
        · exact Nat.add_lt_add_left h _

theorem value_lt_of_length_lt (hs : Digits s) (ht : Canonical t) (hlength : s.length < t.length)
    (hne : s ≠ []) : value s < value t := by
  have hlong : 1 < t.length := by
    have := List.length_pos_iff.2 hne
    omega
  cases t with
  | nil => exact absurd rfl ht.ne_nil
  | cons d t =>
    have hhead : d ≠ '0' := fun h => ht.head hlong (h ▸ rfl)
    have hd := (digits_cons.1 ht.digits).1
    calc
      value s < 10 ^ s.length := value_lt_pow hs
      _ ≤ 10 ^ t.length := Nat.pow_le_pow_right (by decide) (Nat.le_of_lt_succ hlength)
      _ ≤ value (d :: t) := pow_le_value hd hhead

theorem value_lt_iff (hs : Canonical s) (ht : Canonical t) :
    value s < value t ↔ s.length < t.length ∨ (s.length = t.length ∧ s < t) := by
  rcases Nat.lt_trichotomy s.length t.length with h | h | h
  · exact iff_of_true (value_lt_of_length_lt hs.digits ht h hs.ne_nil) (.inl h)
  · rw [value_lt_of_length_eq hs.digits ht.digits h]
    constructor
    · exact fun hlt => .inr ⟨h, hlt⟩
    · rintro (hlt | hlt)
      · omega
      · exact hlt.2
  · have hgt := value_lt_of_length_lt ht.digits hs h ht.ne_nil
    constructor
    · intro hlt
      omega
    · intro hlt
      omega

theorem head_toDigits (hn : n ≠ 0) : (Nat.toDigits 10 n).head? ≠ some '0' := by
  induction n using Nat.strongRecOn with
  | ind n ih =>
    rw [Nat.toDigits_eq_if (by decide)]
    by_cases hlt : n < 10
    · rw [if_pos hlt]
      intro hhead
      exact hn (Nat.digitChar_eq_zero.1 (Option.some.inj hhead))
    · rw [if_neg hlt, head?_append_of_ne_nil _ Nat.toDigits_ne_nil]
      exact ih (n / 10) (by omega) (by omega)

theorem canonical_toDigits (n : Nat) : Canonical (Nat.toDigits 10 n) where
  digits := List.all_eq_true.2 fun c hc =>
    Nat.isDigit_of_mem_toDigits (by decide) (by decide) hc
  ne_nil := Nat.toDigits_ne_nil
  head := by
    intro hlong
    refine head_toDigits fun hzero => ?_
    rw [hzero] at hlong
    exact absurd hlong (by decide)

@[simp]
theorem value_toDigits (n : Nat) : value (Nat.toDigits 10 n) = n := Nat.ofDigitChars_ten_toDigits

theorem notMem_toDigits (hc : c.isDigit = false) (n : Nat) : c ∉ Nat.toDigits 10 n := by
  intro hmem
  rw [Nat.isDigit_of_mem_toDigits (by decide) (by decide) hmem] at hc
  exact nomatch hc

theorem toDigits_inj {m : Nat} (h : Nat.toDigits 10 m = Nat.toDigits 10 n) : m = n := by
  rw [← value_toDigits m, h, value_toDigits]

theorem append_cons_inj {α : Type} {c : α} {n n' r r' : List α} (h : c ∉ n) (h' : c ∉ n')
    (heq : n ++ c :: r = n' ++ c :: r') : n = n' ∧ r = r' := by
  induction n generalizing n' with
  | nil =>
    cases n' with
    | nil => exact ⟨rfl, (List.cons.inj heq).2⟩
    | cons a n' => exact absurd ((List.cons.inj heq).1 ▸ mem_cons_self) h'
  | cons a n ih =>
    rw [mem_cons, not_or] at h
    cases n' with
    | nil => exact absurd (List.cons.inj heq).1.symm h.1
    | cons a' n' =>
      rw [mem_cons, not_or] at h'
      obtain ⟨rfl, hrest⟩ := List.cons.inj heq
      obtain ⟨rfl, hr⟩ := ih h.2 h'.2 hrest
      exact ⟨rfl, hr⟩

end Mlang.DecimalTexts
