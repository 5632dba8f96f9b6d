import Mathlib

namespace Mlang.Replacements

open List


variable {α : Type}
variable {s : List α}

section Needles

def Unfinished (needles : List (List α)) (p : List α) : Prop :=
  p ≠ [] ∧ ∃ n ∈ needles, p <+: n ∧ p ≠ n

def EndsUnfinished (needles : List (List α)) (s : List α) : Prop :=
  ∃ p ∈ s.tails, Unfinished needles p

def Seamless (needles : List (List α)) (s : List α) : Prop :=
  ∀ k ∈ List.range (s.length + 1), (∃ n ∈ needles, n <+: s.drop k) →
    ¬ EndsUnfinished needles (s.take k)

instance [DecidableEq α] (needles : List (List α)) (p : List α) : Decidable (Unfinished needles p) :=
  inferInstanceAs (Decidable (_ ∧ _))

instance [DecidableEq α] (needles : List (List α)) (s : List α) :
    Decidable (EndsUnfinished needles s) :=
  inferInstanceAs (Decidable (∃ p ∈ s.tails, _))

instance [DecidableEq α] (needles : List (List α)) (s : List α) : Decidable (Seamless needles s) :=
  inferInstanceAs (Decidable (∀ k ∈ List.range (s.length + 1), _))

variable {needles : List (List α)} {n p q ahead back : List α}

theorem endsUnfinished_iff : EndsUnfinished needles s ↔ ∃ p, p <:+ s ∧ Unfinished needles p := by
  simp only [EndsUnfinished, mem_tails]

theorem Seamless.ends (h : Seamless needles (ahead ++ n ++ back)) (hn : n ∈ needles) :
    ¬ EndsUnfinished needles ahead := by
  have hahead := h ahead.length (mem_range.2 (by simp only [length_append]; omega))
    ⟨n, hn, by rw [append_assoc, drop_left]; exact prefix_append _ _⟩
  rwa [append_assoc, take_left] at hahead

theorem seamless_of_forall (h : ∀ ahead n back, n ∈ needles → s = ahead ++ n ++ back →
    ¬ EndsUnfinished needles ahead) : Seamless needles s := by
  rintro k - ⟨n, hn, back, hback⟩
  refine h (s.take k) n back hn ?_
  rw [append_assoc, hback, take_append_drop]

theorem unfinished_of_append (hn : p ++ q ∈ needles) (hp : p ≠ []) (hq : q ≠ []) : Unfinished needles p :=
  ⟨hp, p ++ q, hn, prefix_append _ _, fun h => hq (self_eq_append_right.1 h)⟩

theorem Unfinished.of_append (h : Unfinished needles (p ++ q)) (hp : p ≠ []) : Unfinished needles p := by
  obtain ⟨-, n, hn, ⟨rest, rfl⟩, hne⟩ := h
  have hrest : rest ≠ [] := by
    rintro rfl
    exact hne (append_nil _).symm
  rw [append_assoc] at hn
  exact unfinished_of_append hn hp (append_ne_nil_of_right_ne_nil _ hrest)

end Needles

variable {s' : List α}

section Filling

inductive Filled (needle value : List α) : List α → List α → Prop
  | nil : Filled needle value [] []
  | put {s s' : List α} : Filled needle value s s' → Filled needle value (needle ++ s) (value ++ s')
  | keep {c : α} {s s' : List α} : ¬ needle <+: c :: s → Filled needle value s s' →
      Filled needle value (c :: s) (c :: s')

variable {needles : List (List α)} {n n' p q u u' v x y : List α}

theorem Filled.eq_self (h : Filled n v s s') (hs : ¬ n <:+: s) : s' = s := by
  induction h with
  | nil => rfl
  | put h ih => exact absurd (infix_append [] n _) hs
  | @keep c s s' hc h ih => rw [ih fun hn => hs (infix_cons hn)]

def Carries (needles : List (List α)) (u u' : List α) : Prop :=
  ∀ p, p <:+ u' → Unfinished needles p → p <:+ u

theorem Carries.endsUnfinished (h : Carries needles u u') (hu : ¬ EndsUnfinished needles u) :
    ¬ EndsUnfinished needles u' := by
  intro hu'
  obtain ⟨p, hp, hunfinished⟩ := endsUnfinished_iff.1 hu'
  exact hu (endsUnfinished_iff.2 ⟨p, h p hp hunfinished, hunfinished⟩)

theorem Carries.keep (h : Carries needles u u') (c : α) : Carries needles (u ++ [c]) (u' ++ [c]) := by
  intro p hp hunfinished
  rcases suffix_concat_iff.1 hp with rfl | ⟨q, rfl, hq⟩
  · exact absurd rfl hunfinished.1
  · by_cases hnil : q = []
    · subst hnil
      exact suffix_append u [c]
    · exact suffix_append_self_iff.2 (h q hq (hunfinished.of_append hnil))

theorem not_endsUnfinished_append (hu : ¬ EndsUnfinished needles u) (hv : ¬ EndsUnfinished needles v) :
    ¬ EndsUnfinished needles (u ++ v) := by
  intro h
  obtain ⟨p, hp, hunfinished⟩ := endsUnfinished_iff.1 h
  rcases suffix_or_suffix_of_suffix hp (suffix_append u v) with hpv | ⟨p, rfl⟩
  · exact hv (endsUnfinished_iff.2 ⟨p, hpv, hunfinished⟩)
  · by_cases hnil : p = []
    · subst hnil
      exact hv (endsUnfinished_iff.2 ⟨v, suffix_refl v, hunfinished⟩)
    · have hpu := suffix_append_self_iff.1 hp
      exact hu (endsUnfinished_iff.2 ⟨p, hpu, hunfinished.of_append hnil⟩)

theorem carries_put (hu : ¬ EndsUnfinished needles u') (hv : ¬ EndsUnfinished needles v) :
    Carries needles u (u' ++ v) := by
  intro p hp hunfinished
  exact absurd (endsUnfinished_iff.2 ⟨p, hp, hunfinished⟩) (not_endsUnfinished_append hu hv)

variable (h : Filled n v s s')
include h

variable (hn : n ∈ needles)
include hn

theorem Filled.begins (hseam : Seamless needles (u ++ s))
    (hneedle : p ++ q ∈ needles) (hp : p ≠ []) (hpu : p <:+ u) (hq : q <+: s') : q <+: s := by
  induction h generalizing u p q with
  | nil => exact hq
  | @put s s' h ih =>
    by_cases hnil : q = []
    · exact hnil ▸ nil_prefix
    · have hu := Seamless.ends (append_assoc u n s ▸ hseam) hn
      exact absurd (endsUnfinished_iff.2 ⟨p, hpu, unfinished_of_append hneedle hp hnil⟩) hu
  | @keep c s s' hc h ih =>
    cases q with
    | nil => exact nil_prefix
    | cons d q =>
      obtain ⟨rfl, hrest⟩ := cons_prefix_cons.1 hq
      refine cons_prefix_cons.2
        ⟨rfl, ih (u := u ++ [d]) (p := p ++ [d]) ?_ ?_ ?_ (suffix_append_self_iff.2 hpu) hrest⟩
      · rwa [append_assoc]
      · rwa [append_assoc]
      · exact append_ne_nil_of_left_ne_nil hp _

/-- Where each needle of a filled text comes from, and that it does not stand behind the beginning of
one; `u` and `u'` are what stands in front of the texts. -/
theorem Filled.occurrence (hne : ∀ n ∈ needles, n ≠ [])
    (hv : Seamless needles v) (hend : ¬ EndsUnfinished needles v) (hseam : Seamless needles (u ++ s))
    (hcarries : Carries needles u u') (hn' : n' ∈ needles) (hs' : s' = x ++ n' ++ y) :
    ¬ EndsUnfinished needles (u' ++ x) ∧ ((n' ≠ n ∧ n' <:+: s) ∨ (n' <:+: v ∧ n <:+: s)) := by
  induction h generalizing u u' x with
  | nil =>
    have hnil := (append_eq_nil_iff.1 (append_eq_nil_iff.1 hs'.symm).1).2
    exact absurd hnil (hne n' hn')
  | @put s s' h ih =>
    have hu' := hcarries.endsUnfinished (Seamless.ends (append_assoc u n s ▸ hseam) hn)
    have hinfix : n <:+: n ++ s := infix_append [] n s
    have hbehind : ∀ x, s' = x ++ n' ++ y → ¬ EndsUnfinished needles (u' ++ (v ++ x)) ∧
        ((n' ≠ n ∧ n' <:+: n ++ s) ∨ (n' <:+: v ∧ n <:+: n ++ s)) := by
      intro x hx
      have hseam' : Seamless needles (u ++ n ++ s) := by rwa [append_assoc]
      obtain ⟨hends, hfrom⟩ := ih hseam' (carries_put hu' hend) hx
      rw [append_assoc] at hends
      refine ⟨hends, ?_⟩
      rcases hfrom with ⟨hother, hs⟩ | ⟨hvalue, -⟩
      · exact .inl ⟨hother, hs.trans (suffix_append n s).isInfix⟩
      · exact .inr ⟨hvalue, hinfix⟩
    rw [append_assoc, append_eq_append_iff] at hs'
    rcases hs' with ⟨x, rfl, hx⟩ | ⟨rest, rfl, hx⟩
    · exact hbehind x (by rw [hx, append_assoc])
    · -- the needle begins inside of the value, or right behind it
      by_cases hnil : rest = []
      · subst hnil
        have hfirst := hbehind [] hx.symm
        rw [append_nil] at hfirst ⊢
        rwa [append_nil] at hfirst
      · rcases append_eq_append_iff.1 hx with ⟨more, rfl, -⟩ | ⟨more, rfl, -⟩
        · have hx' : ¬ EndsUnfinished needles x := Seamless.ends (append_assoc x n' more ▸ hv) hn'
          exact ⟨not_endsUnfinished_append hu' hx', .inr ⟨⟨x, more, append_assoc x n' more⟩, hinfix⟩⟩
        · by_cases hmore : more = []
          · subst hmore
            rw [append_nil] at hn' ⊢
            have hv' : Seamless needles (x ++ rest ++ []) := by rwa [append_nil]
            exact ⟨not_endsUnfinished_append hu' (hv'.ends hn'),
              .inr ⟨(suffix_append x rest).isInfix, hinfix⟩⟩
          · have hunfinished := unfinished_of_append hn' hnil hmore
            exact absurd (endsUnfinished_iff.2 ⟨rest, suffix_append x rest, hunfinished⟩) hend
  | @keep c s s' hc h ih =>
    cases x with
    | nil =>
      -- a needle that begins at a character that is kept is there in the text
      obtain ⟨d, n', rfl⟩ := exists_cons_of_ne_nil (hne n' hn')
      rw [nil_append, cons_append, cons_eq_cons] at hs'
      obtain ⟨rfl, rfl⟩ := hs'
      have hseam' : Seamless needles (u ++ [c] ++ s) := by rwa [append_assoc]
      obtain ⟨back, rfl⟩ := h.begins hn hseam' (p := [c]) (q := n') hn' (cons_ne_nil _ _)
        (suffix_append u [c]) (prefix_append _ _)
      have hseamEnds : Seamless needles (u ++ (c :: n') ++ back) := by simpa using hseam
      have hends : ¬ EndsUnfinished needles u := hseamEnds.ends hn'
      refine ⟨by rw [append_nil]; exact hcarries.endsUnfinished hends, .inl ⟨?_, ?_⟩⟩
      · rintro rfl
        exact hc (prefix_append (c :: n') back)
      · exact infix_append [] (c :: n') back
    | cons d x =>
      rw [cons_append, cons_append, cons_eq_cons] at hs'
      obtain ⟨rfl, hx⟩ := hs'
      have hseam' : Seamless needles (u ++ [c] ++ s) := by rwa [append_assoc]
      obtain ⟨hends, hfrom⟩ := ih hseam' (hcarries.keep c) hx
      rw [append_assoc] at hends
      refine ⟨hends, ?_⟩
      rcases hfrom with ⟨hother, hs⟩ | ⟨hvalue, hs⟩
      · exact .inl ⟨hother, infix_cons hs⟩
      · exact .inr ⟨hvalue, infix_cons hs⟩

theorem Filled.seamless (hne : ∀ n ∈ needles, n ≠ [])
    (hv : Seamless needles v) (hend : ¬ EndsUnfinished needles v) (hseam : Seamless needles s) :
    Seamless needles s' ∧ ∀ n' ∈ needles, n' <:+: s' → (n' ≠ n ∧ n' <:+: s) ∨ (n' <:+: v ∧ n <:+: s) := by
  have hoccurrence : ∀ x n' y, n' ∈ needles → s' = x ++ n' ++ y →
      ¬ EndsUnfinished needles ([] ++ x) ∧ ((n' ≠ n ∧ n' <:+: s) ∨ (n' <:+: v ∧ n <:+: s)) :=
    fun x n' y hn' hs' => h.occurrence (u := []) hn hne hv hend hseam (fun p hp _ => hp) hn' hs'
  constructor
  · exact seamless_of_forall fun x n' y hn' hs' => (hoccurrence x n' y hn' hs').1
  · rintro n' hn' ⟨x, y, hs'⟩
    exact (hoccurrence x n' y hn' hs'.symm).2

theorem Filled.carries (hend : ¬ EndsUnfinished needles v)
    (hseam : Seamless needles (u ++ s)) (hcarries : Carries needles u u') :
    Carries needles (u ++ s) (u' ++ s') := by
  induction h generalizing u u' with
  | nil =>
    rw [append_nil, append_nil]
    exact hcarries
  | @put s s' h ih =>
    have hu' := hcarries.endsUnfinished (Seamless.ends (append_assoc u n s ▸ hseam) hn)
    have hrest := ih (u := u ++ n) (by rwa [append_assoc]) (carries_put hu' hend)
    rwa [append_assoc, append_assoc] at hrest
  | @keep c s s' hc h ih =>
    have hrest := ih (u := u ++ [c]) (by rwa [append_assoc]) (hcarries.keep c)
    rwa [append_assoc, append_assoc] at hrest

end Filling

variable {table table' : List (List α × List α)} {settled : List (List α)}

inductive FilledAll : List (List α × List α) → List α → List α → Prop
  | nil {s : List α} : FilledAll [] s s
  | cons {n v s s' s'' : List α} {table : List (List α × List α)} : Filled n v s s' →
      FilledAll table s' s'' → FilledAll ((n, v) :: table) s s''

/-- No replacement brings up a needle whose turn is over, by the value that is put in or where it meets the
text around it; `done` had their turn before. -/
inductive FilledForGood : List (List α) → List (List α × List α) → List α → List α → Prop
  | nil {done : List (List α)} {s : List α} : FilledForGood done [] s s
  | cons {done : List (List α)} {n v s s' s'' : List α} {table : List (List α × List α)} :
      Filled n v s s' → (∀ m ∈ n :: done, ¬ m <:+: s') → FilledForGood (n :: done) table s' s'' →
        FilledForGood done ((n, v) :: table) s s''

theorem FilledAll.eq_self (h : FilledAll table s s') (hs : ∀ entry ∈ table, ¬ entry.1 <:+: s) : s' = s := by
  induction h with
  | nil => rfl
  | cons h htable ih =>
    obtain ⟨hfirst, hrest⟩ := forall_mem_cons.1 hs
    obtain rfl := h.eq_self hfirst
    exact ih hrest

variable [DecidableEq α]

def brought (needles settled : List (List α)) (entry : List α × List α) : List (List α) :=
  if entry.1 ∈ settled then [] else needles.filter fun n => n <:+: entry.2

/-- No value that comes up brings in what had its turn, or ends in the beginning of a needle. The
needles that are `up` may be in the text, those that are `done` had their turn, and the values of the
`settled` ones have been filled before. -/
def ResolvesFrom (needles settled : List (List α)) : List (List α) → List (List α) →
    List (List α × List α) → Prop
  | _, _, [] => True
  | up, done, entry :: table =>
    if entry.1 ∈ up then
      ¬ EndsUnfinished needles entry.2 ∧ (entry.1 ∉ settled → Seamless needles entry.2) ∧
        (∀ n ∈ brought needles settled entry, n ∉ entry.1 :: done) ∧
        ResolvesFrom needles settled (up ++ brought needles settled entry) (entry.1 :: done) table
    else ResolvesFrom needles settled up (entry.1 :: done) table

instance decidableResolvesFrom (needles settled : List (List α)) :
    ∀ (up done : List (List α)) (table : List (List α × List α)),
      Decidable (ResolvesFrom needles settled up done table)
  | _, _, [] => isTrue trivial
  | up, done, entry :: table =>
    have := decidableResolvesFrom needles settled (up ++ brought needles settled entry)
      (entry.1 :: done) table
    have := decidableResolvesFrom needles settled up (entry.1 :: done) table
    inferInstanceAs (Decidable (if entry.1 ∈ up then _ ∧ _ ∧ _ ∧ _ else _))

def needlesOf (table : List (List α × List α)) : List (List α) := table.map Prod.fst

def Resolves (settled : List (List α)) (table : List (List α × List α)) (text : List α) : Prop :=
  Seamless (needlesOf table) text ∧
    ResolvesFrom (needlesOf table) settled ((needlesOf table).filter fun n => n <:+: text) [] table

instance (settled : List (List α)) (table : List (List α × List α)) (text : List α) :
    Decidable (Resolves settled table text) :=
  inferInstanceAs (Decidable (_ ∧ _))

/-- A value that has been filled: nothing is left in it. -/
structure Clean (needles : List (List α)) (value : List α) : Prop where
  none_left : ∀ n ∈ needles, ¬ n <:+: value
  ends : ¬ EndsUnfinished needles value

omit [DecidableEq α] in
theorem Clean.seamless {needles : List (List α)} {value : List α} (h : Clean needles value) :
    Seamless needles value :=
  seamless_of_forall fun ahead n back hn hvalue =>
    absurd ⟨ahead, back, hvalue.symm⟩ (h.none_left n hn)

/-- The second table is the first, where the values of the settled needles have been filled. -/
def Settled (needles settled : List (List α)) (table table' : List (List α × List α)) : Prop :=
  List.Forall₂ (fun entry entry' => entry'.1 = entry.1 ∧ (entry.1 ∉ settled → entry'.2 = entry.2) ∧
    (entry.1 ∈ settled → ¬ EndsUnfinished needles entry.2 → Clean needles entry'.2)) table table'

omit [DecidableEq α] in
theorem Settled.needles {needles : List (List α)} (h : Settled needles settled table table') :
    needlesOf table' = needlesOf table := by
  induction h with
  | nil => rfl
  | cons hentry htable ih =>
    rw [needlesOf, needlesOf, map_cons, map_cons, hentry.1]
    exact congrArg _ ih

variable {needles up done : List (List α)}

omit [DecidableEq α] in
theorem FilledForGood.none_left (h : FilledForGood done table s s') (hdone : ∀ m ∈ done, ¬ m <:+: s) :
    ∀ m, m ∈ done ∨ m ∈ needlesOf table → ¬ m <:+: s' := by
  induction h with
  | nil => exact fun m hm => hm.elim (hdone m) fun hm => nomatch hm
  | @cons done n v s s' s'' table hfirst hstep hrest ih =>
    intro m hm
    refine ih hstep m ?_
    rw [needlesOf, map_cons, mem_cons] at hm
    rw [mem_cons]
    tauto

theorem ResolvesFrom.filled (h : ResolvesFrom needles settled up done table)
    (hsettled : Settled needles settled table table') (hne : ∀ n ∈ needles, n ≠ [])
    (htable : ∀ entry ∈ table, entry.1 ∈ needles) (hover : ∀ n ∈ done, n ∈ needles)
    (hseam : Seamless needles s) (hup : ∀ n ∈ needles, n <:+: s → n ∈ up ∧ n ∉ done)
    (hfilled : FilledAll table' s s') : Carries needles s s' ∧ FilledForGood done table' s s' := by
  induction hfilled generalizing up done table with
  | nil => exact ⟨fun p hp _ => hp, .nil⟩
  | @cons n v s s₁ s' table' hfirst hrest ih =>
    obtain ⟨entry, table, ⟨hname, hplain, hclean⟩, hrestSettled, rfl⟩ := List.forall₂_cons_right_iff.1 hsettled
    obtain rfl : n = entry.1 := hname
    obtain ⟨hentry, htable⟩ := forall_mem_cons.1 htable
    rw [ResolvesFrom] at h
    have hover' : ∀ n ∈ entry.1 :: done, n ∈ needles := forall_mem_cons.2 ⟨hentry, hover⟩
    by_cases hnup : entry.1 ∈ up
    · rw [if_pos hnup] at h
      obtain ⟨hend, hseamless, hbrought, hrestResolves⟩ := h
      obtain ⟨hvend, hvseam, hvbrought⟩ : ¬ EndsUnfinished needles v ∧ Seamless needles v ∧
          ∀ n' ∈ needles, n' <:+: v → n' ∈ brought needles settled entry := by
        by_cases hmem : entry.1 ∈ settled
        · have hclean := hclean hmem hend
          exact ⟨hclean.ends, hclean.seamless, fun n' hn' hv => absurd hv (hclean.none_left n' hn')⟩
        · obtain rfl : v = entry.2 := hplain hmem
          refine ⟨hend, hseamless hmem, fun n' hn' hv => ?_⟩
          rw [brought, if_neg hmem]
          exact mem_filter.2 ⟨hn', decide_eq_true hv⟩
      obtain ⟨hseam₁, hfrom⟩ := hfirst.seamless hentry hne hvseam hvend hseam
      have hcarries : Carries needles ([] ++ s) ([] ++ s₁) :=
        hfirst.carries hentry hvend hseam fun p hp _ => hp
      have hup₁ : ∀ n' ∈ needles, n' <:+: s₁ →
          n' ∈ up ++ brought needles settled entry ∧ n' ∉ entry.1 :: done := by
        intro n' hn' hs₁
        rcases hfrom n' hn' hs₁ with ⟨hother, hs⟩ | ⟨hv, -⟩
        · obtain ⟨hn'up, hn'done⟩ := hup n' hn' hs
          exact ⟨mem_append_left _ hn'up, not_mem_cons_of_ne_of_not_mem hother hn'done⟩
        · have hmem := hvbrought n' hn' hv
          exact ⟨mem_append_right _ hmem, hbrought n' hmem⟩
      obtain ⟨hcarries', hgood⟩ := ih hrestResolves hrestSettled htable hover' hseam₁ hup₁
      exact ⟨fun p hp hu => hcarries p (hcarries' p hp hu) hu,
        .cons hfirst (fun m hm hs₁ => (hup₁ m (hover' m hm) hs₁).2 hm) hgood⟩
    · rw [if_neg hnup] at h
      have hnot : ¬ entry.1 <:+: s := fun hs => hnup (hup entry.1 hentry hs).1
      obtain rfl := hfirst.eq_self hnot
      have hup₁ : ∀ n' ∈ needles, n' <:+: s₁ → n' ∈ up ∧ n' ∉ entry.1 :: done := by
        intro n' hn' hs
        obtain ⟨hn'up, hn'done⟩ := hup n' hn' hs
        have hother : n' ≠ entry.1 := by
          rintro rfl
          exact hnot hs
        exact ⟨hn'up, not_mem_cons_of_ne_of_not_mem hother hn'done⟩
      obtain ⟨hcarries', hgood⟩ := ih h hrestSettled htable hover' hseam hup₁
      exact ⟨hcarries', .cons hfirst (fun m hm hs₁ => (hup₁ m (hover' m hm) hs₁).2 hm) hgood⟩

theorem Resolves.filled (h : Resolves settled table s)
    (hsettled : Settled (needlesOf table) settled table table') (hne : ∀ n ∈ needlesOf table, n ≠ [])
    (hfilled : FilledAll table' s s') :
    Carries (needlesOf table) s s' ∧ FilledForGood [] table' s s' := by
  have hup : ∀ n ∈ needlesOf table, n <:+: s →
      n ∈ (needlesOf table).filter (fun n => n <:+: s) ∧ n ∉ ([] : List (List α)) :=
    fun n hn hs => ⟨mem_filter.2 ⟨hn, decide_eq_true hs⟩, not_mem_nil⟩
  exact h.2.filled hsettled hne (fun entry hentry => mem_map_of_mem hentry) (fun n hn => nomatch hn) h.1 hup
    hfilled

omit [DecidableEq α] in
theorem settled_refl (needles : List (List α)) (table : List (List α × List α)) :
    Settled needles [] table table :=
  List.forall₂_same.2 fun _ _ => ⟨rfl, fun _ => rfl, fun h => absurd h not_mem_nil⟩

end Mlang.Replacements
