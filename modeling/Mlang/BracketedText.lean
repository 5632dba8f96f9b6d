import Mathlib.Data.List.DropRight

namespace Mlang.BracketedText

open List


abbrev Text := List Char

instance lawfulText : LawfulBEq Text := inferInstance

/-- What is said of the characters of a text is decided along the text. -/
instance (priority := high) decidableForallText (p : Char → Prop) [DecidablePred p] (s : Text) :
    Decidable (∀ c ∈ s, p c) :=
  List.decidableBAll p s

def isSpace (c : Char) : Bool := c = ' ' || (9 ≤ c.toNat && c.toNat ≤ 13)

def trimCopy (s : Text) : Text := (s.dropWhile isSpace).rdropWhile isSpace

def opens (c : Char) : Bool := c = '<' || c = '(' || c = '['

/-- The arrow of a function type closes nothing; `prev` is the character in front. -/
def closes (prev : Option Char) (c : Char) : Bool :=
  c = ')' || c = ']' || (c = '>' && prev ≠ some '-')

def splitLoop : Option Char → Int → Text → Text → List Text
  | _, _, part, [] => [trimCopy part]
  | prev, depth, part, c :: cs =>
    if opens c then splitLoop (some c) (depth + 1) (part ++ [c]) cs
    else if closes prev c then splitLoop (some c) (depth - 1) (part ++ [c]) cs
    else if c = ',' ∧ depth = 0 then trimCopy part :: splitLoop (some c) depth [] cs
    else splitLoop (some c) depth (part ++ [c]) cs

def splitTopLevelCommas (s : Text) : List Text := splitLoop none 0 [] s

/-- The text up to the parenthesis that closes `depth` open ones, and the text behind it. -/
def closeParen : Nat → Text → Text → Option (Text × Text)
  | _, _, [] => none
  | depth, inside, c :: cs =>
    if c = '(' then closeParen (depth + 1) (inside ++ [c]) cs
    else if c = ')' then
      if depth ≤ 1 then some (inside, cs) else closeParen (depth - 1) (inside ++ [c]) cs
    else closeParen depth (inside ++ [c]) cs

def isWrappedGeneric (s head : Text) : Bool :=
  head.length + 2 < s.length && (head ++ ['<']).isPrefixOf s && s.getLast? == some '>'

/-- What stands between the brackets of a text that `isWrappedGeneric` accepts. -/
def wrapped (s head : Text) : Text := (s.drop (head.length + 1)).dropLast

def commaSeparated : List Text → Text
  | [] => []
  | [t] => t
  | t :: t' :: ts => t ++ ',' :: ' ' :: commaSeparated (t' :: ts)

variable {o c : Char}

structure Tight (s : Text) : Prop where
  ne_nil : s ≠ []
  head : ∀ c, s.head? = some c → isSpace c = false
  last : ∀ c, s.getLast? = some c → isSpace c = false

variable {s s' : Text}

theorem Tight.trimCopy (h : Tight s) : trimCopy s = s := by
  have hfront : s.dropWhile isSpace = s := by
    cases s with
    | nil => rfl
    | cons c cs => exact dropWhile_cons_of_neg (by simp [h.head c rfl])
  rw [BracketedText.trimCopy, hfront, rdropWhile_eq_self_iff]
  intro hne
  simp [h.last _ (getLast?_eq_some_getLast hne)]

theorem trimCopy_cons (hc : isSpace c = true) (s : Text) : trimCopy (c :: s) = trimCopy s := by
  rw [trimCopy, dropWhile_cons_of_pos hc, trimCopy]

theorem trimCopy_concat (hc : isSpace c = true) (text : Text) : trimCopy (text ++ [c]) = trimCopy text := by
  by_cases hall : ∀ b ∈ text, isSpace b = true
  · have hnil : text.dropWhile isSpace = [] := List.dropWhile_eq_nil_iff.2 hall
    have hconcat : (text ++ [c]).dropWhile isSpace = [] := by
      rw [dropWhile_append_of_pos hall, dropWhile_cons_of_pos hc, dropWhile_nil]
    rw [trimCopy, trimCopy, hnil, hconcat]
  · have hne : text.dropWhile isSpace ≠ [] := fun h => hall (List.dropWhile_eq_nil_iff.1 h)
    have hconcat : (text ++ [c]).dropWhile isSpace = text.dropWhile isSpace ++ [c] := by
      rw [List.dropWhile_append, if_neg (by rwa [List.isEmpty_iff])]
    rw [trimCopy, trimCopy, hconcat, rdropWhile_concat_pos _ _ _ hc]

theorem trimCopy_behind {back : Text} (hback : ∀ c ∈ back, isSpace c = true) (s : Text) :
    trimCopy (s ++ back) = trimCopy s := by
  induction back using List.reverseRecOn with
  | nil => rw [append_nil]
  | append_singleton back c ih =>
    rw [← append_assoc, trimCopy_concat (hback c (by simp)),
      ih fun b hb => hback b (mem_append_left _ hb)]

theorem trimCopy_front {front : Text} (hfront : ∀ c ∈ front, isSpace c = true) (s : Text) :
    trimCopy (front ++ s) = trimCopy s := by
  induction front with
  | nil => rfl
  | cons c front ih =>
    obtain ⟨hc, hfront⟩ := List.forall_mem_cons.1 hfront
    rw [cons_append, trimCopy_cons hc, ih hfront]

theorem Tight.append (h : Tight s) (h' : Tight s') : Tight (s ++ s') where
  ne_nil := append_ne_nil_of_left_ne_nil h.ne_nil _
  head := by
    intro c hc
    rw [head?_append_of_ne_nil _ h.ne_nil] at hc
    exact h.head c hc
  last := by
    intro c hc
    rw [getLast?_append_of_ne_nil _ h'.ne_nil] at hc
    exact h'.last c hc

theorem Tight.between (h : Tight s) (h' : Tight s') (m : Text) : Tight (s ++ m ++ s') where
  ne_nil := append_ne_nil_of_right_ne_nil _ h'.ne_nil
  head := by
    intro c hc
    rw [append_assoc, head?_append_of_ne_nil _ h.ne_nil] at hc
    exact h.head c hc
  last := by
    intro c hc
    rw [getLast?_append_of_ne_nil _ h'.ne_nil] at hc
    exact h'.last c hc

theorem Tight.surround (ho : isSpace o = false) (hc : isSpace c = false) : Tight (o :: s ++ [c]) where
  ne_nil := cons_ne_nil _ _
  head := by
    intro a ha
    cases ha
    exact ho
  last := by
    intro a ha
    rw [getLast?_append_of_ne_nil _ (cons_ne_nil _ _)] at ha
    cases ha
    exact hc

theorem tight_of_forall (hne : s ≠ []) (h : ∀ c ∈ s, isSpace c = false) : Tight s where
  ne_nil := hne
  head c hc := h c (mem_of_mem_head? hc)
  last c hc := h c (mem_of_mem_getLast? hc)

variable {lo : Int} {t inner : Text}

/-- The splitter runs through the text without a cut, from any depth that is at least `lo`. -/
def Passes (lo : Int) (t : Text) : Prop :=
  ∀ prev depth part rest, lo ≤ depth →
    splitLoop prev depth part (t ++ rest) = splitLoop (t.getLast?.or prev) depth (part ++ t) rest

theorem Passes.mono {lo' : Int} (h : Passes lo t) (hle : lo ≤ lo') : Passes lo' t :=
  fun prev depth part rest hdepth => h prev depth part rest (Int.le_trans hle hdepth)

theorem Passes.append {t' : Text} (h : Passes lo t) (h' : Passes lo t') : Passes lo (t ++ t') := by
  intro prev depth part rest hdepth
  rw [append_assoc, h _ _ _ _ hdepth, h' _ _ _ _ hdepth, append_assoc]
  rw [getLast?_append, Option.or_assoc]

def isPlain (c : Char) : Bool :=
  !opens c && c != ')' && c != ']' && c != '>' && c != ','

theorem passes_plain : ∀ {t : Text}, (∀ c ∈ t, isPlain c = true) → ∀ lo, Passes lo t
  | [], _, lo => by
    intro prev depth part rest _
    simp
  | c :: cs, h, lo => by
    have hhead : Passes lo [c] := by
      intro prev depth part rest _
      have hc := h c mem_cons_self
      simp only [isPlain, Bool.and_eq_true, Bool.not_eq_true', bne_iff_ne, ne_eq] at hc
      obtain ⟨⟨⟨⟨ho, hp⟩, hb⟩, ha⟩, hcomma⟩ := hc
      simp [splitLoop, ho, closes, hp, hb, ha, hcomma]
    exact hhead.append (passes_plain (fun a ha => h a (mem_cons_of_mem _ ha)) lo)

theorem passes_separator : Passes 1 [',', ' '] := by
  intro prev depth part rest hdepth
  have hne : depth ≠ 0 := by omega
  simp [splitLoop, opens, closes, hne]

theorem passes_arrow (lo : Int) : Passes lo [' ', '-', '>', ' '] := by
  intro prev depth part rest _
  simp [splitLoop, opens, closes]

theorem passes_commaSeparated : ∀ {ts : List Text}, (∀ t ∈ ts, Passes 0 t) → Passes 1 (commaSeparated ts)
  | [], _ => passes_plain (forall_mem_nil _) 1
  | [t], h => (h t mem_cons_self).mono (by omega)
  | t :: t' :: ts, h => by
    have hrest := passes_commaSeparated fun s hs => h s (mem_cons_of_mem _ hs)
    exact ((h t mem_cons_self).mono (by omega)).append (passes_separator.append hrest)

theorem passes_brackets (h : Passes 1 inner) (hlast : inner.getLast? ≠ some '-') (ho : opens o = true)
    (hc : c = ')' ∨ c = '>') : Passes 0 (o :: inner ++ [c]) := by
  intro prev depth part rest hdepth
  have hstep : splitLoop prev depth part (o :: (inner ++ ([c] ++ rest))) =
      splitLoop (some o) (depth + 1) (part ++ [o]) (inner ++ ([c] ++ rest)) := by
    simp [splitLoop, ho]
  have hcloses : closes (inner.getLast?.or (some o)) c = true := by
    rcases hc with rfl | rfl
    · rfl
    · have hprev : inner.getLast?.or (some o) ≠ some '-' := by
        cases hl : inner.getLast? with
        | none =>
          intro h
          cases h
          cases ho
        | some l =>
          rw [hl] at hlast
          exact hlast
      simpa [closes] using hprev
  have hnot : opens c = false := by
    rcases hc with rfl | rfl <;> rfl
  have hclose : ∀ part, splitLoop (inner.getLast?.or (some o)) (depth + 1) part ([c] ++ rest) =
      splitLoop (some c) depth (part ++ [c]) rest := by
    intro part
    rw [singleton_append, splitLoop, if_neg (by simp [hnot]), if_pos hcloses]
    congr 1
    omega
  have hlastChar : (o :: inner ++ [c]).getLast?.or prev = some c := by
    rw [getLast?_append_of_ne_nil _ (cons_ne_nil _ _)]
    rfl
  rw [append_assoc, cons_append, hstep, h _ _ _ _ (by omega), hclose, hlastChar]
  simp

theorem splitTopLevelCommas_commaSeparated {ts : List Text} (h : ∀ s ∈ t :: ts, Passes 0 s ∧ Tight s) :
    splitTopLevelCommas (commaSeparated (t :: ts)) = t :: ts := by
  have hloop : ∀ ts t prev part, (∀ s ∈ t :: ts, Passes 0 s ∧ Tight s) →
      splitLoop prev 0 part (commaSeparated (t :: ts)) = trimCopy (part ++ t) :: ts := by
    intro ts
    induction ts with
    | nil =>
      intro t prev part h
      have hpass := (h t mem_cons_self).1 prev 0 part [] (Int.le_refl 0)
      rw [append_nil] at hpass
      rw [commaSeparated, hpass, splitLoop]
    | cons t' ts ih =>
      intro t prev part h
      have hrest : ∀ s ∈ t' :: ts, Passes 0 s ∧ Tight s :=
        fun s hs => h s (mem_cons_of_mem _ hs)
      rw [commaSeparated, (h t mem_cons_self).1 _ _ _ _ (Int.le_refl 0)]
      have hcut : ∀ prev part, splitLoop prev 0 part (',' :: ' ' :: commaSeparated (t' :: ts)) =
          trimCopy part :: splitLoop (some ' ') 0 [' '] (commaSeparated (t' :: ts)) := by
        intro prev part
        simp [splitLoop, opens, closes]
      rw [hcut, ih t' (some ' ') [' '] hrest, singleton_append, trimCopy_cons rfl,
        (hrest t' mem_cons_self).2.trimCopy]
  rw [splitTopLevelCommas, hloop ts t none [] h, nil_append, (h t mem_cons_self).2.trimCopy]

def Balanced (t : Text) : Prop :=
  ∀ depth inside rest, 0 < depth →
    closeParen depth inside (t ++ rest) = closeParen depth (inside ++ t) rest

theorem Balanced.append {t' : Text} (h : Balanced t) (h' : Balanced t') : Balanced (t ++ t') := by
  intro depth inside rest hdepth
  rw [append_assoc, h _ _ _ hdepth, h' _ _ _ hdepth, append_assoc]

theorem balanced_of_forall : ∀ {t : Text}, (∀ c ∈ t, c ≠ '(' ∧ c ≠ ')') → Balanced t
  | [], _ => by
    intro depth inside rest _
    simp
  | c :: cs, h => by
    have hhead : Balanced [c] := by
      intro depth inside rest _
      obtain ⟨ho, hc⟩ := h c mem_cons_self
      simp [closeParen, ho, hc]
    exact hhead.append (balanced_of_forall fun a ha => h a (mem_cons_of_mem _ ha))

theorem balanced_commaSeparated : ∀ {ts : List Text}, (∀ t ∈ ts, Balanced t) →
    Balanced (commaSeparated ts)
  | [], _ => balanced_of_forall (forall_mem_nil _)
  | [t], h => h t mem_cons_self
  | t :: t' :: ts, h => by
    have hseparator : Balanced [',', ' '] := balanced_of_forall (by decide)
    have hrest := balanced_commaSeparated fun s hs => h s (mem_cons_of_mem _ hs)
    exact (h t mem_cons_self).append (hseparator.append hrest)

theorem closeParen_of_balanced (h : Balanced t) (rest : Text) :
    closeParen 1 [] (t ++ ')' :: rest) = some (t, rest) := by
  rw [h 1 [] _ Nat.one_pos, nil_append]
  simp [closeParen]

theorem Balanced.parens (h : Balanced t) : Balanced ('(' :: t ++ [')']) := by
  intro depth inside rest hdepth
  have hopen : closeParen depth inside ('(' :: (t ++ ([')'] ++ rest))) =
      closeParen (depth + 1) (inside ++ ['(']) (t ++ ([')'] ++ rest)) := by
    simp [closeParen]
  have hclose : ∀ inside, closeParen (depth + 1) inside ([')'] ++ rest) =
      closeParen depth (inside ++ [')']) rest := by
    intro inside
    rw [singleton_append, closeParen, if_neg (by decide), if_pos rfl, if_neg (by omega),
      Nat.add_sub_cancel]
  rw [append_assoc, cons_append, hopen, h _ _ _ (Nat.succ_pos _), hclose]
  simp

variable {keyword head rest : Text}

theorem prefix_of_bracketed (hk : '<' ∉ keyword) (h : keyword <+: head ++ '<' :: rest) :
    keyword <+: head := by
  induction keyword generalizing head with
  | nil => exact nil_prefix
  | cons k keyword ih =>
    rw [mem_cons, not_or] at hk
    cases head with
    | nil =>
      rw [nil_append, cons_prefix_cons] at h
      exact absurd h.1.symm hk.1
    | cons a head =>
      rw [cons_append, cons_prefix_cons] at h
      rw [cons_prefix_cons]
      exact ⟨h.1, ih hk.2 h.2⟩

theorem head_of_bracketed (hk : '<' ∉ keyword) (hh : '<' ∉ head)
    (h : keyword ++ ['<'] <+: head ++ '<' :: rest) : keyword = head := by
  induction keyword generalizing head with
  | nil =>
    cases head with
    | nil => rfl
    | cons a head =>
      rw [nil_append, cons_append, cons_prefix_cons] at h
      exact absurd (h.1 ▸ mem_cons_self) hh
  | cons k keyword ih =>
    rw [mem_cons, not_or] at hk
    cases head with
    | nil =>
      rw [nil_append, cons_append, cons_prefix_cons] at h
      exact absurd h.1.symm hk.1
    | cons a head =>
      rw [mem_cons, not_or] at hh
      rw [cons_append, cons_append, cons_prefix_cons] at h
      rw [h.1, ih hk.2 hh.2 h.2]

theorem isWrappedGeneric_bracketed (hk : '<' ∉ keyword) (hh : '<' ∉ head) (hinner : inner ≠ []) :
    isWrappedGeneric (head ++ '<' :: (inner ++ ['>'])) keyword = decide (keyword = head) := by
  by_cases heq : keyword = head
  · subst heq
    have hlen : 0 < inner.length := length_pos_of_ne_nil hinner
    have hstart : keyword ++ ['<'] <+: keyword ++ '<' :: (inner ++ ['>']) :=
      ⟨inner ++ ['>'], by simp⟩
    have hlast : (keyword ++ '<' :: (inner ++ ['>'])).getLast? = some '>' := by
      rw [getLast?_append_of_ne_nil _ (cons_ne_nil _ _), ← cons_append,
        getLast?_append_of_ne_nil _ (cons_ne_nil _ _)]
      rfl
    simpa [isWrappedGeneric, hlast, hstart] using hlen
  · have hstart : ¬ keyword ++ ['<'] <+: head ++ '<' :: (inner ++ ['>']) :=
      fun h => heq (head_of_bracketed hk hh h)
    simp [isWrappedGeneric, heq, hstart]

theorem wrapped_bracketed (head inner : Text) :
    wrapped (head ++ '<' :: (inner ++ ['>'])) head = inner := by
  have hdrop : (head ++ '<' :: (inner ++ ['>'])).drop (head.length + 1) = inner ++ ['>'] := by
    rw [← drop_drop, drop_left]
    rfl
  rw [wrapped, hdrop, dropLast_concat]

end Mlang.BracketedText
