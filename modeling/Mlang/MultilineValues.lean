import Mlang.SqueezedTexts

namespace Mlang.MultilineValues

open BracketedText (Text isSpace trimCopy)
open TomlText List Bool

def quotesAfter (quotes : Quotes) (text : Text) : Quotes := text.foldl Quotes.step quotes

def valueAfter (value : Text) (lines : List Text) : Text :=
  lines.foldl (fun value extra => value ++ '\n' :: stripTomlComment extra) value

structure CollectedWhole (value : Text) (lines : List Text) (collected : Text × Nat) : Prop where
  fewest : ∀ m < collected.2, tomlValueIsComplete (valueAfter value (lines.take m)) = false
  complete : tomlValueIsComplete collected.1 = true ∨ collected.2 = lines.length

/-- A line, or what stands in front of a `#` that is outside of every string that is open there. -/
def Uncommented (quotes : Quotes) (line kept : Text) : Prop :=
  kept = line ∨ ∃ comment, line = kept ++ '#' :: comment ∧ quotesAfter quotes kept = .outside

def behind (quotes : Quotes) (line : Text) : Quotes :=
  (quotesAfter quotes (beforeComment quotes line)).step '\n'

inductive KeptLines : Quotes → List Text → List Text → Prop
  | nil (quotes : Quotes) : KeptLines quotes [] []
  | cons (quotes : Quotes) (line kept : Text) (lines rest : List Text) : Uncommented quotes line kept →
      KeptLines (behind quotes line) lines rest → KeptLines quotes (line :: lines) (kept :: rest)

def opened (value : Text) : Quotes := (quotesAfter .outside value).step '\n'

def OnlyCommentsRemoved (value : Text) (lines : List Text) (collected : Text × Nat) : Prop :=
  ∃ kept : List Text, collected.1 = value ++ kept.flatMap (fun line => '\n' :: line) ∧
    KeptLines (opened value) (lines.take collected.2) kept

def TestsAgree (value : Text) (lines : List Text) : Prop :=
  ∀ m, 0 < m → m < lines.length →
    (∀ k, 0 < k → k < m → tomlArrayIsComplete (valueAfter value (lines.take k)) = false ∧
      tomlValueIsComplete (valueAfter value (lines.take k)) = false) →
    tomlArrayIsComplete (valueAfter value (lines.take m)) =
      tomlValueIsComplete (valueAfter value (lines.take m))

/-- The last line of which more is left than blanks, without its comment, ends in a single quote. -/
def EndsInQuote (lines : List Text) : Prop :=
  ∃ before line after, lines = before ++ line :: after ∧ (stripTomlComment line).getLast? = some '\'' ∧
    ∀ other ∈ after, stripTomlComment other = []

/-- An array always ends where it should. A string in double quotes does if it is complete behind the
first line, or brackets stay open. One in single quotes does if, where first a quote ends the text or
no bracket is open, both is so. -/
def ExitsWhole (value : Text) (lines : List Text) : Prop :=
  match (trimCopy value).head? with
  | some '[' => True
  | some '"' => tomlValueIsComplete (valueAfter value (lines.take 1)) = true ∨
      ∀ m, 0 < m → m < lines.length → tomlArrayIsComplete (valueAfter value (lines.take m)) = false
  | _ => ∀ m, 0 < m → m < lines.length →
    (∀ k, 0 < k → k < m → tomlArrayIsComplete (valueAfter value (lines.take k)) = false ∧
      ¬EndsInQuote (lines.take k)) →
    (tomlArrayIsComplete (valueAfter value (lines.take m)) = true ↔ EndsInQuote (lines.take m))

/-- A line without blanks at its ends, of which a scan that starts outside of strings cuts a comment
only. -/
def Plain (quotes : Quotes) (line : Text) : Prop :=
  trimCopy (beforeComment .outside line) = beforeComment .outside line ∧
    (beforeComment .outside line = line ∨ quotesAfter quotes (beforeComment .outside line) = .outside)

/-- The lines that are read, those up to the first behind which all brackets are closed, are plain. -/
def ReadsPlain (value : Text) (lines : List Text) : Prop :=
  ∀ i line, lines[i]? = some line →
    (∀ m, 0 < m → m ≤ i → tomlArrayIsComplete (valueAfter value (lines.take m)) = false) →
    Plain ((lines.take i).foldl behind (opened value)) line

variable {n : Nat} {value : Text} {lines : List Text}

theorem valueAfter_eq (value : Text) (lines : List Text) :
    valueAfter value lines = value ++ (lines.map stripTomlComment).flatMap fun line => '\n' :: line := by
  induction lines generalizing value with
  | nil => exact (append_nil value).symm
  | cons line lines ih =>
    have hnext := ih (value ++ '\n' :: stripTomlComment line)
    rw [append_assoc] at hnext
    exact hnext

structure Stops (test : Text → Bool) (value : Text) (lines : List Text) (n : Nat) : Prop where
  le : n ≤ lines.length
  before : ∀ m, 0 < m → m < n → test (valueAfter value (lines.take m)) = false
  reached : n < lines.length → 0 < n ∧ test (valueAfter value (lines.take n)) = true

theorem collectLines_stops (value : Text) (lines : List Text) :
    Stops tomlArrayIsComplete value lines (collectLines value lines).2 ∧
      (collectLines value lines).1 = valueAfter value (lines.take (collectLines value lines).2) := by
  induction lines generalizing value with
  | nil => exact ⟨⟨Nat.le_refl 0, fun m hpos hlt => absurd hlt (Nat.not_lt_zero m),
      fun h => absurd h (Nat.lt_irrefl 0)⟩, rfl⟩
  | cons line lines ih =>
    rw [collectLines]
    dsimp only
    by_cases hcomplete : tomlArrayIsComplete (value ++ '\n' :: stripTomlComment line) = true
    · rw [if_pos hcomplete]
      refine ⟨⟨Nat.succ_le_succ (Nat.zero_le _), fun m hpos hlt => by omega, fun _ => ?_⟩, rfl⟩
      exact ⟨Nat.one_pos, hcomplete⟩
    · rw [if_neg hcomplete]
      obtain ⟨hstops, hvalue⟩ := ih (value ++ '\n' :: stripTomlComment line)
      refine ⟨⟨Nat.succ_le_succ hstops.le, fun m hpos hlt => ?_, fun hlt => ?_⟩, hvalue⟩
      · obtain ⟨m, rfl⟩ := Nat.exists_eq_succ_of_ne_zero (Nat.pos_iff_ne_zero.1 hpos)
        cases m with
        | zero => exact Bool.eq_false_iff.2 hcomplete
        | succ m => exact hstops.before (m + 1) (Nat.succ_pos m) (Nat.lt_of_succ_lt_succ hlt)
      · obtain ⟨hpos, hreached⟩ := hstops.reached (Nat.lt_of_succ_lt_succ hlt)
        exact ⟨Nat.succ_pos _, hreached⟩

theorem exists_stops (test : Text → Bool) (value : Text) (lines : List Text) :
    ∃ n, Stops test value lines n := by
  classical
  by_cases hex : ∃ m, 0 < m ∧ m < lines.length ∧ test (valueAfter value (lines.take m)) = true
  · obtain ⟨hpos, hlt, hreached⟩ := Nat.find_spec hex
    refine ⟨Nat.find hex, Nat.le_of_lt hlt, fun m hm hbefore => ?_, fun _ => ⟨hpos, hreached⟩⟩
    rw [eq_false_iff]
    exact fun htrue => Nat.find_min hex hbefore ⟨hm, Nat.lt_trans hbefore hlt, htrue⟩
  · refine ⟨lines.length, Nat.le_refl _, fun m hm hbefore => ?_, fun h => absurd h (Nat.lt_irrefl _)⟩
    rw [eq_false_iff]
    exact fun htrue => hex ⟨m, hm, hbefore, htrue⟩

theorem collectedWhole_iff (hincomplete : tomlValueIsComplete value = false) (hn : n ≤ lines.length) :
    CollectedWhole value lines (valueAfter value (lines.take n), n) ↔
      Stops tomlValueIsComplete value lines n := by
  constructor
  · intro h
    refine ⟨hn, fun m _ hlt => h.fewest m hlt, fun hlt => ?_⟩
    have hcomplete := h.complete.resolve_right (Nat.ne_of_lt hlt)
    refine ⟨Nat.pos_of_ne_zero fun hzero => ?_, hcomplete⟩
    subst hzero
    exact absurd (hincomplete.symm.trans hcomplete) false_ne_true
  · intro h
    refine ⟨fun m hlt => ?_, ?_⟩
    · cases m with
      | zero => exact hincomplete
      | succ m => exact h.before _ (Nat.succ_pos m) hlt
    · rcases Nat.lt_or_eq_of_le hn with hlt | heq
      · exact .inl (h.reached hlt).2
      · exact .inr heq

theorem stops_iff_agree (h : Stops tomlArrayIsComplete value lines n) :
    Stops tomlValueIsComplete value lines n ↔ TestsAgree value lines := by
  constructor
  · intro h' m hpos hlt hbefore
    rcases Nat.lt_trichotomy m n with hmn | rfl | hnm
    · rw [h.before m hpos hmn, h'.before m hpos hmn]
    · rw [(h.reached hlt).2, (h'.reached hlt).2]
    · obtain ⟨hn, hreached⟩ := h.reached (Nat.lt_trans hnm hlt)
      rw [(hbefore n hn hnm).1] at hreached
      cases hreached
  · intro hagree
    obtain ⟨n', h'⟩ := exists_stops tomlValueIsComplete value lines
    rcases Nat.lt_trichotomy n n' with hlt | rfl | hlt
    · have hlength := Nat.lt_of_lt_of_le hlt h'.le
      obtain ⟨hpos, hreached⟩ := h.reached hlength
      have hsame := hagree n hpos hlength fun k hk hkn =>
        ⟨h.before k hk hkn, h'.before k hk (Nat.lt_trans hkn hlt)⟩
      rw [hreached, h'.before n hpos hlt] at hsame
      cases hsame
    · exact h'
    · have hlength := Nat.lt_of_lt_of_le hlt h.le
      obtain ⟨hpos, hreached⟩ := h'.reached hlength
      have hsame := hagree n' hpos hlength fun k hk hkn =>
        ⟨h.before k hk (Nat.lt_trans hkn hlt), h'.before k hk hkn⟩
      rw [hreached, h.before n' hpos hlt] at hsame
      cases hsame

variable {c : Char} {depth : Nat} {quotes : Quotes} {rest : Text} {text blanks : Text}

theorem arrayDepth_append (quotes : Quotes) (depth : Nat) (front rest : Text) :
    arrayDepth quotes depth (front ++ rest) =
      arrayDepth (quotesAfter quotes front) (arrayDepth quotes depth front) rest := by
  induction front generalizing quotes depth with
  | nil => rfl
  | cons c front ih => exact ih _ _

theorem ne_of_isSpace (h : isSpace c = true) :
    c ≠ '"' ∧ c ≠ '\'' ∧ c ≠ '\\' ∧ c ≠ '[' ∧ c ≠ ']' ∧ c ≠ '#' := by
  refine ⟨?_, ?_, ?_, ?_, ?_, ?_⟩
  all_goals
    rintro rfl
    exact absurd h (by decide)

theorem arrayDepth_blanks (h : ∀ c ∈ blanks, isSpace c = true) :
    arrayDepth quotes depth blanks = depth := by
  induction blanks generalizing quotes with
  | nil => rfl
  | cons c blanks ih =>
    obtain ⟨hc, hblanks⟩ := forall_mem_cons.1 h
    obtain ⟨-, -, -, hopen, hclose, -⟩ := ne_of_isSpace hc
    rw [arrayDepth, if_neg (fun h => hopen h.2), if_neg (fun h => hclose h.2)]
    exact ih hblanks

theorem quotesAfter_blanks (h : ∀ c ∈ blanks, isSpace c = true) :
    quotesAfter .outside blanks = .outside := by
  induction blanks with
  | nil => rfl
  | cons c blanks ih =>
    obtain ⟨hc, hblanks⟩ := forall_mem_cons.1 h
    obtain ⟨hdouble, hsingle, -⟩ := ne_of_isSpace hc
    have hstep : Quotes.step .outside c = .outside := by
      rw [Quotes.step, if_neg hdouble, if_neg hsingle]
    rw [quotesAfter, foldl_cons, hstep]
    exact ih hblanks

theorem trimCopy_blanks (text : Text) : ∃ front back, text = front ++ trimCopy text ++ back ∧
    (∀ c ∈ front, isSpace c = true) ∧ ∀ c ∈ back, isSpace c = true := by
  refine ⟨text.takeWhile isSpace, (text.dropWhile isSpace).rtakeWhile isSpace, ?_,
    fun c hc => mem_takeWhile_imp hc, fun c hc => mem_rtakeWhile_imp hc⟩
  rw [trimCopy, append_assoc, rdropWhile_append_rtakeWhile, takeWhile_append_dropWhile]

theorem tomlArrayIsComplete_trimCopy (text : Text) :
    tomlArrayIsComplete (trimCopy text) = tomlArrayIsComplete text := by
  obtain ⟨front, back, htext, hfront, hback⟩ := trimCopy_blanks text
  have hdepth : arrayDepth .outside 0 text = arrayDepth .outside 0 (trimCopy text) := by
    calc arrayDepth .outside 0 text
        = arrayDepth .outside 0 (front ++ trimCopy text ++ back) := congrArg _ htext
      _ = arrayDepth .outside 0 (trimCopy text) := by
          rw [arrayDepth_append, arrayDepth_blanks hback, arrayDepth_append, quotesAfter_blanks hfront,
            arrayDepth_blanks hfront]
  rw [tomlArrayIsComplete, tomlArrayIsComplete, hdepth]

theorem rdropWhile_cons (hc : isSpace c = false) (text : Text) :
    (c :: text).rdropWhile isSpace = c :: text.rdropWhile isSpace := by
  induction text using List.reverseRecOn with
  | nil => exact rdropWhile_concat_neg isSpace [] c (by rw [hc]; exact false_ne_true)
  | append_singleton text a ih =>
    rw [← cons_append]
    by_cases ha : isSpace a = true
    · rw [rdropWhile_concat_pos _ _ _ ha, rdropWhile_concat_pos _ _ _ ha, ih]
    · rw [rdropWhile_concat_neg _ _ _ ha, rdropWhile_concat_neg _ _ _ ha, cons_append]

theorem trimCopy_append (h : trimCopy text = c :: rest) : ∃ front inner, text = front ++ c :: inner ∧
    (∀ b ∈ front, isSpace b = true) ∧ ∀ more,
    trimCopy (text ++ more) = c :: (inner ++ more).rdropWhile isSpace := by
  obtain ⟨front, back, htext, hfront, -⟩ := trimCopy_blanks text
  have hc : isSpace c = false := SqueezedTexts.head_trimCopy (by rw [h]; rfl)
  rw [h, append_assoc, cons_append] at htext
  refine ⟨front, rest ++ back, htext, hfront, fun more => ?_⟩
  have hdrop : (text ++ more).dropWhile isSpace = c :: (rest ++ back ++ more) := by
    rw [htext, append_assoc, dropWhile_append_of_pos hfront, cons_append,
      dropWhile_cons_of_neg (by rw [hc]; exact false_ne_true)]
  rw [trimCopy, hdrop, rdropWhile_cons hc]

theorem arrayDepth_of_closesAtEnd {escaped : Bool} {text blanks front : Text}
    (h : closesAtEnd escaped text = true) (hblanks : ∀ c ∈ blanks, isSpace c = true)
    (hsplit : text ++ blanks = front ++ rest) : arrayDepth (.double escaped) depth front = depth := by
  induction text generalizing escaped front with
  | nil => cases escaped <;> cases h
  | cons c text ih =>
    cases front with
    | nil => rfl
    | cons d front =>
      rw [cons_append, cons_append, cons_eq_cons] at hsplit
      obtain ⟨rfl, hrest⟩ := hsplit
      have hdepth : arrayDepth (.double escaped) depth (c :: front) =
          arrayDepth ((Quotes.double escaped).step c) depth front := by
        rw [arrayDepth, if_neg (fun h => (nomatch h.1)), if_neg (fun h => (nomatch h.1))]
      rw [hdepth]
      cases escaped with
      | true => exact ih h hrest
      | false =>
        rw [closesAtEnd] at h
        rw [Quotes.step]
        by_cases hescape : c = '\\'
        · rw [if_pos hescape] at h ⊢
          exact ih h hrest
        · rw [if_neg hescape] at h ⊢
          by_cases hquote : c = '"'
          · rw [if_pos hquote] at h ⊢
            obtain rfl := List.isEmpty_iff.1 h
            refine arrayDepth_blanks fun a ha => hblanks a ?_
            rw [nil_append] at hrest
            exact hrest ▸ mem_append_left rest ha
          · rw [if_neg hquote] at h ⊢
            exact ih h hrest

theorem valueAfter_take_le {m k : Nat} (h : k ≤ m) :
    ∃ more, valueAfter value (lines.take m) = valueAfter value (lines.take k) ++ more := by
  refine ⟨(((lines.take m).drop k).map stripTomlComment).flatMap fun line => '\n' :: line, ?_⟩
  have hsplit : lines.take m = lines.take k ++ (lines.take m).drop k := by
    conv_lhs => rw [← take_append_drop k (lines.take m)]
    rw [take_take, Nat.min_eq_left h]
  rw [valueAfter_eq, valueAfter_eq, append_assoc, ← flatMap_append, ← map_append, ← hsplit]

theorem agree_of_array
    (h : trimCopy value = '[' :: rest) (lines : List Text) : tomlArrayIsComplete (valueAfter value lines) =
      tomlValueIsComplete (valueAfter value lines) := by
  obtain ⟨front, inner, -, -, htrim⟩ := trimCopy_append h
  have hvalue := htrim ((lines.map stripTomlComment).flatMap fun line => '\n' :: line)
  rw [← valueAfter_eq] at hvalue
  have hcomplete : tomlValueIsComplete (valueAfter value lines) =
      tomlArrayIsComplete (trimCopy (valueAfter value lines)) := by
    rw [tomlValueIsComplete, hvalue]
    rfl
  rw [hcomplete, tomlArrayIsComplete_trimCopy]

theorem closed_of_string (h : trimCopy value = '"' :: rest) {m k : Nat} (hle : k ≤ m)
    (hcomplete : tomlValueIsComplete (valueAfter value (lines.take m)) = true) :
    tomlArrayIsComplete (valueAfter value (lines.take k)) = true := by
  obtain ⟨front, inner, hvalue, hfront, htrim⟩ := trimCopy_append h
  obtain ⟨more, hmore⟩ := @valueAfter_take_le value lines m k hle
  have hk := valueAfter_eq value (lines.take k)
  generalize ((lines.take k).map stripTomlComment).flatMap (fun line => '\n' :: line) = added at hk
  have hm := htrim (added ++ more)
  rw [← append_assoc, ← hk, ← hmore] at hm
  rw [tomlValueIsComplete, hm] at hcomplete
  have hclosed : closesAtEnd false ((inner ++ (added ++ more)).rdropWhile isSpace) = true := hcomplete
  have hbracket : arrayDepth (.double false) 0 (inner ++ added) = 0 := by
    refine arrayDepth_of_closesAtEnd hclosed (fun c hc => mem_rtakeWhile_imp hc)
      (?_ : _ ++ (inner ++ (added ++ more)).rtakeWhile isSpace = _ ++ more)
    rw [rdropWhile_append_rtakeWhile, append_assoc]
  have hdepth : arrayDepth .outside 0 (valueAfter value (lines.take k)) = 0 := by
    rw [hk, hvalue, append_assoc, arrayDepth_append, quotesAfter_blanks hfront, arrayDepth_blanks hfront]
    exact hbracket
  exact decide_eq_true hdepth

theorem agree_iff_string (h : trimCopy value = '"' :: rest) : TestsAgree value lines ↔
    tomlValueIsComplete (valueAfter value (lines.take 1)) = true ∨ ∀ m, 0 < m → m < lines.length →
    tomlArrayIsComplete (valueAfter value (lines.take m)) = false := by
  constructor
  · intro hagree
    obtain ⟨n, hn⟩ := exists_stops tomlArrayIsComplete value lines
    have hvalue := (stops_iff_agree hn).2 hagree
    rcases Nat.lt_or_eq_of_le hn.le with hlt | heq
    · obtain ⟨hpos, hcomplete⟩ := hvalue.reached hlt
      have hfirst := closed_of_string h hpos hcomplete
      rcases Nat.lt_or_eq_of_le hpos with hone | hone
      · exact absurd ((hn.before 1 Nat.one_pos hone).symm.trans hfirst) false_ne_true
      · exact .inl (by rwa [← hone] at hcomplete)
    · exact .inr fun m hpos hlt => hn.before m hpos (heq ▸ hlt)
  · rintro (hfirst | hopen)
    · intro m hpos hlt hbefore
      rcases Nat.lt_or_eq_of_le (Nat.succ_le_of_lt hpos) with hone | hone
      · exact absurd ((hbefore 1 Nat.one_pos hone).2.symm.trans hfirst) false_ne_true
      · have hm : m = 1 := hone.symm
        subst hm
        rw [hfirst, closed_of_string h (Nat.le_refl 1) hfirst]
    · intro m hpos hlt _
      rw [hopen m hpos hlt, eq_comm, eq_false_iff]
      intro hcomplete
      have hclosed := closed_of_string h (Nat.le_refl m) hcomplete
      exact absurd ((hopen m hpos hlt).symm.trans hclosed) false_ne_true

theorem endsInQuote_concat {line : Text} : EndsInQuote (lines ++ [line]) ↔
    (stripTomlComment line).getLast? = some '\'' ∨ stripTomlComment line = [] ∧ EndsInQuote lines := by
  constructor
  · rintro ⟨before, line', after, hsplit, hquote, hblank⟩
    rcases eq_nil_or_concat' after with rfl | ⟨after, last, rfl⟩
    · obtain ⟨-, hline⟩ := append_inj' hsplit rfl
      exact .inl ((List.cons.inj hline).1 ▸ hquote)
    · rw [← cons_append, ← append_assoc] at hsplit
      obtain ⟨hlines, hlast⟩ := append_inj' hsplit rfl
      obtain rfl := (List.cons.inj hlast).1
      exact .inr ⟨hblank line (mem_append_right _ mem_cons_self), before, line', after, hlines, hquote,
        fun other hother => hblank other (mem_append_left _ hother)⟩
  · rintro (hquote | ⟨hblank, before, line', after, rfl, hquote, hafter⟩)
    · exact ⟨lines, line, [], rfl, hquote, fun other hother => nomatch hother⟩
    · refine ⟨before, line', after ++ [line], by simp, hquote, fun other hother => ?_⟩
      rcases mem_append.1 hother with hother | hother
      · exact hafter other hother
      · rwa [mem_singleton.1 hother]

/-- A single quote ends the text where it ends the last line of it, blank ones aside. -/
theorem complete_iff_endsInQuote (h : trimCopy value = '\'' :: rest)
    (hincomplete : tomlValueIsComplete value = false) (lines : List Text) :
    tomlValueIsComplete (valueAfter value lines) = true ↔ EndsInQuote lines := by
  obtain ⟨front, inner, hvalue, -, htrim⟩ := trimCopy_append h
  have hcomplete : ∀ more, tomlValueIsComplete (value ++ more) = true ↔
      ((inner ++ more).rdropWhile isSpace).getLast? = some '\'' := by
    intro more
    rw [tomlValueIsComplete, htrim]
    exact decide_eq_true_iff
  induction lines using List.reverseRecOn with
  | nil =>
    refine iff_of_false (Bool.eq_false_iff.1 hincomplete) ?_
    rintro ⟨before, line, after, hsplit, -⟩
    exact append_ne_nil_of_right_ne_nil _ (cons_ne_nil _ _) hsplit.symm
  | append_singleton lines line ih =>
    have hprior : ((inner ++ (lines.map stripTomlComment).flatMap fun line => '\n' :: line).rdropWhile
        isSpace).getLast? = some '\'' ↔ EndsInQuote lines := by
      rw [← hcomplete, ← valueAfter_eq]
      exact ih
    rw [valueAfter_eq, hcomplete, endsInQuote_concat, ← hprior, map_append, flatMap_append, ← append_assoc]
    generalize inner ++ (lines.map stripTomlComment).flatMap (fun line => '\n' :: line) = text
    have hlast : ∀ c, (stripTomlComment line).getLast? = some c → isSpace c = false := fun c hc =>
      SqueezedTexts.last_trimCopy hc
    rw [map_singleton, flatMap_singleton]
    rcases eq_nil_or_concat' (stripTomlComment line) with hblank | ⟨kept, c, hkept⟩
    · rw [hblank, rdropWhile_concat_pos _ _ _ (by decide)]
      simp
    · have hc : ¬isSpace c = true := Bool.eq_false_iff.1 (hlast c (by rw [hkept, getLast?_concat]))
      have hwhole : (text ++ '\n' :: (kept ++ [c])).rdropWhile isSpace = text ++ '\n' :: (kept ++ [c]) := by
        rw [← cons_append, ← append_assoc]
        exact rdropWhile_concat_neg _ _ _ hc
      have hend : (text ++ '\n' :: (kept ++ [c])).getLast? = some c := by
        rw [← cons_append, ← append_assoc, getLast?_concat]
      rw [hkept, hwhole, hend, getLast?_concat]
      exact ⟨.inl, fun h => h.resolve_right fun h => append_ne_nil_of_right_ne_nil _ (cons_ne_nil _ _) h.1⟩

theorem agree_iff_quote (h : trimCopy value = '\'' :: rest) (hincomplete : tomlValueIsComplete value = false) :
    TestsAgree value lines ↔ ∀ m, 0 < m → m < lines.length →
      (∀ k, 0 < k → k < m → tomlArrayIsComplete (valueAfter value (lines.take k)) = false ∧
        ¬EndsInQuote (lines.take k)) →
      (tomlArrayIsComplete (valueAfter value (lines.take m)) = true ↔ EndsInQuote (lines.take m)) := by
  have hvalue : ∀ m, tomlValueIsComplete (valueAfter value (lines.take m)) = true ↔
      EndsInQuote (lines.take m) := fun m => complete_iff_endsInQuote h hincomplete _
  have hfalse : ∀ m, tomlValueIsComplete (valueAfter value (lines.take m)) = false ↔
      ¬EndsInQuote (lines.take m) := fun m => Bool.eq_false_iff.trans (not_congr (hvalue m))
  constructor
  · intro hagree m hpos hlt hbefore
    rw [← hvalue, hagree m hpos hlt fun k hk hkm =>
      ⟨(hbefore k hk hkm).1, (hfalse k).2 (hbefore k hk hkm).2⟩]
  · intro hagree m hpos hlt hbefore
    have hiff := hagree m hpos hlt fun k hk hkm =>
      ⟨(hbefore k hk hkm).1, (hfalse k).1 (hbefore k hk hkm).2⟩
    exact Bool.eq_iff_iff.2 (hiff.trans (hvalue m).symm)

theorem agree_iff_exits (hincomplete : tomlValueIsComplete value = false) :
    TestsAgree value lines ↔ ExitsWhole value lines := by
  unfold ExitsWhole
  cases htrim : trimCopy value with
  | nil =>
    rw [tomlValueIsComplete, htrim] at hincomplete
    cases hincomplete
  | cons c rest =>
    rw [head?_cons]
    split
    · rename_i heq
      cases heq
      exact iff_of_true (fun m _ _ _ => agree_of_array htrim _) trivial
    · rename_i heq
      cases heq
      exact agree_iff_string htrim
    next hbracket hdouble =>
      refine @agree_iff_quote value lines rest ?_ hincomplete
      by_contra hother
      rw [tomlValueIsComplete, htrim] at hincomplete
      split at hincomplete
      next heq => exact hbracket (congrArg some (List.cons.inj heq).1)
      next heq => exact hdouble (congrArg some (List.cons.inj heq).1)
      next heq => exact hother ((htrim.trans heq).trans (congrArg _ (List.cons.inj heq).2.symm))
      next => cases hincomplete

variable {line kept : Text}

theorem beforeComment_cases (quotes : Quotes) (line : Text) : beforeComment quotes line = line ∨
    ∃ comment, line = beforeComment quotes line ++ '#' :: comment := by
  induction line generalizing quotes with
  | nil => exact .inl rfl
  | cons c line ih =>
    rw [beforeComment]
    split_ifs with hcomment
    · exact .inr ⟨line, by rw [hcomment.2]; rfl⟩
    · rcases ih (quotes.step c) with h | ⟨comment, h⟩
      · exact .inl (congrArg (c :: ·) h)
      · exact .inr ⟨comment, congrArg (c :: ·) h⟩

theorem trimCopy_eq_of_comment {front comment : Text} (h : front ++ rest = trimCopy front ++ '#' :: comment) :
    trimCopy front = front := by
  obtain ⟨before, back, hfront, hbefore, hback⟩ := trimCopy_blanks front
  have hblank : ¬ isSpace '#' = true := by decide
  have hempty : before = [] := by
    cases before with
    | nil => rfl
    | cons b before =>
      have hb := (forall_mem_cons.1 hbefore).1
      cases htrim : trimCopy front with
      | nil =>
        rw [htrim, hfront] at h
        exact absurd ((List.cons.inj h).1 ▸ hb) hblank
      | cons c trimmed =>
        have hc : isSpace c = false := SqueezedTexts.head_trimCopy (by rw [htrim]; rfl)
        rw [htrim, hfront] at h
        rw [(List.cons.inj h).1] at hb
        exact absurd (hc.symm.trans hb) false_ne_true
  subst hempty
  cases back with
  | nil => rw [append_nil, nil_append] at hfront; exact hfront.symm
  | cons b back =>
    have hb := (forall_mem_cons.1 hback).1
    rw [nil_append] at hfront
    have hsplit : trimCopy front ++ (b :: back ++ rest) = trimCopy front ++ '#' :: comment := by
      rw [← h, ← append_assoc, ← hfront]
    exact absurd ((List.cons.inj (append_cancel_left hsplit)).1 ▸ hb) hblank

theorem uncommented_iff : Uncommented quotes line (stripTomlComment line) ↔ Plain quotes line := by
  unfold Uncommented Plain stripTomlComment
  rcases beforeComment_cases .outside line with hwhole | ⟨comment, hcut⟩
  · rw [hwhole]
    constructor
    · rintro (h | ⟨comment, h, -⟩)
      · exact ⟨h, .inl rfl⟩
      · have hline : line ++ [] = trimCopy line ++ '#' :: comment := by rwa [append_nil]
        exact ⟨trimCopy_eq_of_comment hline, .inl rfl⟩
    · exact fun h => .inl h.1
  · generalize beforeComment .outside line = front at hcut
    subst hcut
    constructor
    · rintro (h | ⟨comment', h, houtside⟩)
      · have hlength := congrArg List.length h
        obtain ⟨before, back, hfront, -⟩ := trimCopy_blanks front
        have hlength' := congrArg List.length hfront
        simp only [length_append, length_cons] at hlength hlength'
        omega
      · have htrim := trimCopy_eq_of_comment h
        rw [htrim] at houtside
        exact ⟨htrim, .inr houtside⟩
    · rintro ⟨htrim, hwhole | houtside⟩
      · exact absurd (List.self_eq_append_right.1 hwhole) (cons_ne_nil '#' comment)
      · rw [htrim]
        exact .inr ⟨comment, rfl, houtside⟩

theorem keptLines_map_iff : KeptLines quotes lines (lines.map stripTomlComment) ↔
    ∀ i line, lines[i]? = some line → Plain ((lines.take i).foldl behind quotes) line := by
  induction lines generalizing quotes with
  | nil => exact iff_of_true (.nil quotes) fun i line h => (nomatch h)
  | cons line lines ih =>
    constructor
    · intro h i other hother
      cases h with
      | cons _ _ _ _ _ hline hlines =>
        cases i with
        | zero =>
          cases hother
          exact uncommented_iff.1 hline
        | succ i => exact ih.1 hlines i other hother
    · intro h
      exact .cons quotes line _ lines _ (uncommented_iff.2 (h 0 line rfl))
        (ih.2 fun i other hother => h (i + 1) other hother)

theorem newline_notMem_uncommented (hline : '\n' ∉ line) (h : Uncommented quotes line kept) :
    '\n' ∉ kept := by
  rcases h with rfl | ⟨comment, rfl, -⟩
  · exact hline
  · exact fun hmem => hline (mem_append_left _ hmem)

theorem newline_notMem_kept {kept : List Text} (hlines : ∀ line ∈ lines, '\n' ∉ line)
    (h : KeptLines quotes lines kept) : ∀ line ∈ kept, '\n' ∉ line := by
  induction h with
  | nil => exact forall_mem_nil _
  | cons quotes line kept lines rest hline _ ih =>
    obtain ⟨hfirst, hlines⟩ := forall_mem_cons.1 hlines
    exact forall_mem_cons.2 ⟨newline_notMem_uncommented hfirst hline, ih hlines⟩

theorem newline_notMem_strip (hline : '\n' ∉ line) : '\n' ∉ stripTomlComment line := by
  intro hmem
  obtain ⟨front, back, hfront, -⟩ := trimCopy_blanks (beforeComment .outside line)
  have hbefore : '\n' ∈ beforeComment .outside line := by
    rw [hfront]
    exact mem_append_left _ (mem_append_right _ hmem)
  rcases beforeComment_cases .outside line with hwhole | ⟨comment, hcut⟩
  · exact hline (hwhole ▸ hbefore)
  · rw [hcut] at hline
    exact hline (mem_append_left _ hbefore)

theorem lines_inj {xs ys : List Text} (hxs : ∀ x ∈ xs, '\n' ∉ x) (hys : ∀ y ∈ ys, '\n' ∉ y)
    (h : xs.flatMap (fun line => '\n' :: line) = ys.flatMap fun line => '\n' :: line) : xs = ys := by
  have hfirst : ∀ (line : Text) (lines : List Text), '\n' ∉ line →
      (line ++ lines.flatMap fun line => '\n' :: line).takeWhile (· ≠ '\n') = line := by
    intro line lines hline
    have hkeep : ∀ c ∈ line, decide (c ≠ '\n') = true := fun c hc =>
      decide_eq_true fun heq => hline (heq ▸ hc)
    rw [takeWhile_append_of_pos hkeep]
    cases lines with
    | nil => exact append_nil line
    | cons other lines => rw [flatMap_cons, cons_append, takeWhile_cons_of_neg (by simp), append_nil]
  induction xs generalizing ys with
  | nil =>
    cases ys with
    | nil => rfl
    | cons y ys => cases h
  | cons x xs ih =>
    cases ys with
    | nil => cases h
    | cons y ys =>
      obtain ⟨hx, hxs'⟩ := forall_mem_cons.1 hxs
      obtain ⟨hy, hys'⟩ := forall_mem_cons.1 hys
      rw [flatMap_cons, flatMap_cons, cons_append, cons_append, cons_eq_cons] at h
      have hrest := h.2
      have hsame : x = y := by
        rw [← hfirst x xs hx, ← hfirst y ys hy]
        exact congrArg _ hrest
      subst hsame
      rw [ih hxs' hys' (append_cancel_left hrest)]

theorem onlyCommentsRemoved_iff (hlines : ∀ line ∈ lines, '\n' ∉ line)
    (hstops : Stops tomlArrayIsComplete value lines n) :
    OnlyCommentsRemoved value lines (valueAfter value (lines.take n), n) ↔ ReadsPlain value lines := by
  have htaken : ∀ line ∈ lines.take n, '\n' ∉ line := fun line hline =>
    hlines line (mem_of_mem_take hline)
  have hkept : OnlyCommentsRemoved value lines (valueAfter value (lines.take n), n) ↔
      KeptLines (opened value) (lines.take n) ((lines.take n).map stripTomlComment) := by
    constructor
    · rintro ⟨kept, htext, hkept⟩
      rw [valueAfter_eq] at htext
      have hsame := lines_inj
        (fun line hline => by
          obtain ⟨other, hother, rfl⟩ := List.mem_map.1 hline
          exact newline_notMem_strip (htaken other hother))
        (newline_notMem_kept htaken hkept) (append_cancel_left htext)
      rwa [hsame]
    · exact fun h => ⟨_, valueAfter_eq _ _, h⟩
  rw [hkept, keptLines_map_iff]
  constructor
  · intro h i line hline hopen
    have hlength := (List.getElem?_eq_some_iff.1 hline).1
    have hlt : i < n := by
      by_contra hnot
      obtain ⟨hpos, hreached⟩ := hstops.reached (by omega)
      exact absurd ((hopen n hpos (by omega)).symm.trans hreached) false_ne_true
    have htake : (lines.take n)[i]? = some line := by rw [getElem?_take_of_lt hlt, hline]
    have hplain := h i line htake
    rwa [take_take, Nat.min_eq_left (Nat.le_of_lt hlt)] at hplain
  · intro h i line hline
    obtain ⟨hlt, -⟩ := List.getElem?_eq_some_iff.1 hline
    have hlt' : i < n := Nat.lt_of_lt_of_le hlt (length_take_le n lines)
    rw [getElem?_take_of_lt hlt'] at hline
    rw [take_take, Nat.min_eq_left (Nat.le_of_lt hlt')]
    exact h i line hline fun m hpos hle => hstops.before m hpos (by omega)

/-- A value is collected whole if and only if the loop ends where it should, and only comments are
removed if and only if the lines that are read are plain. -/
theorem collectMultilineTomlValue_iff (value : Text) (lines : List Text)
    (hincomplete : tomlValueIsComplete value = false) (hlines : ∀ line ∈ lines, '\n' ∉ line) :
    (CollectedWhole value lines (collectMultilineTomlValue value lines) ↔ ExitsWhole value lines) ∧
      (OnlyCommentsRemoved value lines (collectMultilineTomlValue value lines) ↔
        ReadsPlain value lines) := by
  obtain ⟨hstops, htext⟩ := collectLines_stops value lines
  have hcollect : collectMultilineTomlValue value lines =
      (valueAfter value (lines.take (collectLines value lines).2), (collectLines value lines).2) := by
    rw [collectMultilineTomlValue, hincomplete, ← htext]
    rfl
  rw [hcollect]
  refine ⟨?_, onlyCommentsRemoved_iff hlines hstops⟩
  rw [collectedWhole_iff hincomplete hstops.le, stops_iff_agree hstops, agree_iff_exits hincomplete]

theorem array_collected : CollectedWhole "[".toList ["1,# one".toList, "2]".toList]
      (collectMultilineTomlValue "[".toList ["1,# one".toList, "2]".toList]) ∧
    OnlyCommentsRemoved "[".toList ["1,# one".toList, "2]".toList]
      (collectMultilineTomlValue "[".toList ["1,# one".toList, "2]".toList]) := by
  obtain ⟨hwhole, honly⟩ := collectMultilineTomlValue_iff "[".toList ["1,# one".toList, "2]".toList]
    (by decide) (by decide)
  refine ⟨hwhole.2 trivial, honly.2 ?_⟩
  rintro (_ | _ | i) line hline -
  · cases hline
    exact ⟨by decide, .inr (by decide)⟩
  · cases hline
    exact ⟨by decide, .inl (by decide)⟩
  · cases hline

/-- A string that goes on over two more lines is cut behind the first of them. -/
theorem not_collectMultilineTomlValue_whole :
    ¬ ∀ (value : Text) (lines : List Text), tomlValueIsComplete value = false →
      (∀ line ∈ lines, '\n' ∉ line) →
        CollectedWhole value lines (collectMultilineTomlValue value lines) ∧
          OnlyCommentsRemoved value lines (collectMultilineTomlValue value lines) := by
  intro hclaim
  have hwhole := (hclaim "\"a".toList ["b".toList, "c\"".toList] (by decide) (by decide)).1
  rcases hwhole.complete with hcomplete | hall
  · exact absurd hcomplete (by decide)
  · exact absurd hall (by decide)

end Mlang.MultilineValues
