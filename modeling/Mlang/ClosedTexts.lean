import Mlang.LockRoundTrip

namespace Mlang.ClosedTexts

open BracketedText (Text Tight isSpace trimCopy commaSeparated)
open TomlText LockFiles LockRoundTrip List

/-- Outside of its quotes a text has only characters that are allowed, and it ends there. -/
def Closed (allowed : Char → Prop) : Quotes → Text → Prop
  | quotes, [] => quotes = .outside
  | quotes, c :: rest => (quotes = .outside → allowed c) ∧ Closed allowed (quotes.step c) rest

variable {allowed : Char → Prop} {quotes : Quotes} {text rest : Text}

theorem Closed.append (h : Closed allowed quotes text) (h' : Closed allowed .outside rest) :
    Closed allowed quotes (text ++ rest) := by
  induction text generalizing quotes with
  | nil =>
    obtain rfl : quotes = .outside := h
    exact h'
  | cons c text ih => exact ⟨h.1, ih h.2⟩

theorem Closed.mono {allowed' : Char → Prop} (h : Closed allowed quotes text)
    (hle : ∀ c, allowed c → allowed' c) : Closed allowed' quotes text := by
  induction text generalizing quotes with
  | nil => exact h
  | cons c text ih => exact ⟨fun hquotes => hle c (h.1 hquotes), ih h.2⟩

theorem closed_of_forall (h : ∀ c ∈ text, allowed c ∧ c ≠ '"' ∧ c ≠ '\'') :
    Closed allowed .outside text := by
  induction text with
  | nil => exact rfl
  | cons c text ih =>
    obtain ⟨⟨hallowed, hdouble, hsingle⟩, htext⟩ := forall_mem_cons.1 h
    refine ⟨fun _ => hallowed, ?_⟩
    rw [step_outside hdouble hsingle]
    exact ih htext

theorem closed_escaped (c : Char) (h : Closed allowed (.double false) rest) :
    Closed allowed (.double false) (escaped c ++ rest) := by
  rcases escaped_cases c with ⟨hc, -⟩ | ⟨hc, -⟩ | ⟨hc, hslash, hquote, -⟩
  · rw [hc]
    exact ⟨nofun, nofun, h⟩
  · rw [hc]
    exact ⟨nofun, nofun, h⟩
  · rw [hc, singleton_append]
    refine ⟨nofun, ?_⟩
    rw [Quotes.step, if_neg hslash, if_neg hquote]
    exact h

theorem closed_lockQuote (hquote : allowed '"') (value : Text) :
    Closed allowed .outside (lockQuote value) := by
  rw [lockQuote_eq]
  refine ⟨fun _ => hquote, ?_⟩
  show Closed allowed (.double false) _
  induction value with
  | nil => exact ⟨nofun, rfl⟩
  | cons c value ih =>
    rw [flatMap_cons, append_assoc]
    exact closed_escaped c ih

theorem Closed.beforeComment (h : Closed (· ≠ '#') quotes text) (rest : Text) :
    beforeComment quotes (text ++ rest) = text ++ beforeComment .outside rest := by
  induction text generalizing quotes with
  | nil =>
    obtain rfl : quotes = .outside := h
    rfl
  | cons c text ih =>
    rw [cons_append, TomlText.beforeComment, if_neg fun hc => h.1 hc.1 hc.2, ih h.2, cons_append]

theorem Closed.splitCommas {depthAfter : Int → Char → Int} (h : Closed allowed quotes text)
    (hdepth : ∀ c, allowed c → depthAfter 0 c = 0) (hcomma : ¬ allowed ',') (part rest : Text) :
    splitCommas depthAfter quotes 0 part (text ++ rest) =
      splitCommas depthAfter .outside 0 (part ++ text) rest := by
  induction text generalizing quotes part with
  | nil =>
    obtain rfl : quotes = .outside := h
    rw [append_nil, nil_append]
  | cons c text ih =>
    have hstay : (if quotes = .outside then depthAfter 0 c else 0) = 0 := by
      split_ifs with hquotes
      · exact hdepth c (h.1 hquotes)
      · rfl
    have hpart : ¬ (quotes = .outside ∧ c = ',' ∧ (0 : Int) = 0) := by
      rintro ⟨hquotes, rfl, -⟩
      exact hcomma (h.1 hquotes)
    rw [cons_append, TomlText.splitCommas, hstay, if_neg hpart, ih h.2, append_assoc, singleton_append]

variable {depthAfter : Int → Char → Int} {piece : Text} {pieces : List Text}

structure Piece (allowed : Char → Prop) (text : Text) : Prop where
  tight : Tight text
  closed : Closed allowed .outside text

theorem splitCommas_commaSeparated (hdepth : ∀ c, allowed c → depthAfter 0 c = 0)
    (hcomma : ¬ allowed ',') (hspace : depthAfter 0 ' ' = 0) (hseparator : depthAfter 0 ',' = 0)
    (hpiece : Piece allowed piece) (hpieces : ∀ piece ∈ pieces, Piece allowed piece) :
    splitCommas depthAfter .outside 0 [' '] (commaSeparated (piece :: pieces) ++ [' ']) =
      piece :: pieces := by
  have hblank : ∀ part rest, splitCommas depthAfter .outside 0 part (' ' :: rest) =
      splitCommas depthAfter .outside 0 (part ++ [' ']) rest := by
    intro part rest
    rw [splitCommas, if_pos rfl, hspace, if_neg (by decide)]
    rfl
  have htrim : ∀ {text : Text}, Tight text → trimCopy ([' '] ++ text) = text := by
    intro text htext
    rw [singleton_append, BracketedText.trimCopy_cons (by decide), htext.trimCopy]
  induction pieces generalizing piece with
  | nil =>
    rw [commaSeparated, hpiece.closed.splitCommas hdepth hcomma, hblank, splitCommas,
      if_neg (append_ne_nil_of_right_ne_nil _ (cons_ne_nil _ _)),
      BracketedText.trimCopy_concat (by decide), htrim hpiece.tight]
  | cons next pieces ih =>
    obtain ⟨hnext, hpieces⟩ := forall_mem_cons.1 hpieces
    have hread := hpiece.closed.splitCommas hdepth hcomma [' ']
      (',' :: ' ' :: (commaSeparated (next :: pieces) ++ [' ']))
    rw [commaSeparated, append_assoc, cons_append, cons_append, hread, splitCommas,
      if_pos rfl, hseparator, if_pos ⟨rfl, rfl, rfl⟩, htrim hpiece.tight, hblank, nil_append,
      ih hnext hpieces]

theorem commaSeparated_append {pieces pieces' : List Text} (hne : pieces ≠ []) (hne' : pieces' ≠ []) :
    commaSeparated (pieces ++ pieces') =
      commaSeparated pieces ++ ',' :: ' ' :: commaSeparated pieces' := by
  induction pieces with
  | nil => exact absurd rfl hne
  | cons piece pieces ih =>
    cases pieces with
    | nil =>
      obtain ⟨next, rest, rfl⟩ := exists_cons_of_ne_nil hne'
      rfl
    | cons next pieces =>
      have ih := ih (cons_ne_nil _ _)
      rw [cons_append, cons_append, commaSeparated, commaSeparated, ← cons_append, ih, append_assoc]
      rfl

theorem commaSeparated_flatMap {α : Type} (text : α → Text) (parts : α → List Text) {entries : List α}
    (hne : ∀ entry ∈ entries, parts entry ≠ [])
    (h : ∀ entry ∈ entries, commaSeparated (parts entry) = text entry) :
    commaSeparated (entries.flatMap parts) = commaSeparated (entries.map text) := by
  induction entries with
  | nil => rfl
  | cons entry entries ih =>
    obtain ⟨hentry, hentries⟩ := forall_mem_cons.1 h
    obtain ⟨hneEntry, hneEntries⟩ := forall_mem_cons.1 hne
    have ih := ih hneEntries hentries
    cases entries with
    | nil => rw [flatMap_cons, flatMap_nil, append_nil, hentry]; rfl
    | cons next entries =>
      have hrest : (next :: entries).flatMap parts ≠ [] := by
        rw [flatMap_cons]
        exact append_ne_nil_of_left_ne_nil (hneEntries next mem_cons_self) _
      rw [flatMap_cons, commaSeparated_append hneEntry hrest, hentry, ih]
      rfl

end Mlang.ClosedTexts
