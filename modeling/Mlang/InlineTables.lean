import Mlang.ClosedTexts
import Mlang.ManifestScans
import Mlang.MultilineValues

namespace Mlang.InlineTables

open BracketedText (Text Tight isSpace trimCopy commaSeparated)
open OrderedTables DependencyLocks TomlText ManifestDependencies LockFiles LockRoundTrip SqueezedTexts List
open ClosedTexts ManifestScans Option

def flagText (value : Bool) : Text := if value then "true".toList else "false".toList

def arrayText (parts : List Text) : Text := '[' :: commaSeparated parts ++ [']']

structure InlineDependency where
  name : Text
  path : Text
  version : Text
  features : List Text
  optional : Bool
  defaultFeatures : Bool
  deriving DecidableEq

variable (d : InlineDependency)

def InlineDependency.entries : List (Text × Text) :=
  [("path".toList, lockQuote d.path), ("version".toList, lockQuote d.version),
    ("features".toList, arrayText (d.features.map lockQuote)),
    ("optional".toList, flagText d.optional),
    ("default_features".toList, flagText d.defaultFeatures)]

def tableText (entries : List (Text × Text)) : Text :=
  '{' :: ' ' :: (commaSeparated (entries.map fun entry => assignmentLine entry.1 entry.2) ++ [' ', '}'])

def inlineLine (name : Text) (entries : List (Text × Text)) : Text :=
  assignmentLine name (tableText entries)

structure DependencyName (name : Text) : Prop where
  tight : Tight name
  plain : ∀ c ∈ name, c ≠ '"' ∧ c ≠ '\'' ∧ c ≠ '=' ∧ c ≠ '#' ∧ c ≠ '{'

def ReadAsOne (content : Text) (before after : List Text) (line : Text) : Prop :=
  ∃ dep, parseSourceDeps content = depsBefore before (line :: after) ++
      dep :: depsAfter ⟨0, "dependencies".toList⟩ after ∧
    dep.name = d.name ∧ dep.path = d.path ∧ dep.versionRequirement = d.version ∧
    dep.features = d.features ∧ dep.optional = d.optional ∧ dep.defaultFeatures = d.defaultFeatures

variable {parts : List Text}

def lastClosed : List Text → List Text
  | [] => []
  | [part] => [part ++ [']']]
  | part :: next :: parts => part :: lastClosed (next :: parts)

def firstPart : List Text → Text
  | [] => ['[', ']']
  | [part] => '[' :: (part ++ [']'])
  | part :: _ :: _ => '[' :: part

def otherParts : List Text → List Text
  | _ :: next :: parts => lastClosed (next :: parts)
  | _ => []

theorem lastClosed_ne_nil (part : Text) (parts : List Text) : lastClosed (part :: parts) ≠ [] := by
  cases parts with
  | nil => exact cons_ne_nil _ _
  | cons next parts => exact cons_ne_nil _ _

theorem commaSeparated_lastClosed (part : Text) (parts : List Text) :
    commaSeparated (lastClosed (part :: parts)) = commaSeparated (part :: parts) ++ [']'] := by
  induction parts generalizing part with
  | nil => rfl
  | cons next parts ih =>
    have hsplit := commaSeparated_append (cons_ne_nil part []) (lastClosed_ne_nil next parts)
    rw [lastClosed, ← singleton_append, hsplit, ih next]
    simp [commaSeparated]

theorem commaSeparated_parts (key : Text) (parts : List Text) :
    commaSeparated (assignmentLine key (firstPart parts) :: otherParts parts) =
      assignmentLine key (arrayText parts) := by
  cases parts with
  | nil => rfl
  | cons part parts =>
    cases parts with
    | nil => rfl
    | cons next parts =>
      have hsplit := commaSeparated_append
        (cons_ne_nil (assignmentLine key (firstPart (part :: next :: parts))) [])
        (lastClosed_ne_nil next parts)
      rw [otherParts, ← singleton_append, hsplit, commaSeparated_lastClosed]
      simp [assignmentLine, firstPart, arrayText, commaSeparated]

variable {allowed : Char → Prop}

theorem piece_lastClosed (hbracket : allowed ']') (h : ∀ part ∈ parts, Piece allowed part ∧
    part.head? = some '"') : ∀ part ∈ lastClosed parts, Piece allowed part ∧ part.head? = some '"' := by
  have hclosed : Closed allowed .outside [']'] := ⟨fun _ => hbracket, rfl⟩
  have htight : Tight [']'] := BracketedText.tight_of_forall (cons_ne_nil _ _) (by decide)
  induction parts with
  | nil => exact fun _ hpart => absurd hpart not_mem_nil
  | cons part parts ih =>
    obtain ⟨⟨hpart, hhead⟩, hparts⟩ := forall_mem_cons.1 h
    cases parts with
    | nil =>
      intro last hlast
      obtain rfl := mem_singleton.1 hlast
      refine ⟨⟨hpart.tight.append htight, hpart.closed.append hclosed⟩, ?_⟩
      rw [head?_append_of_ne_nil _ hpart.tight.ne_nil, hhead]
    | cons next parts =>
      exact forall_mem_cons.2 ⟨⟨hpart, hhead⟩, ih hparts⟩

theorem piece_otherParts (hbracket : allowed ']') (h : ∀ part ∈ parts, Piece allowed part ∧
    part.head? = some '"') : ∀ part ∈ otherParts parts, Piece allowed part ∧ part.head? = some '"' := by
  cases parts with
  | nil => exact fun _ hpart => absurd hpart not_mem_nil
  | cons part parts =>
    cases parts with
    | nil => exact fun _ hpart => absurd hpart not_mem_nil
    | cons next parts =>
      exact piece_lastClosed hbracket fun part hpart => h part (mem_cons_of_mem _ hpart)

theorem piece_firstPart (hopen : allowed '[') (hbracket : allowed ']')
    (h : ∀ part ∈ parts, Piece allowed part) : Piece allowed (firstPart parts) := by
  have hsurround : ∀ {text : Text}, Closed allowed .outside text →
      Closed allowed .outside ('[' :: (text ++ [']'])) := by
    intro text htext
    exact ⟨fun _ => hopen, htext.append ⟨fun _ => hbracket, rfl⟩⟩
  cases parts with
  | nil => exact ⟨BracketedText.tight_of_forall (cons_ne_nil _ _) (by decide),
          fun _ => hopen, fun _ => hbracket, rfl⟩
  | cons part parts =>
    have hpart := h part mem_cons_self
    cases parts with
    | nil =>
      exact ⟨Tight.surround (o := '[') (c := ']') (by decide) (by decide), hsurround hpart.closed⟩
    | cons next parts =>
      have htight : Tight ['['] := BracketedText.tight_of_forall (cons_ne_nil _ _) (by decide)
      exact ⟨htight.append hpart.tight, fun _ => hopen, hpart.closed⟩

variable {d : InlineDependency} {entries : List (Text × Text)} {key : Text} {entry : Text × Text}

def InTable (c : Char) : Prop := c ≠ ',' ∧ c ≠ '{' ∧ c ≠ '}' ∧ c ≠ '#'

instance (c : Char) : Decidable (InTable c) := inferInstanceAs (Decidable (_ ∧ _))

def tableKeys : List Text :=
  ["path".toList, "version".toList, "features".toList, "optional".toList, "default_features".toList]

theorem plain_tableKeys : ∀ key ∈ tableKeys, key ≠ [] ∧
    ∀ c ∈ key, isSpace c = false ∧ InTable c ∧ c ≠ '"' ∧ c ≠ '\'' ∧ c ≠ '=' := by
  decide

theorem nodup_entries : (d.entries.map Prod.fst).Nodup :=
  show tableKeys.Nodup by decide

theorem key_of_mem (h : entry ∈ d.entries) : entry.1 ∈ tableKeys :=
  mem_map_of_mem (f := Prod.fst) h

def InlineDependency.value (d : InlineDependency) (entry : Text × Text) : Text :=
  if entry.1 = "features".toList then firstPart (d.features.map lockQuote) else entry.2

theorem InlineDependency.value_features (text : Text) :
    d.value ("features".toList, text) = firstPart (d.features.map lockQuote) :=
  if_pos rfl

theorem InlineDependency.value_other (hkey : key ≠ "features".toList) (text : Text) :
    d.value (key, text) = text :=
  if_neg hkey

def InlineDependency.others (d : InlineDependency) (entry : Text × Text) : List Text :=
  if entry.1 = "features".toList then otherParts (d.features.map lockQuote) else []

def InlineDependency.pieces (d : InlineDependency) (entry : Text × Text) : List Text :=
  assignmentLine entry.1 (d.value entry) :: d.others entry

theorem features_of_mem (h : entry ∈ d.entries) (hkey : entry.1 = "features".toList) :
    entry.2 = arrayText (d.features.map lockQuote) := by
  have hmem : ("features".toList, arrayText (d.features.map lockQuote)) ∈ d.entries := by
    simp only [InlineDependency.entries, mem_cons, true_or, or_true]
  rw [eq_of_mem nodup_entries h hmem hkey]

theorem other_of_mem (h : entry ∈ d.entries) (hkey : entry.1 ≠ "features".toList) :
    (∃ value, entry.2 = lockQuote value) ∨ ∃ value, entry.2 = flagText value := by
  simp only [InlineDependency.entries, mem_cons, not_mem_nil, or_false] at h
  rcases h with rfl | rfl | rfl | rfl | rfl
  · exact .inl ⟨_, rfl⟩
  · exact .inl ⟨_, rfl⟩
  · exact absurd rfl hkey
  · exact .inr ⟨_, rfl⟩
  · exact .inr ⟨_, rfl⟩

theorem commaSeparated_pieces (h : entry ∈ d.entries) :
    commaSeparated (d.pieces entry) = assignmentLine entry.1 entry.2 := by
  rw [InlineDependency.pieces, InlineDependency.value, InlineDependency.others]
  by_cases hkey : entry.1 = "features".toList
  · rw [if_pos hkey, if_pos hkey, commaSeparated_parts, features_of_mem h hkey]
  · rw [if_neg hkey, if_neg hkey, commaSeparated]

theorem piece_lockQuote (value : Text) : Piece InTable (lockQuote value) :=
  ⟨tight_lockQuote value, closed_lockQuote (by decide) value⟩

theorem piece_flagText (value : Bool) : Piece InTable (flagText value) := by
  cases value with
  | false => exact ⟨BracketedText.tight_of_forall (by decide) (by decide), closed_of_forall (by decide)⟩
  | true => exact ⟨BracketedText.tight_of_forall (by decide) (by decide), closed_of_forall (by decide)⟩

theorem piece_features : ∀ part ∈ d.features.map lockQuote,
    Piece InTable part ∧ part.head? = some '"' := by
  intro part hpart
  obtain ⟨feature, -, rfl⟩ := mem_map.1 hpart
  exact ⟨piece_lockQuote feature, rfl⟩

theorem piece_value (h : entry ∈ d.entries) : Piece InTable (d.value entry) := by
  rw [InlineDependency.value]
  by_cases hkey : entry.1 = "features".toList
  · rw [if_pos hkey]
    exact piece_firstPart (by decide) (by decide) fun part hpart => (piece_features part hpart).1
  · rw [if_neg hkey]
    rcases other_of_mem h hkey with ⟨value, hvalue⟩ | ⟨value, hvalue⟩
    · exact hvalue ▸ piece_lockQuote value
    · exact hvalue ▸ piece_flagText value

theorem piece_assignmentLine {value : Text} (hkey : key ∈ tableKeys) (hvalue : Piece InTable value) :
    Piece InTable (assignmentLine key value) := by
  obtain ⟨hne, hplain⟩ := plain_tableKeys key hkey
  have htight := BracketedText.tight_of_forall hne fun c hc => (hplain c hc).1
  refine ⟨htight.between hvalue.tight _, Closed.append (Closed.append ?_ ?_) hvalue.closed⟩
  · exact closed_of_forall fun c hc => ⟨(hplain c hc).2.1, (hplain c hc).2.2.1, (hplain c hc).2.2.2.1⟩
  · exact closed_of_forall (by decide)

theorem piece_others (entry : Text × Text) : ∀ part ∈ d.others entry,
    Piece InTable part ∧ part.head? = some '"' := by
  rw [InlineDependency.others]
  split_ifs
  · exact piece_otherParts (by decide) piece_features
  · exact fun _ hpart => absurd hpart not_mem_nil

theorem piece_pieces (hentries : ∀ entry ∈ entries, entry ∈ d.entries) :
    ∀ part ∈ entries.flatMap d.pieces, Piece InTable part := by
  intro part hpart
  obtain ⟨entry, hentry, hpart⟩ := mem_flatMap.1 hpart
  have hmem := hentries entry hentry
  rcases mem_cons.1 hpart with rfl | hpart
  · exact piece_assignmentLine (key_of_mem hmem) (piece_value hmem)
  · exact (piece_others entry part hpart).1

theorem tableText_eq (hentries : ∀ entry ∈ entries, entry ∈ d.entries) : tableText entries =
    '{' :: (' ' :: (commaSeparated (entries.flatMap d.pieces) ++ [' '])) ++ ['}'] := by
  have hpieces := commaSeparated_flatMap
    (fun entry : Text × Text => assignmentLine entry.1 entry.2) d.pieces
    (fun entry _ => cons_ne_nil _ _) fun entry hentry => commaSeparated_pieces (hentries entry hentry)
  rw [tableText, ← hpieces]
  simp

theorem splitCsv_table (hne : entries ≠ []) (hentries : ∀ entry ∈ entries, entry ∈ d.entries) :
    splitCsv (' ' :: (commaSeparated (entries.flatMap d.pieces) ++ [' '])) =
      entries.flatMap d.pieces := by
  have hpieces := piece_pieces hentries
  obtain ⟨entry, entries, rfl⟩ := exists_cons_of_ne_nil hne
  rw [flatMap_cons, InlineDependency.pieces, cons_append] at hpieces ⊢
  obtain ⟨hpiece, hpieces⟩ := forall_mem_cons.1 hpieces
  rw [splitCsv, splitCommas, if_pos rfl, if_neg (by decide)]
  refine splitCommas_commaSeparated (fun c hc => ?_) (fun h => h.1 rfl) rfl rfl hpiece hpieces
  rw [if_neg hc.2.1, if_neg hc.2.2.1]

variable {c : Char} {front name : Text} {value part : Text} {kv : Table Text Text}

def binding (part : Text) : Option (Text × Text) :=
  if '=' ∈ part then
    some (trimCopy (part.takeWhile (· ≠ '=')), unquote (part.dropWhile (· ≠ '=')).tail)
  else none

def bind (kv : Table Text Text) (part : Text) : Table Text Text :=
  (binding part).elim kv fun bound => insert (fun a b => a < b) kv bound.1 bound.2

theorem parseInlineTable_eq (line : Text) :
    parseInlineTable line = (splitCsv ((betweenBraces line).getD [])).foldl bind [] := by
  have hbind : bind = fun kv part =>
      if '=' ∈ part then
        insert (fun a b => a < b) kv (trimCopy (part.takeWhile (· ≠ '=')))
          (unquote (part.dropWhile (· ≠ '=')).tail)
      else kv := by
    funext kv part
    rw [bind, binding]
    by_cases hpart : '=' ∈ part
    · rw [if_pos hpart, if_pos hpart]
      rfl
    · rw [if_neg hpart, if_neg hpart]
      rfl
  rw [hbind]
  rfl

theorem find_bind (h : binding part = some (key, value)) : find (bind kv part) key = some value := by
  rw [bind, h, elim_some, find_insert, if_pos rfl]

theorem find_bind_other (h : ∀ value, binding part ≠ some (key, value)) :
    find (bind kv part) key = find kv key := by
  rw [bind]
  cases hbinding : binding part with
  | none => rfl
  | some bound =>
    have hkey : key ≠ bound.1 := fun hkey => h bound.2 (by rw [hbinding, hkey])
    rw [elim_some, find_insert, if_neg hkey]

theorem find_bindings (hone : ∀ part ∈ parts, ∀ value', binding part = some (key, value') → value' = value)
    (h : find kv key = some value ∨ ∃ part ∈ parts, binding part = some (key, value)) :
    find (parts.foldl bind kv) key = some value := by
  induction parts generalizing kv with
  | nil =>
    rcases h with h | ⟨part, hpart, -⟩
    · exact h
    · exact absurd hpart not_mem_nil
  | cons part parts ih =>
    obtain ⟨hpart, hparts⟩ := forall_mem_cons.1 hone
    rw [foldl_cons]
    refine ih hparts ?_
    by_cases hbound : ∃ value', binding part = some (key, value')
    · obtain ⟨value', hvalue'⟩ := hbound
      obtain rfl := hpart value' hvalue'
      exact .inl (find_bind hvalue')
    · rw [find_bind_other fun value' hvalue' => hbound ⟨value', hvalue'⟩]
      rcases h with h | ⟨part', hmem, hpart'⟩
      · exact .inl h
      · rcases mem_cons.1 hmem with rfl | hmem
        · exact absurd ⟨value, hpart'⟩ hbound
        · exact .inr ⟨part', hmem, hpart'⟩

theorem unquote_blank (value : Text) : unquote (' ' :: value) = unquote value := by
  rw [unquote, unquote, BracketedText.trimCopy_cons (by decide)]

theorem takeWhile_ne (hfront : c ∉ front) (rest : Text) : (front ++ c :: rest).takeWhile (· ≠ c) = front := by
  have hall : ∀ b ∈ front, decide (b ≠ c) = true :=
    fun b hb => decide_eq_true (ne_of_mem_of_not_mem hb hfront)
  rw [takeWhile_append_of_pos hall, takeWhile_cons_of_neg (by simp), append_nil]

theorem dropWhile_ne (hfront : c ∉ front) (rest : Text) :
    (front ++ c :: rest).dropWhile (· ≠ c) = c :: rest := by
  have hall : ∀ b ∈ front, decide (b ≠ c) = true :=
    fun b hb => decide_eq_true (ne_of_mem_of_not_mem hb hfront)
  rw [dropWhile_append_of_pos hall, dropWhile_cons_of_neg (by simp)]

theorem assignmentLine_eq (key value : Text) :
    assignmentLine key value = (key ++ [' ']) ++ '=' :: (' ' :: value) := by
  simp [assignmentLine]

theorem binding_assignmentLine (hkey : key ∈ tableKeys) (value : Text) :
    binding (assignmentLine key value) = some (key, unquote value) := by
  obtain ⟨hne, hplain⟩ := plain_tableKeys key hkey
  have hfront : '=' ∉ key ++ [' '] := by
    intro hmem
    rcases mem_append.1 hmem with hmem | hmem
    · exact (hplain _ hmem).2.2.2.2 rfl
    · exact absurd hmem (by decide)
  have htight := BracketedText.tight_of_forall hne fun c hc => (hplain c hc).1
  rw [binding, assignmentLine_eq, if_pos (mem_append_right _ mem_cons_self),
    takeWhile_ne hfront, dropWhile_ne hfront, BracketedText.trimCopy_concat (by decide), htight.trimCopy,
    tail_cons, unquote_blank]

theorem head_of_binding (hpart : part.head? = some '"') (h : binding part = some (key, value)) :
    key.head? = some '"' := by
  obtain ⟨rest, rfl⟩ := head?_eq_some_iff.1 hpart
  rw [binding] at h
  split_ifs at h
  obtain ⟨rfl, -⟩ := Prod.mk.inj (some.inj h)
  rw [takeWhile_cons_of_pos (by decide), trimCopy, dropWhile_cons_of_neg (by decide),
    MultilineValues.rdropWhile_cons (by decide)]
  rfl

theorem betweenBraces_inlineLine
    (hname : '{' ∉ name) (hentries : ∀ entry ∈ entries, entry ∈ d.entries) : betweenBraces (inlineLine name
      entries) = some (' ' :: (commaSeparated (entries.flatMap d.pieces) ++ [' '])) := by
  have hfront : '{' ∉ name ++ " = ".toList := by
    intro hmem
    rcases mem_append.1 hmem with hmem | hmem
    · exact hname hmem
    · exact absurd hmem (by decide)
  rw [inlineLine, assignmentLine, tableText_eq hentries, betweenBraces, cons_append,
    dropWhile_ne hfront, tail_cons, if_pos (mem_append_right _ mem_cons_self),
    rdropWhile_concat_neg _ _ _ (by decide), dropLast_concat]

theorem find_inlineLine
    (hname : '{' ∉ name) (hentries : entries.Perm d.entries) (h : entry ∈ d.entries) : find (parseInlineTable
      (inlineLine name entries)) entry.1 = some (unquote (d.value entry)) := by
  have hsub : ∀ entry ∈ entries, entry ∈ d.entries := fun entry hentry => hentries.subset hentry
  have hne : entries ≠ [] := ne_nil_of_mem (hentries.symm.subset h)
  rw [parseInlineTable_eq, betweenBraces_inlineLine hname hsub, getD_some, splitCsv_table hne hsub]
  refine find_bindings (fun part hpart value' hvalue' => ?_) (.inr ?_)
  · obtain ⟨entry', hentry', hpart⟩ := mem_flatMap.1 hpart
    rcases mem_cons.1 hpart with rfl | hpart
    · rw [binding_assignmentLine (key_of_mem (hsub entry' hentry'))] at hvalue'
      obtain ⟨hkey, rfl⟩ := Prod.mk.inj (some.inj hvalue')
      rw [eq_of_mem nodup_entries (hsub entry' hentry') h hkey]
    · have hquote := head_of_binding (piece_others entry' part hpart).2 hvalue'
      have hplain := (plain_tableKeys entry.1 (key_of_mem h)).2 '"' (mem_of_head? hquote)
      exact absurd rfl hplain.2.2.1
  · refine ⟨assignmentLine entry.1 (d.value entry), ?_, binding_assignmentLine (key_of_mem h) _⟩
    exact mem_flatMap.2 ⟨entry, hentries.symm.subset h, mem_cons_self⟩

end Mlang.InlineTables
