import Mlang.BracketedText
import Mlang.FiniteMaps
import Mlang.LinePositions

namespace Mlang.IncrementalDocuments

open BracketedText (Text)
open FiniteMaps LinePositions

structure Position where
  line : Int
  character : Int
  deriving DecidableEq

structure Range where
  start : Position
  stop : Position
  deriving DecidableEq

structure IncrementalTextChange where
  text : Text
  range : Option Range
  deriving DecidableEq

def lspPositionToOffset (text : Text) (position : Position) : Option Nat :=
  if position.line < 0 ∨ position.character < 0 then none
  else
    match skipLines '\n' text position.line.toNat 0 with
    | none => none
    | some offset =>
      let lineEnd := (findFrom '\n' text offset).getD text.length
      let lineLen := lineEnd - offset
      if position.character.toNat > lineLen then none else some (offset + position.character.toNat)

def applyChangeToText (text : Text) (change : IncrementalTextChange) : Option Text :=
  match change.range with
  | none => some change.text
  | some range =>
    match lspPositionToOffset text range.start, lspPositionToOffset text range.stop with
    | some start, some stop =>
      if start > stop ∨ stop > text.length then none
      else some (text.take start ++ change.text ++ text.drop stop)
    | _, _ => none

def applyChangesToText : Text → List IncrementalTextChange → Text × Bool
  | text, [] => (text, true)
  | text, change :: changes =>
    match applyChangeToText text change with
    | none => (text, false)
    | some text' => applyChangesToText text' changes

inductive ScanState
  | code
  | string
  | lineComment
  | blockComment
  deriving DecidableEq

def closingFor : Char → Option Char
  | '\x7b' => some '\x7d'
  | '[' => some ']'
  | '(' => some ')'
  | _ => none

def scan : ScanState → List Char → Text → ScanState × List Char
  | state, openers, [] => (state, openers)
  | .code, openers, '"' :: text => scan .string openers text
  | .code, openers, '/' :: '/' :: text => scan .lineComment openers text
  | .code, openers, '/' :: '*' :: text => scan .blockComment openers text
  | .code, openers, c :: text =>
    if (closingFor c).isSome then scan .code (c :: openers) text
    else if c = '\x7d' ∨ c = ']' ∨ c = ')' then
      match openers with
      | opener :: rest =>
        if closingFor opener = some c then scan .code rest text else scan .code (opener :: rest) text
      | [] => scan .code [] text
    else scan .code openers text
  | .string, openers, '\\' :: _ :: text => scan .string openers text
  | .string, openers, c :: text => scan (if c = '"' then .code else .string) openers text
  | .lineComment, openers, c :: text => scan (if c = '\n' then .code else .lineComment) openers text
  | .blockComment, openers, '*' :: '/' :: text => scan .code openers text
  | .blockComment, openers, _ :: text => scan .blockComment openers text

def recoverySuffixFor (text : Text) : Text :=
  let (state, openers) := scan .code [] text
  let ends : Text :=
    match state with
    | .string => ['"']
    | .blockComment => ['*', '/']
    | _ => []
  ends ++ openers.filterMap closingFor

inductive ParseRecoveryKind
  | none
  | delimiterClosure
  | lastGoodAst
  deriving DecidableEq

structure IncrementalDocument (Ast : Type) where
  uri : Text
  path : Text
  text : Text
  version : Int
  ast : Option Ast
  lastGoodAst : Option Ast
  parseSuccess : Bool
  usedRecovery : Bool
  recoveryKind : ParseRecoveryKind

structure IncrementalCompiler (Ast Parser : Type) where
  documents : FiniteMap Text (IncrementalDocument Ast)
  parser : Parser

variable {Ast Parser : Type} (parseText : Parser → Text → Option Ast × Parser)

def withLastGoodAst (doc : IncrementalDocument Ast) : IncrementalDocument Ast :=
  match doc.lastGoodAst with
  | some ast => { doc with ast := some ast, usedRecovery := true, recoveryKind := .lastGoodAst }
  | none => doc

def parseRecovered (parser : Parser) (doc : IncrementalDocument Ast) :
    IncrementalDocument Ast × Parser :=
  let suffix := recoverySuffixFor doc.text
  if suffix = [] then (withLastGoodAst doc, parser)
  else
    match parseText parser (doc.text ++ suffix) with
    | (some ast, parser) =>
      ({ doc with
          ast := some ast, lastGoodAst := some ast, parseSuccess := true, usedRecovery := true
          recoveryKind := .delimiterClosure }, parser)
    | (none, parser) => (withLastGoodAst doc, parser)

def parseDocument (parser : Parser) (doc : IncrementalDocument Ast) :
    IncrementalDocument Ast × Parser :=
  let doc := { doc with ast := none, parseSuccess := false, usedRecovery := false, recoveryKind := .none }
  match parseText parser doc.text with
  | (some ast, parser) => ({ doc with ast := some ast, lastGoodAst := some ast, parseSuccess := true }, parser)
  | (none, parser) => parseRecovered parseText parser doc

def applyChanges (c : IncrementalCompiler Ast Parser) (uri : Text)
    (changes : List IncrementalTextChange) (version : Int) : IncrementalCompiler Ast Parser × Bool :=
  match c.documents.lookup uri with
  | none => (c, false)
  | some doc =>
    match applyChangesToText doc.text changes with
    | (text, false) => ({ c with documents := c.documents.insert uri { doc with text := text } }, false)
    | (text, true) =>
      let (parsed, parser) := parseDocument parseText c.parser
        { doc with text := text, version := if version ≥ 0 then version else doc.version }
      ({ documents := c.documents.insert uri parsed, parser := parser }, parsed.ast.isSome)

end Mlang.IncrementalDocuments

namespace Mlang.EditBatches

open BracketedText (Text)
open FiniteMaps LinePositions IncrementalDocuments List Option

variable {text : Text}

def positionOf (text : Text) (offset : Nat) : Position :=
  ⟨(positionAt '\n' text offset).1, (positionAt '\n' text offset).2⟩

theorem lspPositionToOffset_eq_some_iff {position : Position} {offset : Nat} :
    lspPositionToOffset text position = some offset ↔ offset ≤ text.length ∧
    positionOf text offset = position := by
  obtain ⟨line, character⟩ := position
  rw [lspPositionToOffset, positionOf, Position.mk.injEq]
  by_cases hneg : line < 0 ∨ character < 0
  · rw [if_pos hneg]
    refine iff_of_false nofun fun h => ?_
    omega
  · have hwalk := offsetOf_eq_some_iff '\n' text line.toNat character.toNat offset
    rw [offsetOf, Prod.ext_iff] at hwalk
    rw [if_neg hneg]
    refine hwalk.trans ?_
    have hline : (positionAt '\n' text offset).1 = line.toNat ↔
        ((positionAt '\n' text offset).1 : Int) = line := by omega
    have hcharacter : (positionAt '\n' text offset).2 = character.toNat ↔
        ((positionAt '\n' text offset).2 : Int) = character := by omega
    rw [hline, hcharacter]

variable {changes valid : List IncrementalTextChange} {other : Text}

inductive Replaces (text : Text) : IncrementalTextChange → Text → Prop
  | whole (new : Text) : Replaces text ⟨new, none⟩ new
  | between (front middle back new : Text) : text = front ++ middle ++ back →
      Replaces text ⟨new, some ⟨positionOf text front.length,
        positionOf text (front.length + middle.length)⟩⟩ (front ++ new ++ back)

def Invalid (text : Text) (change : IncrementalTextChange) : Prop := ∀ text', ¬Replaces text change text'

inductive Edits : Text → List IncrementalTextChange → Text → Prop
  | nil (text : Text) : Edits text [] text
  | cons (text text' final : Text) (change : IncrementalTextChange)
      (changes : List IncrementalTextChange) : Replaces text change text' → Edits text' changes final →
      Edits text (change :: changes) final

variable {final : Text} {change : IncrementalTextChange}

theorem applyChangeToText_of_replaces (h : Replaces text change final) :
    applyChangeToText text change = some final := by
  cases h with
  | whole new => rfl
  | between front middle back new hsplit =>
    have hstart : lspPositionToOffset text (positionOf text front.length) = some front.length := by
      refine lspPositionToOffset_eq_some_iff.2 ⟨?_, rfl⟩
      rw [hsplit, append_assoc, length_append]
      exact Nat.le_add_right _ _
    have hle : front.length + middle.length ≤ text.length := by
      rw [hsplit, length_append, length_append]
      exact Nat.le_add_right _ _
    have hstop := lspPositionToOffset_eq_some_iff.2 ⟨hle, rfl⟩
    have htake : text.take front.length = front := by
      rw [hsplit, append_assoc, take_left]
    have hdrop : text.drop (front.length + middle.length) = back := by
      rw [hsplit, ← length_append, drop_left]
    rw [applyChangeToText]
    dsimp only
    rw [hstart, hstop]
    dsimp only
    rw [if_neg (by omega), htake, hdrop]

theorem replaces_of_applyChangeToText (h : applyChangeToText text change = some final) :
    Replaces text change final := by
  obtain ⟨new, range⟩ := change
  cases range with
  | none =>
    cases h
    exact .whole _
  | some range =>
    obtain ⟨first, second⟩ := range
    rw [applyChangeToText] at h
    dsimp only at h
    cases hstart : lspPositionToOffset text first with
    | none =>
      rw [hstart] at h
      cases h
    | some start =>
      cases hstop : lspPositionToOffset text second with
      | none =>
        rw [hstart, hstop] at h
        cases h
      | some stop =>
        rw [hstart, hstop] at h
        dsimp only at h
        split_ifs at h with hrange
        cases h
        obtain ⟨hstartLe, rfl⟩ := lspPositionToOffset_eq_some_iff.1 hstart
        obtain ⟨hstopLe, rfl⟩ := lspPositionToOffset_eq_some_iff.1 hstop
        have hfront : (text.take start).length = start := length_take_of_le hstartLe
        have hmiddle : ((text.drop start).take (stop - start)).length = stop - start := by
          rw [length_take, length_drop]
          omega
        have hsum : start + (stop - start) = stop := by omega
        have hsplit : text = text.take start ++ (text.drop start).take (stop - start) ++
            text.drop stop := by
          rw [append_assoc]
          nth_rewrite 1 [← take_append_drop start text]
          nth_rewrite 1 [← take_append_drop (stop - start) (text.drop start)]
          rw [drop_drop, hsum]
        have hreplaces := Replaces.between _ _ _ new hsplit
        rw [hfront, hmiddle, hsum] at hreplaces
        exact hreplaces

theorem applyChangeToText_iff : applyChangeToText text change = some final ↔ Replaces text change final :=
  ⟨replaces_of_applyChangeToText, applyChangeToText_of_replaces⟩

theorem invalid_iff : Invalid text change ↔ applyChangeToText text change = none := by
  rw [eq_none_iff_forall_ne_some]
  exact forall_congr' fun text' => not_congr applyChangeToText_iff.symm

theorem applyChangesToText_cases (text : Text) (changes : List IncrementalTextChange) :
    (∃ final, applyChangesToText text changes = (final, true) ∧ Edits text changes final) ∨
      ∃ final, applyChangesToText text changes = (final, false) ∧
        ∃ valid change rest, changes = valid ++ change :: rest ∧ Edits text valid final ∧
          Invalid final change := by
  induction changes generalizing text with
  | nil => exact .inl ⟨text, rfl, .nil text⟩
  | cons change changes ih =>
    rw [applyChangesToText]
    cases hchange : applyChangeToText text change with
    | none => exact .inr ⟨text, rfl, [], change, changes, rfl, .nil text, invalid_iff.2 hchange⟩
    | some text' =>
      have hreplaces := replaces_of_applyChangeToText hchange
      rcases ih text' with ⟨final, hfinal, hedits⟩ |
        ⟨final, hfinal, valid, invalid, rest, rfl, hedits, hinvalid⟩
      · exact .inl ⟨final, hfinal, .cons text text' final change changes hreplaces hedits⟩
      · exact .inr ⟨final, hfinal, change :: valid, invalid, rest, rfl,
          .cons text text' final change valid hreplaces hedits, hinvalid⟩

theorem Replaces.unique (h : Replaces text change final) (h' : Replaces text change other) : final = other :=
  some.inj ((applyChangeToText_of_replaces h).symm.trans (applyChangeToText_of_replaces h'))

theorem Edits.unique (h : Edits text changes final) (h' : Edits text changes other) : final = other := by
  induction h with
  | nil text =>
    cases h' with
    | nil => rfl
  | cons text text' final change changes hreplaces _ ih =>
    cases h' with
    | cons _ text'' _ _ _ hreplaces' hedits => exact ih (hreplaces.unique hreplaces' ▸ hedits)

theorem applyChangesToText_stops (hvalid : Edits text valid final) (hinvalid : Invalid final change)
    (rest : List IncrementalTextChange) :
    applyChangesToText text (valid ++ change :: rest) = (final, false) := by
  induction hvalid with
  | nil text => rw [nil_append, applyChangesToText, invalid_iff.1 hinvalid]
  | cons text text' final first valid hreplaces _ ih =>
    rw [cons_append, applyChangesToText, applyChangeToText_of_replaces hreplaces]
    exact ih hinvalid

theorem not_edits {rest : List IncrementalTextChange} (hvalid : Edits text valid final)
    (hinvalid : Invalid final change) (other : Text) : ¬Edits text (valid ++ change :: rest) other := by
  induction hvalid with
  | nil text =>
    intro hedits
    cases hedits with
    | cons _ text' _ _ _ hreplaces _ => exact hinvalid text' hreplaces
  | cons text text' final first valid hreplaces _ ih =>
    intro hedits
    cases hedits with
    | cons _ text'' _ _ _ hreplaces' hrest =>
      exact ih hinvalid (hreplaces.unique hreplaces' ▸ hrest)

variable {Ast Parser : Type} (parseText : Parser → Text → Option Ast × Parser)

structure EditsExactly (c : IncrementalCompiler Ast Parser) (uri : Text)
    (changes : List IncrementalTextChange) (version : Int) : Prop where
  edited : ∀ doc text, c.documents.lookup uri = some doc → Edits doc.text changes text →
    ∃ doc', (applyChanges parseText c uri changes version).1.documents.lookup uri = some doc' ∧
      doc'.text = text
  refused : ∀ doc, c.documents.lookup uri = some doc → (∀ text, ¬Edits doc.text changes text) →
    (applyChanges parseText c uri changes version).2 = false ∧
      ∃ doc', (applyChanges parseText c uri changes version).1.documents.lookup uri = some doc' ∧
        doc'.text = doc.text ∧ doc'.version = doc.version ∧ doc'.ast = doc.ast

def NothingToUndo (c : IncrementalCompiler Ast Parser) (uri : Text)
    (changes : List IncrementalTextChange) : Prop :=
  ∀ doc, c.documents.lookup uri = some doc → ∀ valid change rest text,
    changes = valid ++ change :: rest → Edits doc.text valid text → Invalid text change → text = doc.text

variable {parseText} {c : IncrementalCompiler Ast Parser} {uri : Text} {version : Int}
  {doc : IncrementalDocument Ast}

theorem withLastGoodAst_text (doc : IncrementalDocument Ast) : (withLastGoodAst doc).text = doc.text := by
  rw [withLastGoodAst]
  cases doc.lastGoodAst with
  | none => rfl
  | some ast => rfl

theorem parseDocument_text (parser : Parser) (doc : IncrementalDocument Ast) :
    (parseDocument parseText parser doc).1.text = doc.text := by
  rw [parseDocument]
  dsimp only
  obtain ⟨ast, parser'⟩ := parseText parser doc.text
  cases ast with
  | some ast => rfl
  | none =>
    dsimp only
    rw [parseRecovered]
    dsimp only
    split_ifs
    · exact withLastGoodAst_text _
    · obtain ⟨ast, parser''⟩ := parseText parser' (doc.text ++ recoverySuffixFor doc.text)
      cases ast with
      | some ast => rfl
      | none => exact withLastGoodAst_text _

theorem applyChanges_edited (hdoc : c.documents.lookup uri = some doc)
    (happly : applyChangesToText doc.text changes = (text, true)) :
    ∃ doc', (applyChanges parseText c uri changes version).1.documents.lookup uri = some doc' ∧
      doc'.text = text := by
  rw [applyChanges, hdoc]
  dsimp only
  rw [happly]
  exact ⟨_, Finmap.lookup_insert _, parseDocument_text _ _⟩

theorem applyChanges_refused (hdoc : c.documents.lookup uri = some doc)
    (happly : applyChangesToText doc.text changes = (text, false)) :
    applyChanges parseText c uri changes version =
      ({ c with documents := c.documents.insert uri { doc with text := text } }, false) := by
  rw [applyChanges, hdoc]
  dsimp only
  rw [happly]

theorem applyChanges_exact {Ast Parser : Type} (parseText : Parser → Text → Option Ast × Parser)
    (c : IncrementalCompiler Ast Parser) (uri : Text) (changes : List IncrementalTextChange)
    (version : Int) :
    (∀ text position offset, lspPositionToOffset text position = some offset ↔
      offset ≤ text.length ∧ positionOf text offset = position) ∧
    (EditsExactly parseText c uri changes version ↔ NothingToUndo c uri changes) := by
  refine ⟨fun _ _ _ => lspPositionToOffset_eq_some_iff, ?_⟩
  constructor
  · rintro hexact doc hdoc valid change rest text rfl hedits hinvalid
    obtain ⟨-, doc', hdoc', htext, -, -⟩ := hexact.refused doc hdoc (not_edits hedits hinvalid)
    rw [applyChanges_refused hdoc (applyChangesToText_stops hedits hinvalid rest)] at hdoc'
    obtain rfl := some.inj ((Finmap.lookup_insert _).symm.trans hdoc')
    exact htext
  · intro hnothing
    refine ⟨fun doc text hdoc hedits => ?_, fun doc hdoc hnone => ?_⟩
    · rcases applyChangesToText_cases doc.text changes with
        ⟨final, happly, hedits'⟩ | ⟨final, -, valid, change, rest, rfl, hvalid, hinvalid⟩
      · exact applyChanges_edited hdoc (hedits.unique hedits' ▸ happly)
      · exact absurd hedits (not_edits hvalid hinvalid text)
    · rcases applyChangesToText_cases doc.text changes with
        ⟨final, -, hedits⟩ | ⟨final, happly, valid, change, rest, hsplit, hvalid, hinvalid⟩
      · exact absurd hedits (hnone final)
      · rw [applyChanges_refused hdoc happly]
        exact ⟨rfl, _, Finmap.lookup_insert _,
          hnothing doc hdoc valid change rest final hsplit hvalid hinvalid, rfl, rfl⟩

/-- One document whose whole text is replaced, and a change behind the end of the new one. -/
def opened : IncrementalCompiler Unit Unit where
  documents := (∅ : FiniteMap Text (IncrementalDocument Unit)).insert []
    { uri := [], path := [], text := ['a'], version := 1, ast := none, lastGoodAst := none
      parseSuccess := false, usedRecovery := false, recoveryKind := .none }
  parser := ()

def halfValid : List IncrementalTextChange := [⟨['b'], none⟩, ⟨[], some ⟨⟨5, 0⟩, ⟨5, 0⟩⟩⟩]

theorem halfValid_notUndone :
    ¬EditsExactly (fun (parser : Unit) _ => ((none : Option Unit), parser)) opened [] halfValid 2 := by
  intro hexact
  have hinvalid : Invalid ['b'] ⟨[], some ⟨⟨5, 0⟩, ⟨5, 0⟩⟩⟩ := invalid_iff.2 rfl
  have hedits : Edits ['a'] [⟨['b'], none⟩] ['b'] := .cons _ ['b'] _ _ _ (.whole _) (.nil _)
  obtain ⟨-, doc, hdoc, htext, -, -⟩ := hexact.refused _ (Finmap.lookup_insert _)
    (not_edits hedits hinvalid)
  rw [applyChanges_refused (Finmap.lookup_insert _) (applyChangesToText_stops hedits hinvalid [])] at hdoc
  obtain rfl := some.inj ((Finmap.lookup_insert _).symm.trans hdoc)
  cases htext

end Mlang.EditBatches
