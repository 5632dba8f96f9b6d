import Mlang.BracketedText

namespace Mlang.ConditionalRegions

open BracketedText (Text trimCopy)
open List

def normalizeRegionArchName (arch : Text) : Text :=
  let s := arch.map Char.toLower
  if s ∈ ["x86_64".toList, "amd64".toList, "x64".toList, "x86-64".toList] then "x86-64".toList
  else if s ∈ ["aarch64".toList, "arm64".toList] then "aarch64".toList
  else if s ∈ ["x86".toList, "i386".toList, "i686".toList] then "x86".toList
  else s

structure Host where
  hostPlatformRegionName : Text
  hostPlatformIsPosix : Bool
  hostArchRegionName : Text

inductive Tag
  | x86_64 | aarch64 | windows | posix | linux | macos
  deriving DecidableEq

def Tag.ofName (normalized : Text) : Option Tag :=
  if normalized = "x86-64".toList then some .x86_64
  else if normalized = "aarch64".toList then some .aarch64
  else if normalized = "windows".toList then some .windows
  else if normalized = "posix".toList then some .posix
  else if normalized = "linux".toList then some .linux
  else if normalized = "macos".toList then some .macos
  else none

def regionTagMatches (host : Host) (targetArch : Text) (tag : Tag) : Bool :=
  let normalized := normalizeRegionArchName targetArch
  let arch := if normalized = [] then host.hostArchRegionName else normalized
  match tag with
  | .x86_64 => arch = "x86-64".toList
  | .aarch64 => arch = "aarch64".toList
  | .windows => host.hostPlatformRegionName = "windows".toList
  | .linux => host.hostPlatformRegionName = "linux".toList
  | .macos => host.hostPlatformRegionName = "macos".toList
  | .posix => host.hostPlatformIsPosix

def parseRegionTag (trimmed : Text) : Option (Bool × Tag) :=
  if trimmed.length < 3 ∨ trimmed.head? ≠ some '[' ∨ trimmed.getLast? ≠ some ']' then none
  else
    let inner := (trimmed.drop 1).take (trimmed.length - 2)
    let isClosing : Bool := inner.head? = some '/'
    let named := if isClosing then inner.tail else inner
    if named = [] then none
    else (Tag.ofName (normalizeRegionArchName named)).map fun tag => (isClosing, tag)

/-- The stack of the loop, which is never empty. -/
structure ActiveStack where
  back : Bool
  front : List Bool
  deriving DecidableEq

namespace ActiveStack

def push (s : ActiveStack) (active : Bool) : ActiveStack := ⟨active, s.back :: s.front⟩

def pop (s : ActiveStack) : ActiveStack :=
  match s.front with
  | [] => s
  | below :: rest => ⟨below, rest⟩

end ActiveStack

/-- One line of `preprocess_conditional_regions`. -/
def processLine (host : Host) (targetArch : Text) (activeStack : ActiveStack) (line : Text) :
    ActiveStack × Text :=
  match parseRegionTag (trimCopy line) with
  | some (true, _) => (activeStack.pop, [])
  | some (false, tag) =>
    (activeStack.push (activeStack.back && regionTagMatches host targetArch tag), [])
  | none => (activeStack, if activeStack.back then line else [])

def processLines (host : Host) (targetArch : Text) : ActiveStack → List Text → List Text
  | _, [] => []
  | activeStack, line :: rest =>
    let (next, out) := processLine host targetArch activeStack line
    out :: processLines host targetArch next rest

/-- Each line is written with the newline that it was read with. -/
def preprocessConditionalRegions (host : Host) (targetArch text : Text) : Text :=
  ['\n'].intercalate (processLines host targetArch ⟨true, []⟩ (text.splitOn '\n'))

inductive Lexical
  | code | lineComment | blockComment | string
  deriving DecidableEq

def scan : Lexical → Text → Lexical
  | .code, '"' :: cs => scan .string cs
  | .code, '/' :: '/' :: cs => scan .lineComment cs
  | .code, '/' :: '*' :: cs => scan .blockComment cs
  | .blockComment, '*' :: '/' :: cs => scan .code cs
  | .string, '\\' :: '"' :: cs => scan .string cs
  | .string, '\\' :: '\\' :: cs => scan .string cs
  | .string, '"' :: cs => scan .code cs
  | s, _ :: cs => scan s cs
  | s, [] => s

def Lexical.afterLine (s : Lexical) (line : Text) : Lexical :=
  match scan s line with
  | .lineComment => .code
  | s' => s'

/-- A text read as it is meant: where the scanner is, and the tags of the open regions, the
innermost first. -/
structure Reading where
  lexical : Lexical
  regions : List Tag

namespace Reading

def start : Reading := ⟨.code, []⟩

def tagOf (s : Reading) (line : Text) : Option (Bool × Tag) :=
  if s.lexical = .string then none else parseRegionTag (trimCopy line)

def advance (s : Reading) (line : Text) : Reading where
  lexical := s.lexical.afterLine line
  regions :=
    match s.tagOf line with
    | some (false, tag) => tag :: s.regions
    | some (true, tag) => if s.regions.head? = some tag then s.regions.tail else s.regions
    | none => s.regions

/-- A line that is a tag only where one can stand, and closes the innermost region if any. -/
structure Accepts (s : Reading) (line : Text) : Prop where
  string : s.lexical = .string → parseRegionTag (trimCopy line) = none
  closing : ∀ tag, s.tagOf line = some (true, tag) → s.regions ≠ [] → s.regions.head? = some tag

end Reading

def WellTagged (text : Text) : Prop :=
  ∀ before line after, text.splitOn '\n' = before ++ line :: after →
    (before.foldl Reading.advance .start).Accepts line

/-- What the filter owes to a line, given what was read before it and what the stack was. -/
structure LineFiltered (host : Host) (targetArch : Text) (s : Reading) (activeStack : ActiveStack)
    (line out : Text) : Prop where
  written : s.tagOf line = none →
    out = if s.regions.all (regionTagMatches host targetArch) then line else []
  ended : ∀ tag, parseRegionTag (trimCopy line) = some (true, tag) →
    (processLine host targetArch activeStack line).1.front.length < activeStack.front.length →
    s.regions.head? = some tag
  string : s.lexical = .string → parseRegionTag (trimCopy line) = none

def stackAfter (host : Host) (targetArch : Text) (before : List Text) : ActiveStack :=
  before.foldl (fun s line => (processLine host targetArch s line).1) ⟨true, []⟩

/-- As many newlines as in the text, and between them the lines of the text as they are owed. -/
def KeepsMatchingLines (host : Host) (targetArch text : Text) : Prop :=
  (preprocessConditionalRegions host targetArch text).count '\n' = text.count '\n' ∧
    ∀ before line after, text.splitOn '\n' = before ++ line :: after →
      ∃ out, ((preprocessConditionalRegions host targetArch text).splitOn '\n')[before.length]? =
          some out ∧
        LineFiltered host targetArch (before.foldl Reading.advance .start)
          (stackAfter host targetArch before) line out

variable (host : Host) (targetArch : Text)

theorem length_splitOn (c : Char) (text : Text) : (text.splitOn c).length = text.count c + 1 := by
  induction text with
  | nil => rfl
  | cons d text ih =>
    rw [splitOn_cons_eq_if_modifyHead, count_cons]
    split
    · rw [length_cons, ih]
    · rw [length_modifyHead, ih, Nat.add_zero]

theorem notMem_of_mem_splitOn {c : Char} {text piece : Text} (h : piece ∈ text.splitOn c) :
    c ∉ piece := by
  induction text generalizing piece with
  | nil =>
    obtain rfl := mem_singleton.1 h
    exact not_mem_nil
  | cons d text ih =>
    rw [splitOn_cons_eq_if_modifyHead] at h
    split at h
    · rcases mem_cons.1 h with rfl | h
      · exact not_mem_nil
      · exact ih h
    · next hd =>
      obtain ⟨first, rest, hpieces⟩ := exists_cons_of_ne_nil (splitOn_ne_nil c text)
      rw [hpieces, modifyHead_cons] at h
      rcases mem_cons.1 h with rfl | h
      · have hfirst : c ∉ first := ih (hpieces ▸ mem_cons_self)
        intro hc
        rcases mem_cons.1 hc with rfl | hc
        · exact hd BEq.rfl
        · exact hfirst hc
      · exact ih (hpieces ▸ mem_cons_of_mem _ h)

theorem mem_processLine {activeStack : ActiveStack} {line : Text} {c : Char}
    (h : c ∈ (processLine host targetArch activeStack line).2) : c ∈ line := by
  unfold processLine at h
  split at h
  · exact absurd h not_mem_nil
  · exact absurd h not_mem_nil
  · split at h
    · exact h
    · exact absurd h not_mem_nil

theorem length_processLines (activeStack : ActiveStack) (lines : List Text) :
    (processLines host targetArch activeStack lines).length = lines.length := by
  induction lines generalizing activeStack with
  | nil => rfl
  | cons line lines ih => exact congrArg (· + 1) (ih _)

theorem newline_notMem_processLines {activeStack : ActiveStack} {lines : List Text}
    (h : ∀ line ∈ lines, '\n' ∉ line) :
    ∀ out ∈ processLines host targetArch activeStack lines, '\n' ∉ out := by
  induction lines generalizing activeStack with
  | nil => exact fun _ hout => absurd hout not_mem_nil
  | cons line lines ih =>
    intro out hout
    rcases mem_cons.1 hout with rfl | hout
    · exact fun hc => h line mem_cons_self (mem_processLine host targetArch hc)
    · exact ih (fun l hl => h l (mem_cons_of_mem _ hl)) out hout

theorem splitOn_preprocess (text : Text) :
    (preprocessConditionalRegions host targetArch text).splitOn '\n' =
      processLines host targetArch ⟨true, []⟩ (text.splitOn '\n') := by
  refine splitOn_intercalate '\n'
    (newline_notMem_processLines host targetArch fun _ hline => notMem_of_mem_splitOn hline) ?_
  refine ne_nil_of_length_pos ?_
  rw [length_processLines, length_splitOn]
  exact Nat.succ_pos _

theorem count_newline_preprocess (text : Text) :
    (preprocessConditionalRegions host targetArch text).count '\n' = text.count '\n' := by
  have hlength := length_splitOn '\n' (preprocessConditionalRegions host targetArch text)
  rw [splitOn_preprocess, length_processLines, length_splitOn] at hlength
  exact (Nat.succ.inj hlength).symm

theorem getElem?_processLines (activeStack : ActiveStack) (before : List Text) (line : Text)
    (after : List Text) :
    (processLines host targetArch activeStack (before ++ line :: after))[before.length]? =
      some (processLine host targetArch
        (before.foldl (fun s line => (processLine host targetArch s line).1) activeStack) line).2 := by
  induction before generalizing activeStack with
  | nil => rfl
  | cons first before ih => exact ih _

section Regions

variable {host : Host} {targetArch : Text} {s : Reading} {line : Text}

def stackOf (host : Host) (targetArch : Text) : List Tag → ActiveStack
  | [] => ⟨true, []⟩
  | tag :: outer =>
    (stackOf host targetArch outer).push
      ((stackOf host targetArch outer).back && regionTagMatches host targetArch tag)

theorem back_stackOf (regions : List Tag) :
    (stackOf host targetArch regions).back = regions.all (regionTagMatches host targetArch) := by
  induction regions with
  | nil => rfl
  | cons tag outer ih =>
    rw [all_cons, ← ih, Bool.and_comm]
    rfl

theorem length_pop_stackOf (regions : List Tag) :
    (stackOf host targetArch regions).pop.front.length <
        (stackOf host targetArch regions).front.length ↔ regions ≠ [] := by
  cases regions with
  | nil => exact iff_of_false (Nat.lt_irrefl _) (fun h => h rfl)
  | cons tag outer => exact iff_of_true (Nat.lt_succ_self _) (cons_ne_nil tag outer)

theorem processLine_stackOf (h : s.Accepts line) :
    (processLine host targetArch (stackOf host targetArch s.regions) line).1 =
      stackOf host targetArch (s.advance line).regions := by
  cases hparse : parseRegionTag (trimCopy line) with
  | none =>
    have htag : s.tagOf line = none := by
      rw [Reading.tagOf, hparse, ite_self]
    simp only [processLine, hparse, Reading.advance, htag]
  | some parsed =>
    obtain ⟨isClosing, tag⟩ := parsed
    have hcode : s.lexical ≠ .string := fun hstring => by
      rw [h.string hstring] at hparse
      exact nomatch hparse
    have htag : s.tagOf line = some (isClosing, tag) := by
      rw [Reading.tagOf, if_neg hcode, hparse]
    cases isClosing with
    | false => simp only [processLine, hparse, Reading.advance, htag, stackOf]
    | true =>
      simp only [processLine, hparse, Reading.advance, htag]
      cases hregions : s.regions with
      | nil => rfl
      | cons innermost outer =>
        have hhead := h.closing tag htag (hregions ▸ cons_ne_nil _ _)
        rw [hregions] at hhead
        rw [if_pos hhead]
        rfl

theorem lineFiltered_iff :
    LineFiltered host targetArch s (stackOf host targetArch s.regions) line
        (processLine host targetArch (stackOf host targetArch s.regions) line).2 ↔ s.Accepts line := by
  constructor
  · intro h
    refine ⟨h.string, fun tag htag hne => ?_⟩
    have hcode : s.lexical ≠ .string := fun hstring => by
      rw [Reading.tagOf, if_pos hstring] at htag
      exact nomatch htag
    rw [Reading.tagOf, if_neg hcode] at htag
    refine h.ended tag htag ?_
    simpa only [processLine, htag] using (length_pop_stackOf s.regions).2 hne
  · intro h
    refine ⟨fun htag => ?_, fun tag hparse hshorter => ?_, h.string⟩
    · have hparse : parseRegionTag (trimCopy line) = none := by
        by_cases hstring : s.lexical = .string
        · exact h.string hstring
        · rwa [Reading.tagOf, if_neg hstring] at htag
      simp only [processLine, hparse, back_stackOf]
    · have hcode : s.lexical ≠ .string := fun hstring => by
        rw [h.string hstring] at hparse
        exact nomatch hparse
      simp only [processLine, hparse, length_pop_stackOf] at hshorter
      exact h.closing tag (by rw [Reading.tagOf, if_neg hcode, hparse]) hshorter

theorem stackAfter_eq {before : List Text}
    (h : ∀ first line rest, before = first ++ line :: rest →
      (first.foldl Reading.advance .start).Accepts line) :
    stackAfter host targetArch before =
      stackOf host targetArch (before.foldl Reading.advance .start).regions := by
  induction before using List.reverseRecOn with
  | nil => rfl
  | append_singleton before line ih =>
    have hbefore := ih fun first l rest heq => h first l (rest ++ [line]) (by rw [heq]; simp)
    rw [stackAfter, foldl_concat, foldl_concat]
    exact (congrArg (fun stack => (processLine host targetArch stack line).1) hbefore).trans
      (processLine_stackOf (h before line [] rfl))

end Regions

variable (text : Text)

/-- The filter does what the regions are for if and only if no line of a string reads as a tag and
every closing tag names the region that was opened last. -/
theorem keepsMatchingLines_iff : KeepsMatchingLines host targetArch text ↔ WellTagged text := by
  have hwritten : ∀ before line after, text.splitOn '\n' = before ++ line :: after →
      ((preprocessConditionalRegions host targetArch text).splitOn '\n')[before.length]? =
        some (processLine host targetArch (stackAfter host targetArch before) line).2 := by
    intro before line after hlines
    rw [splitOn_preprocess, hlines, getElem?_processLines]
    rfl
  constructor
  · rintro ⟨-, hfiltered⟩
    -- the lines in front of a line are accepted, so that the stack at it is known
    suffices hall : ∀ before rest, text.splitOn '\n' = before ++ rest →
        ∀ first line middle, before = first ++ line :: middle →
          (first.foldl Reading.advance .start).Accepts line by
      intro before line after hlines
      exact hall (before ++ [line]) after (by rw [hlines]; simp) before line [] rfl
    intro before
    induction before using List.reverseRecOn with
    | nil =>
      intro rest _ first line middle heq
      exact absurd heq.symm (by simp)
    | append_singleton before last ih =>
      intro rest hlines first line middle heq
      have hsplit : text.splitOn '\n' = before ++ last :: rest := by
        rw [hlines, append_assoc, singleton_append]
      have hbefore := ih (last :: rest) hsplit
      rcases eq_nil_or_concat middle with rfl | ⟨middle, l, rfl⟩
      · obtain ⟨rfl, hl⟩ := append_inj' heq rfl
        obtain rfl := singleton_inj.1 hl
        obtain ⟨out, hout, hline⟩ := hfiltered before last rest hsplit
        obtain rfl := Option.some.inj ((hwritten before last rest hsplit).symm.trans hout)
        rw [stackAfter_eq hbefore] at hline
        exact lineFiltered_iff.1 hline
      · have hinit : before ++ [last] = (first ++ line :: middle) ++ [l] := by
          rw [heq]
          simp
        exact hbefore first line middle (append_inj' hinit rfl).1
  · intro htagged
    refine ⟨count_newline_preprocess host targetArch text, fun before line after hlines => ?_⟩
    refine ⟨_, hwritten before line after hlines, ?_⟩
    have hbefore : ∀ first l rest, before = first ++ l :: rest →
        (first.foldl Reading.advance .start).Accepts l := by
      intro first l rest heq
      exact htagged first l (rest ++ line :: after) (by rw [hlines, heq]; simp)
    rw [stackAfter_eq hbefore]
    exact lineFiltered_iff.2 (htagged before line after hlines)

def linuxHost : Host := ⟨"linux".toList, true, "x86-64".toList⟩

/-- The closing tag of another region opens the rest of this one to a host it is not for. -/
theorem not_keepsMatchingLines_of_mismatch :
    ¬ KeepsMatchingLines linuxHost "x86-64".toList
      "[windows]\n[/linux]\nextern fn f();\n[/windows]\n".toList := by
  rintro ⟨-, hfiltered⟩
  obtain ⟨out, hout, hline⟩ := hfiltered ["[windows]".toList, "[/linux]".toList]
    "extern fn f();".toList ["[/windows]".toList, []] (by decide)
  have hkept : some "extern fn f();".toList = some out := (by decide : _ = _).trans hout
  obtain rfl := Option.some.inj hkept
  exact absurd (hline.written (by decide)) (by decide)

end Mlang.ConditionalRegions
