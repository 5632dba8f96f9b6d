import Mathlib.Data.List.Lex
import Mathlib.Data.List.DropRight
import Mlang.SortedLists

namespace Mlang.OrganizedImports

open SortedLists (Parted)
open List

abbrev Byte := Fin 256

abbrev Line := List Byte

/-- The lines of a text; behind the last line end there is one only if there are bytes. -/
def lines : List Byte → List Line
  | [] => []
  | c :: s =>
    if c = 0x0A then [] :: lines s
    else
      match lines s with
      | [] => [[c]]
      | line :: rest => (c :: line) :: rest

def dropLines : Nat → List Byte → List Byte
  | 0, s => s
  | _ + 1, [] => []
  | k + 1, c :: s => if c = 0x0A then dropLines k s else dropLines (k + 1) s

def lineIsBlank (line : Line) : Bool := line.all fun c => c == 0x20 || c == 0x09 || c == 0x0D

/-- The line starts, behind blanks, with the word `use` and a blank. -/
def lineStartsWithUse (line : Line) : Bool :=
  [0x75, 0x73, 0x65, 0x20].isPrefixOf (line.dropWhile fun c => c == 0x20 || c == 0x09)

def stored (line : Line) : List Byte := line ++ [0x0A]

def countFrom : List Line → Nat
  | [] => 0
  | line :: rest =>
    if lineStartsWithUse line then countFrom rest + 1
    else if lineIsBlank line then countFrom rest
    else 0

def organizeImportsLineCount (text : List Byte) : Nat := countFrom (lines text)

def importsFrom : List Line → List (List Byte)
  | [] => []
  | line :: rest =>
    if lineStartsWithUse line then stored line :: importsFrom rest
    else if lineIsBlank line then importsFrom rest
    else []

def uniqueFrom {α : Type} [DecidableEq α] (last : α) : List α → List α
  | [] => []
  | x :: rest => if x = last then uniqueFrom last rest else x :: uniqueFrom x rest

def unique {α : Type} [DecidableEq α] : List α → List α
  | [] => []
  | x :: rest => x :: uniqueFrom x rest

def sortedImports (imports : List (List Byte)) : List (List Byte) :=
  unique (imports.insertionSort (· ≤ ·))

def organizeImportsText (text : List Byte) : List Byte := (sortedImports (importsFrom (lines text))).flatten

/-- The edit: the counted lines are replaced by the new text. -/
def organized (text : List Byte) : List Byte :=
  organizeImportsText text ++ dropLines (organizeImportsLineCount text) text

section Unique

variable {α : Type} [DecidableEq α] {l : List α} {a x : α}

theorem mem_uniqueFrom : x ∈ a :: uniqueFrom a l ↔ x ∈ a :: l := by
  induction l generalizing a with
  | nil => rfl
  | cons b l ih =>
    rw [uniqueFrom]
    split_ifs with h
    · rw [h, ih, mem_cons, mem_cons, mem_cons, or_self_left]
    · rw [mem_cons, ih, ← mem_cons]

theorem mem_unique : x ∈ unique l ↔ x ∈ l := by
  cases l with
  | nil => rfl
  | cons a l => exact mem_uniqueFrom

variable [LinearOrder α]

theorem uniqueFrom_increasing (h : (a :: l).Pairwise (· ≤ ·)) : (a :: uniqueFrom a l).Pairwise (· < ·) := by
  induction l generalizing a with
  | nil => exact pairwise_singleton _ a
  | cons b l ih =>
    obtain ⟨ha, hrest⟩ := pairwise_cons.1 h
    rw [uniqueFrom]
    split_ifs with heq
    · exact ih (heq ▸ hrest)
    · have htail := ih hrest
      have hab : a < b := lt_of_le_of_ne (ha b mem_cons_self) (Ne.symm heq)
      refine pairwise_cons.2 ⟨fun x hx => ?_, htail⟩
      rcases mem_cons.1 hx with rfl | hx
      · exact hab
      · exact hab.trans (rel_of_pairwise_cons htail hx)

theorem uniqueFrom_eq (h : (a :: l).Pairwise (· < ·)) : uniqueFrom a l = l := by
  induction l generalizing a with
  | nil => rfl
  | cons b l ih =>
    obtain ⟨ha, hrest⟩ := pairwise_cons.1 h
    rw [uniqueFrom, if_neg (ha b mem_cons_self).ne', ih hrest]

theorem unique_increasing (h : l.Pairwise (· ≤ ·)) : (unique l).Pairwise (· < ·) := by
  cases l with
  | nil => exact List.Pairwise.nil
  | cons a l => exact uniqueFrom_increasing h

theorem unique_eq (h : l.Pairwise (· < ·)) : unique l = l := by
  cases l with
  | nil => rfl
  | cons a l => exact congrArg (a :: ·) (uniqueFrom_eq h)

end Unique

variable {imports : List (List Byte)} {x : List Byte}

theorem mem_sortedImports : x ∈ sortedImports imports ↔ x ∈ imports :=
  mem_unique.trans (mem_insertionSort (· ≤ ·))

theorem sortedImports_increasing : (sortedImports imports).Pairwise (· < ·) :=
  unique_increasing (pairwise_insertionSort _ imports)

theorem sortedImports_eq (h : imports.Pairwise (· < ·)) : sortedImports imports = imports := by
  rw [sortedImports, List.Pairwise.insertionSort_eq (h.imp le_of_lt), unique_eq h]

variable {us : List Line} {s text : List Byte} {ls : List Line} {line : Line} {k : Nat}

def leads (line : Line) : Bool := lineStartsWithUse line || lineIsBlank line

def block (text : List Byte) : List Line := (lines text).takeWhile leads

def restLines (text : List Byte) : List Line := (lines text).dropWhile leads

def useLines (text : List Byte) : List Line := (block text).filter lineStartsWithUse

theorem importsFrom_eq : importsFrom ls = ((ls.takeWhile leads).filter lineStartsWithUse).map stored := by
  induction ls with
  | nil => rfl
  | cons line ls ih =>
    rw [importsFrom, takeWhile_cons, leads]
    cases hu : lineStartsWithUse line <;> cases lineIsBlank line <;> simp [hu, ih]

theorem countFrom_eq : countFrom ls = (ls.takeWhile leads).countP lineStartsWithUse := by
  induction ls with
  | nil => rfl
  | cons line ls ih =>
    rw [countFrom, takeWhile_cons, leads]
    cases hu : lineStartsWithUse line <;> cases lineIsBlank line <;> simp [hu, ih]

theorem organizeImportsLineCount_eq :
    organizeImportsLineCount text = (block text).countP lineStartsWithUse := countFrom_eq

theorem lines_dropLines : lines (dropLines k s) = (lines s).drop k := by
  induction s generalizing k with
  | nil => cases k <;> rfl
  | cons c s ih =>
    cases k with
    | zero => rfl
    | succ k =>
      rw [dropLines, lines]
      split_ifs with hc
      · rw [ih, drop_succ_cons]
      · rw [ih]
        cases lines s with
        | nil => rw [drop_nil, drop_succ_cons, drop_nil]
        | cons line rest => rfl

theorem lines_stored (h : (0x0A : Byte) ∉ line) : lines (stored line ++ s) = line :: lines s := by
  induction line with
  | nil => rfl
  | cons c line ih =>
    obtain ⟨hc, hline⟩ := ne_and_not_mem_of_not_mem_cons h
    rw [stored, cons_append, cons_append, lines, if_neg (Ne.symm hc), ← stored, ih hline]

theorem dropLines_stored (h : (0x0A : Byte) ∉ line) :
    dropLines (k + 1) (stored line ++ s) = dropLines k s := by
  induction line with
  | nil => rfl
  | cons c line ih =>
    obtain ⟨hc, hline⟩ := ne_and_not_mem_of_not_mem_cons h
    rw [stored, cons_append, cons_append, dropLines, if_neg (Ne.symm hc), ← stored, ih hline]

theorem notMem_of_lines (h : line ∈ lines s) : (0x0A : Byte) ∉ line := by
  induction s generalizing line with
  | nil => cases h
  | cons c s ih =>
    rw [lines] at h
    split_ifs at h with hc
    · rcases mem_cons.1 h with rfl | h
      · exact not_mem_nil
      · exact ih h
    · cases hs : lines s with
      | nil =>
        rw [hs] at h
        rw [mem_singleton.1 h, mem_singleton]
        exact Ne.symm hc
      | cons first rest =>
        rw [hs] at h ih
        rcases mem_cons.1 h with rfl | h
        · exact not_mem_cons_of_ne_of_not_mem (Ne.symm hc) (ih mem_cons_self)
        · exact ih (mem_cons_of_mem _ h)

theorem lines_flatten (h : ∀ u ∈ us, (0x0A : Byte) ∉ u) :
    lines ((us.map stored).flatten ++ s) = us ++ lines s := by
  induction us with
  | nil => rfl
  | cons u us ih =>
    obtain ⟨hu, hus⟩ := forall_mem_cons.1 h
    rw [map_cons, flatten_cons, append_assoc, lines_stored hu, ih hus, cons_append]

theorem dropLines_flatten (h : ∀ u ∈ us, (0x0A : Byte) ∉ u) :
    dropLines us.length ((us.map stored).flatten ++ s) = s := by
  induction us with
  | nil => simp only [length_nil, dropLines, map_nil, flatten_nil, nil_append]
  | cons u us ih =>
    obtain ⟨hu, hus⟩ := forall_mem_cons.1 h
    rw [map_cons, flatten_cons, append_assoc, length_cons, dropLines_stored hu, ih hus]

theorem stored_injective : Function.Injective stored := append_left_injective _

/-- What the organized text is made of. -/
structure Parts (text : List Byte) (us : List Line) : Prop where
  sorted : sortedImports (importsFrom (lines text)) = us.map stored
  mem : ∀ u, u ∈ us ↔ u ∈ useLines text
  block_eq : block (organized text) = us ++ (block text).drop (organizeImportsLineCount text)
  rest_eq : restLines (organized text) = restLines text
  text_eq : organized text = (us.map stored).flatten ++ dropLines (organizeImportsLineCount text) text
  notMem : ∀ u ∈ us, (0x0A : Byte) ∉ u

theorem exists_parts (text : List Byte) : ∃ us, Parts text us := by
  have himports : importsFrom (lines text) = (useLines text).map stored := importsFrom_eq
  have hrange : sortedImports (importsFrom (lines text)) ∈ Set.range (List.map stored) := by
    rw [Set.range_list_map]
    intro x hx
    rw [mem_sortedImports, himports] at hx
    obtain ⟨u, -, rfl⟩ := mem_map.1 hx
    exact ⟨u, rfl⟩
  obtain ⟨us, hus⟩ := hrange
  have hmem : ∀ u, u ∈ us ↔ u ∈ useLines text := fun u => by
    rw [← mem_map_of_injective stored_injective, hus, mem_sortedImports, himports,
      mem_map_of_injective stored_injective]
  have huse : ∀ u ∈ us, lineStartsWithUse u = true ∧ u ∈ lines text := fun u hu => by
    obtain ⟨hblock, hstart⟩ := mem_filter.1 ((hmem u).1 hu)
    exact ⟨hstart, (List.takeWhile_prefix _).subset hblock⟩
  have hnot : ∀ u ∈ us, (0x0A : Byte) ∉ u := fun u hu => notMem_of_lines (huse u hu).2
  have hleads : ∀ u ∈ us, leads u = true := fun u hu => by rw [leads, (huse u hu).1, Bool.true_or]
  have htext : organized text =
      (us.map stored).flatten ++ dropLines (organizeImportsLineCount text) text := by
    rw [organized, organizeImportsText, hus]
  have hcount : organizeImportsLineCount text ≤ (block text).length := by
    rw [organizeImportsLineCount_eq]
    exact countP_le_length
  have hlines : lines (organized text) =
      us ++ ((block text).drop (organizeImportsLineCount text) ++ restLines text) := by
    rw [htext, lines_flatten hnot, lines_dropLines, ← drop_append_of_le_length hcount, block, restLines,
      takeWhile_append_dropWhile]
  have hkept : ∀ l ∈ (block text).drop (organizeImportsLineCount text), leads l = true := fun l hl =>
    mem_takeWhile_imp (mem_of_mem_drop hl)
  have hagain : (restLines text).dropWhile leads = restLines text := dropWhile_idempotent leads (lines text)
  have hnone : (restLines text).takeWhile leads = [] := by
    have hsplit : (restLines text).takeWhile leads ++ (restLines text).dropWhile leads = restLines text :=
      takeWhile_append_dropWhile
    rwa [hagain, append_left_eq_self] at hsplit
  refine ⟨us, hus.symm, hmem, ?_, ?_, htext, hnot⟩
  · rw [block, hlines, takeWhile_append_of_pos hleads, takeWhile_append_of_pos hkept, hnone, append_nil]
  · rw [restLines, hlines, dropWhile_append_of_pos hleads, dropWhile_append_of_pos hkept]
    exact hagain

/-- The edit leaves each import once, in order, and the rest of the text, and has nothing left to do. -/
structure Preserved (text : List Byte) : Prop where
  sorted : ((useLines (organized text)).map stored).Pairwise (· < ·)
  mem : ∀ line, line ∈ useLines (organized text) ↔ line ∈ useLines text
  rest : restLines (organized text) = restLines text
  again : organized (organized text) = organized text

theorem Parts.useLines_eq (h : Parts text us) : useLines (organized text) =
    us ++ ((block text).drop (organizeImportsLineCount text)).filter lineStartsWithUse := by
  rw [useLines, h.block_eq, filter_append, filter_eq_self.2 fun u hu =>
    (mem_filter.1 ((h.mem u).1 hu)).2]

theorem parted_iff {ls : List Line} :
    (ls.drop (ls.countP lineStartsWithUse)).filter lineStartsWithUse = [] ↔ Parted lineStartsWithUse ls := by
  constructor
  · intro h
    have hrest := filter_eq_nil_iff.1 h
    have hcount : ls.countP lineStartsWithUse = (ls.take (ls.countP lineStartsWithUse)).countP lineStartsWithUse := by
      conv_lhs => rw [← take_append_drop (ls.countP lineStartsWithUse) ls]
      rw [countP_append, countP_eq_zero.2 hrest, Nat.add_zero]
    have hall : ∀ a ∈ ls.take (ls.countP lineStartsWithUse), lineStartsWithUse a = true := by
      refine countP_eq_length.1 ?_
      rw [← hcount, length_take, min_eq_left countP_le_length]
    rw [← take_append_drop (ls.countP lineStartsWithUse) ls]
    refine pairwise_append.2 ⟨pairwise_of_forall_mem_list ?_, pairwise_of_forall_mem_list ?_, ?_⟩
    · exact fun a ha _ _ _ => hall a ha
    · exact fun _ _ b hb huse => absurd huse (hrest b hb)
    · exact fun a ha _ _ _ => hall a ha
  · intro h
    rw [h.drop_countP, filter_filter, filter_eq_nil_iff]
    exact fun a _ => by rw [Bool.and_not_self]; decide

theorem Preserved.parted (h : Preserved text) : Parted lineStartsWithUse (block text) := by
  obtain ⟨us, hus⟩ := exists_parts text
  refine parted_iff.1 (eq_nil_iff_forall_not_mem.2 fun u hu => ?_)
  have hsorted := h.sorted
  rw [← organizeImportsLineCount_eq] at hu
  rw [hus.useLines_eq, map_append, pairwise_append] at hsorted
  have huse : u ∈ useLines text := by
    obtain ⟨hdrop, hstart⟩ := mem_filter.1 hu
    exact mem_filter.2 ⟨mem_of_mem_drop hdrop, hstart⟩
  exact lt_irrefl _ (hsorted.2.2 _ (mem_map_of_mem ((hus.mem u).2 huse)) _ (mem_map_of_mem hu))

theorem Parts.useLines_of_parted (h : Parts text us) (hparted : Parted lineStartsWithUse (block text)) :
    useLines (organized text) = us := by
  rw [h.useLines_eq, organizeImportsLineCount_eq, parted_iff.2 hparted, append_nil]

theorem Parts.increasing (h : Parts text us) : (us.map stored).Pairwise (· < ·) :=
  h.sorted ▸ sortedImports_increasing

theorem preserved_of_parted (h : Parted lineStartsWithUse (block text)) : Preserved text := by
  obtain ⟨us, hus⟩ := exists_parts text
  have huses := hus.useLines_of_parted h
  refine ⟨?_, fun line => by rw [huses, hus.mem], hus.rest_eq, ?_⟩
  · rw [huses]
    exact hus.increasing
  · have himports : organizeImportsText (organized text) = (us.map stored).flatten := by
      rw [organizeImportsText, importsFrom_eq]
      exact congrArg List.flatten (congrArg (sortedImports ∘ List.map stored) huses |>.trans
        (sortedImports_eq hus.increasing))
    have hcount : organizeImportsLineCount (organized text) = us.length := by
      rw [organizeImportsLineCount_eq, countP_eq_length_filter]
      exact congrArg List.length huses
    rw [organized, himports, hcount, hus.text_eq, dropLines_flatten hus.notMem]

theorem preserved_iff (text : List Byte) : Preserved text ↔ Parted lineStartsWithUse (block text) :=
  ⟨Preserved.parted, preserved_of_parted⟩

/-- `use b`, a blank line, `use a` and a line of code. -/
def separated : List Byte :=
  [0x75, 0x73, 0x65, 0x20, 0x62, 0x0A, 0x0A, 0x75, 0x73, 0x65, 0x20, 0x61, 0x0A, 0x63]

theorem not_preserved : ¬∀ text, Preserved text := fun h => by
  have hparted := (h separated).parted
  have hblock : block separated = [[0x75, 0x73, 0x65, 0x20, 0x62], [], [0x75, 0x73, 0x65, 0x20, 0x61]] := by decide
  rw [hblock] at hparted
  revert hparted
  unfold Parted
  decide

end Mlang.OrganizedImports
