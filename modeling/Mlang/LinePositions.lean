import Mathlib.Data.List.DropRight

namespace Mlang.LinePositions

open List


/-! Places in a text by line and column. -/

variable {α : Type} [DecidableEq α] (newline : α)

def findFrom (x : α) (text : List α) (start : Nat) : Option Nat :=
  let skipped := ((text.drop start).takeWhile (· ≠ x)).length
  if start + skipped < text.length then some (start + skipped) else none

def positionAt (text : List α) (offset : Nat) : Nat × Nat :=
  ((text.take offset).count newline, ((text.take offset).rtakeWhile (· ≠ newline)).length)

def WholeLines (front : List α) : Prop := ∀ h : front ≠ [], front.getLast h = newline

variable {newline} {x : α} {text front last rest : List α} {start n : Nat}

theorem takeWhile_append_cons (hfront : x ∉ front) (rest : List α) :
    (front ++ x :: rest).takeWhile (· ≠ x) = front := by
  rw [takeWhile_append_of_pos (fun y hy => by simpa using ne_of_mem_of_not_mem hy hfront),
    takeWhile_cons_of_neg (by simp), append_nil]

omit [DecidableEq α] in
theorem length_drop_split (h : text.drop start = front ++ x :: rest) :
    start + front.length < text.length := by
  have hlength := congrArg List.length h
  rw [length_drop, length_append, length_cons] at hlength
  omega

theorem findFrom_split (h : text.drop start = front ++ x :: rest) (hfront : x ∉ front) :
    findFrom x text start = some (start + front.length) := by
  rw [findFrom, h, takeWhile_append_cons hfront]
  exact if_pos (length_drop_split h)

theorem findFrom_none (h : x ∉ text.drop start) : findFrom x text start = none := by
  have hall : (text.drop start).takeWhile (· ≠ x) = text.drop start :=
    takeWhile_eq_self_iff.2 fun y hy => by simpa using ne_of_mem_of_not_mem hy h
  rw [findFrom, hall, length_drop]
  exact if_neg (by omega)

theorem findFrom_cases (x : α) (text : List α) (start : Nat) :
    (x ∉ text.drop start ∧ findFrom x text start = none) ∨
      ∃ front rest, text.drop start = front ++ x :: rest ∧ x ∉ front ∧
        findFrom x text start = some (start + front.length) := by
  by_cases hmem : x ∈ text.drop start
  · obtain ⟨front, rest, hsplit, hfront⟩ := eq_append_cons_of_mem hmem
    exact .inr ⟨front, rest, hsplit, hfront, findFrom_split hsplit hfront⟩
  · exact .inl ⟨hmem, findFrom_none hmem⟩

theorem le_lineEnd_iff (hstart : start ≤ text.length) (n : Nat) :
    n ≤ (findFrom x text start).getD text.length - start ↔
      start + n ≤ text.length ∧ x ∉ (text.drop start).take n := by
  rcases findFrom_cases x text start with ⟨hmem, hfind⟩ | ⟨front, rest, hsplit, hfront, hfind⟩
  · rw [hfind, Option.getD_none]
    have hnone : x ∉ (text.drop start).take n := fun h => hmem (mem_of_mem_take h)
    constructor
    · exact fun h => ⟨by omega, hnone⟩
    · exact fun h => by omega
  · have hlength := length_drop_split hsplit
    rw [hfind, Option.getD_some, hsplit]
    constructor
    · intro h
      refine ⟨by omega, fun hx => hfront ?_⟩
      rw [take_append_of_le_length (by omega)] at hx
      exact mem_of_mem_take hx
    · rintro ⟨-, hx⟩
      by_contra hmore
      apply hx
      rw [take_append, mem_append]
      obtain ⟨m, hm⟩ : ∃ m, n - front.length = m + 1 := ⟨n - front.length - 1, by omega⟩
      rw [hm]
      exact .inr mem_cons_self

omit [DecidableEq α] in
theorem wholeLines_nil : WholeLines newline ([] : List α) := fun h => absurd rfl h

omit [DecidableEq α] in
theorem wholeLines_line (front : List α) : WholeLines newline (front ++ [newline]) :=
  fun _ => getLast_concat

omit [DecidableEq α] in
theorem WholeLines.append (hfront : WholeLines newline front) (hrest : WholeLines newline rest) :
    WholeLines newline (front ++ rest) := by
  intro hne
  by_cases hnil : rest = []
  · simp only [hnil, append_nil] at hne ⊢
    exact hfront hne
  · rw [getLast_append_of_ne_nil _ hnil]
    exact hrest hnil

omit [DecidableEq α] in
theorem WholeLines.of_append (h : WholeLines newline (front ++ rest)) : WholeLines newline rest := by
  intro hne
  rw [← getLast_append_of_ne_nil (append_ne_nil_of_right_ne_nil front hne) hne]
  exact h _

theorem exists_lines (newline : α) (text : List α) :
    ∃ front last, text = front ++ last ∧ WholeLines newline front ∧ newline ∉ last := by
  induction text using List.reverseRecOn with
  | nil => exact ⟨[], [], rfl, wholeLines_nil, not_mem_nil⟩
  | append_singleton text x ih =>
    by_cases hx : x = newline
    · exact ⟨text ++ [x], [], (append_nil _).symm, hx ▸ wholeLines_line text, not_mem_nil⟩
    · obtain ⟨front, last, rfl, hfront, hlast⟩ := ih
      refine ⟨front, last ++ [x], append_assoc _ _ _, hfront, fun hmem => ?_⟩
      rcases mem_append.1 hmem with hmem | hmem
      · exact hlast hmem
      · exact hx (mem_singleton.1 hmem).symm

theorem rtakeWhile_lines (hfront : WholeLines newline front) (hlast : newline ∉ last) :
    (front ++ last).rtakeWhile (· ≠ newline) = last := by
  have hall : ∀ y ∈ last.reverse, decide (y ≠ newline) = true := fun y hy => by
    simpa using ne_of_mem_of_not_mem (mem_reverse.1 hy) hlast
  have hend : front.reverse.takeWhile (fun y => decide (y ≠ newline)) = [] := by
    by_cases hnil : front = []
    · rw [hnil]
      rfl
    · have hsplit : front = front.dropLast ++ [newline] := by
        rw [← hfront hnil, dropLast_append_getLast hnil]
      rw [hsplit, reverse_append, reverse_singleton, singleton_append, takeWhile_cons_of_neg (by simp)]
  rw [List.rtakeWhile, reverse_append, takeWhile_append_of_pos hall, hend, append_nil, reverse_reverse]

theorem positionAt_lines (hfront : WholeLines newline front) (hlast : newline ∉ last) (rest : List α) :
    positionAt newline (front ++ last ++ rest) (front.length + last.length) =
      (front.count newline, last.length) := by
  have htake : (front ++ last ++ rest).take (front.length + last.length) = front ++ last := by
    rw [← length_append, take_left]
  rw [positionAt, htake, rtakeWhile_lines hfront hlast, count_append, count_eq_zero.2 hlast,
    Nat.add_zero]

def skipLines (newline : α) (text : List α) : Nat → Nat → Option Nat
  | 0, offset => some offset
  | lines + 1, offset =>
    match findFrom newline text offset with
    | none => none
    | some found => skipLines newline text lines (found + 1)

omit [DecidableEq α] in
theorem drop_split (h : text.drop start = front ++ x :: rest) :
    text.drop (start + front.length + 1) = rest := by
  rw [Nat.add_assoc, ← drop_drop, h, ← drop_drop, drop_left]
  rfl

theorem skipLines_wholeLines (hfront : WholeLines newline front) (h : text.drop start = front ++ rest)
    (hn : front.count newline = n) : skipLines newline text n start = some (start + front.length) := by
  induction n generalizing front start with
  | zero =>
    have hnil : front = [] := by
      by_contra hne
      exact count_eq_zero.1 hn (hfront hne ▸ getLast_mem hne)
    rw [hnil]
    rfl
  | succ n ih =>
    have hmem : newline ∈ front := count_pos_iff.1 (by omega)
    obtain ⟨line, more, rfl, hline⟩ := eq_append_cons_of_mem hmem
    have hsplit : text.drop start = line ++ newline :: (more ++ rest) := by
      rw [h, append_assoc, cons_append]
    have hmore : more.count newline = n := by
      rw [count_append, count_eq_zero.2 hline, count_cons_self] at hn
      omega
    have hwhole : WholeLines newline more := by
      rw [append_cons] at hfront
      exact hfront.of_append
    rw [skipLines, findFrom_split hsplit hline]
    dsimp only
    rw [ih hwhole (drop_split hsplit) hmore, length_append, length_cons]
    exact congrArg some (by omega)

theorem exists_wholeLines {offset : Nat} (h : skipLines newline text n start = some offset) :
    ∃ front rest, WholeLines newline front ∧ text.drop start = front ++ rest ∧
      front.count newline = n ∧ offset = start + front.length := by
  induction n generalizing start with
  | zero =>
    obtain rfl := Option.some.inj h
    exact ⟨[], text.drop start, wholeLines_nil, rfl, rfl, rfl⟩
  | succ n ih =>
    rw [skipLines] at h
    rcases findFrom_cases newline text start with ⟨-, hfind⟩ | ⟨line, more, hsplit, hline, hfind⟩
    · rw [hfind] at h
      cases h
    · rw [hfind] at h
      obtain ⟨front, rest, hfront, hdrop, hcount, rfl⟩ := ih h
      rw [drop_split hsplit] at hdrop
      refine ⟨line ++ [newline] ++ front, rest, (wholeLines_line line).append hfront, ?_, ?_, ?_⟩
      · rw [hsplit, hdrop, append_assoc, append_assoc, singleton_append]
      · rw [count_append, count_append, count_eq_zero.2 hline, count_singleton_self, hcount]
        omega
      · rw [length_append, length_append, length_singleton]
        omega

def offsetOf (newline : α) (text : List α) (line column : Nat) : Option Nat :=
  match skipLines newline text line 0 with
  | none => none
  | some offset =>
    if column > (findFrom newline text offset).getD text.length - offset then none
    else some (offset + column)

theorem offsetOf_eq_some_iff (newline : α) (text : List α) (line column offset : Nat) :
    offsetOf newline text line column = some offset ↔
      offset ≤ text.length ∧ positionAt newline text offset = (line, column) := by
  constructor
  · intro h
    rw [offsetOf] at h
    cases hskip : skipLines newline text line 0 with
    | none =>
      rw [hskip] at h
      cases h
    | some found =>
      rw [hskip] at h
      obtain ⟨front, rest, hfront, hdrop, hcount, hfound⟩ := exists_wholeLines hskip
      rw [drop_zero] at hdrop
      rw [Nat.zero_add] at hfound
      have hle : found ≤ text.length := by
        rw [hfound, hdrop, length_append]
        omega
      dsimp only at h
      split_ifs at h with hcolumn
      cases h
      obtain ⟨hend, hline⟩ := (le_lineEnd_iff hle column).1 (Nat.not_lt.1 hcolumn)
      refine ⟨hend, ?_⟩
      rw [hfound, hdrop, drop_left] at hline
      rw [hfound, hdrop, length_append] at hend
      have hlast : (rest.take column).length = column := length_take_of_le (by omega)
      have hposition := positionAt_lines hfront hline (rest.drop column)
      rw [append_assoc, take_append_drop, ← hdrop, hlast, hcount, ← hfound] at hposition
      exact hposition
  · rintro ⟨hoffset, hposition⟩
    obtain ⟨front, last, hsplit, hfront, hlast⟩ := exists_lines newline (text.take offset)
    have hlength : front.length + last.length = offset := by
      rw [← length_append, ← hsplit, length_take_of_le hoffset]
    have htext : text = front ++ last ++ text.drop offset := by rw [← hsplit, take_append_drop]
    have hown := positionAt_lines hfront hlast (text.drop offset)
    rw [← htext, hlength, hposition, Prod.mk.injEq] at hown
    obtain ⟨rfl, rfl⟩ := hown
    have hdrop : text.drop 0 = front ++ (last ++ text.drop offset) := by
      rw [drop_zero, ← append_assoc, ← htext]
    have hskip := skipLines_wholeLines hfront hdrop rfl
    rw [Nat.zero_add] at hskip
    have hline : last.length ≤ (findFrom newline text front.length).getD text.length - front.length := by
      refine (le_lineEnd_iff (by omega) last.length).2 ⟨by omega, ?_⟩
      rw [drop_zero] at hdrop
      rw [hdrop, drop_left, take_left]
      exact hlast
    rw [offsetOf, hskip]
    dsimp only
    rw [if_neg (Nat.not_lt.2 hline), hlength]

end Mlang.LinePositions
