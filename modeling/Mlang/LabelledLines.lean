import Mlang.BracketedText

namespace Mlang.LabelledLines

open BracketedText (Text)
open List

/-! Texts of lines that each carry a label and a value. -/

variable {α : Type} {separator : α} {xs ys rest rest' : List α}

theorem append_separator_inj (hx : separator ∉ xs) (hy : separator ∉ ys)
    (h : xs ++ separator :: rest = ys ++ separator :: rest') : xs = ys ∧ rest = rest' := by
  induction xs generalizing ys with
  | nil =>
    cases ys with
    | nil => exact ⟨rfl, (List.cons.inj h).2⟩
    | cons y ys => exact absurd ((List.cons.inj h).1 ▸ mem_cons_self) hy
  | cons x xs ih =>
    cases ys with
    | nil => exact absurd ((List.cons.inj h).1 ▸ mem_cons_self) hx
    | cons y ys =>
      obtain ⟨rfl, htail⟩ := List.cons.inj h
      obtain ⟨rfl, hrest⟩ := ih (fun h => hx (mem_cons_of_mem x h))
        (fun h => hy (mem_cons_of_mem x h)) htail
      exact ⟨rfl, hrest⟩

theorem last_separator_inj (hx : separator ∉ rest) (hy : separator ∉ rest')
    (h : xs ++ separator :: rest = ys ++ separator :: rest') : xs = ys ∧ rest = rest' := by
  have hreversed := congrArg List.reverse h
  simp only [reverse_append, reverse_cons, append_assoc, singleton_append] at hreversed
  obtain ⟨hrest, hfront⟩ := append_separator_inj (mt mem_reverse.1 hx) (mt mem_reverse.1 hy) hreversed
  exact ⟨reverse_injective hfront, reverse_injective hrest⟩

section Lines

variable {Label : Type} (name : Label → Text)

def line (label : Label) (value : Text) : Text := name label ++ '=' :: value ++ ['\n']

def lines (entries : List (Label × Text)) : Text := entries.flatMap fun e => line name e.1 e.2

/-- What makes a line readable: the name of its label ends before the first sign, and its value before
the first break. -/
structure Readable (e : Label × Text) : Prop where
  label : '=' ∉ name e.1
  value : '\n' ∉ e.2

theorem lines_nil : lines name [] = [] := rfl

theorem lines_cons (e : Label × Text) (entries : List (Label × Text)) :
    lines name (e :: entries) = line name e.1 e.2 ++ lines name entries := rfl

theorem lines_append (entries following : List (Label × Text)) :
    lines name (entries ++ following) = lines name entries ++ lines name following :=
  flatMap_append

theorem lines_map {α : Type} (label : Label) (f : α → Text) (values : List α) :
    lines name (values.map fun a => (label, f a)) = values.flatMap fun a => line name label (f a) := by
  induction values with
  | nil => rfl
  | cons a values ih => exact congrArg (line name label (f a) ++ ·) ih

theorem lines_each (label : Label) (values : List Text) :
    lines name (values.map fun value => (label, value)) = values.flatMap (line name label) :=
  lines_map name label id values

variable {name}

theorem lines_injective (hname : Function.Injective name) {entries entries' : List (Label × Text)}
    (h : ∀ e ∈ entries, Readable name e) (h' : ∀ e ∈ entries', Readable name e)
    (heq : lines name entries = lines name entries') : entries = entries' := by
  induction entries generalizing entries' with
  | nil =>
    cases entries' with
    | nil => rfl
    | cons e' entries' => simp [lines, line] at heq
  | cons e entries ih =>
    cases entries' with
    | nil => simp [lines, line] at heq
    | cons e' entries' =>
      obtain ⟨hread, hothers⟩ := forall_mem_cons.1 h
      obtain ⟨hread', hothers'⟩ := forall_mem_cons.1 h'
      have htext : name e.1 ++ '=' :: (e.2 ++ '\n' :: lines name entries) =
          name e'.1 ++ '=' :: (e'.2 ++ '\n' :: lines name entries') := by
        simpa [lines, line] using heq
      obtain ⟨hlabel, hvalue⟩ := append_separator_inj hread.label hread'.label htext
      obtain ⟨htexts, hrest⟩ := append_separator_inj hread.value hread'.value hvalue
      rw [ih hothers hothers' hrest, Prod.ext (hname hlabel) htexts]

end Lines

variable {Label : Type} [DecidableEq Label]

def values (label : Label) (entries : List (Label × Text)) : List Text :=
  entries.filterMap fun e => if e.1 = label then some e.2 else none

theorem values_append (label : Label) (entries following : List (Label × Text)) :
    values label (entries ++ following) = values label entries ++ values label following :=
  filterMap_append

theorem values_cons (label : Label) (e : Label × Text) (entries : List (Label × Text)) :
    values label (e :: entries) = if e.1 = label then e.2 :: values label entries else values label entries := by
  unfold values
  rw [filterMap_cons]
  split_ifs <;> rfl

theorem values_map {α : Type} (label label' : Label) (f : α → Text) (items : List α) :
    values label (items.map fun a => (label', f a)) = if label' = label then items.map f else [] := by
  induction items with
  | nil => simp [values]
  | cons a items ih =>
    rw [map_cons, values_cons, ih]
    split_ifs <;> rfl

theorem values_each (label label' : Label) (items : List Text) :
    values label (items.map fun value => (label', value)) = if label' = label then items else [] := by
  have hvalues := values_map label label' id items
  rw [map_id] at hvalues
  exact hvalues

end Mlang.LabelledLines
