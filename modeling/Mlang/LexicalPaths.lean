import Mlang.BuildCommands

namespace Mlang.LexicalPaths

open BracketedText (Text)
open BuildCommands (isAbsolute joinPath)
open List

/-- The names that a path in normal form keeps, the last one first, and whether a separator stands
behind them. -/
def normalNames (absolute : Bool) : List Text → Bool → List Text → List Text × Bool
  | kept, separated, [] => (kept, separated)
  | kept, _, name :: names =>
    if name = [] ∨ name = ['.'] then normalNames absolute kept true names
    else if name ≠ ['.', '.'] ∨ kept.head? = some ['.', '.'] ∨ (kept = [] ∧ absolute = false) then
      normalNames absolute (name :: kept) false names
    else normalNames absolute kept.tail true names

def pathText (absolute : Bool) (names : List Text × Bool) : Text :=
  (if absolute then ['/'] else []) ++ ['/'].intercalate names.1.reverse ++
    if names.2 ∧ names.1 ≠ [] ∧ names.1.head? ≠ some ['.', '.'] then ['/'] else []

/-- `lexically_normal` of the paths of a POSIX system. -/
def lexicallyNormal (path : Text) : Text :=
  let text := pathText (isAbsolute path) (normalNames (isAbsolute path) [] false (path.splitOn '/'))
  if path = [] then [] else if text = [] then ['.'] else text

variable {absolute : Bool} {kept names : List Text} {separated : Bool} {s : Text}

theorem mem_normalNames {name : Text} (h : name ∈ (normalNames absolute kept separated names).1) :
    name ∈ kept ∨ name ∈ names := by
  induction names generalizing kept separated with
  | nil => exact .inl h
  | cons next names ih =>
    rw [normalNames] at h
    split_ifs at h
    · exact (ih h).imp id (mem_cons_of_mem _)
    · rcases ih h with h | h
      · rcases mem_cons.1 h with rfl | h
        · exact .inr mem_cons_self
        · exact .inl h
      · exact .inr (mem_cons_of_mem _ h)
    · exact (ih h).imp mem_of_mem_tail (mem_cons_of_mem _)

theorem infix_separated {front back : Text} (hs : '/' ∉ s) (h : s <:+: front ++ '/' :: back) :
    s <:+: front ∨ s <:+: back := by
  rcases infix_append_iff.1 h with h | h | ⟨p, q, rfl, hp, hq⟩
  · exact .inl h
  · rcases infix_cons_iff.1 h with h | h
    · cases s with
      | nil => exact .inl (List.nil_infix)
      | cons c s =>
        obtain ⟨rfl, -⟩ := cons_prefix_cons.1 h
        exact absurd mem_cons_self hs
    · exact .inr h
  · cases q with
    | nil => exact .inl (by rw [append_nil]; exact hp.isInfix)
    | cons c q =>
      obtain ⟨rfl, -⟩ := cons_prefix_cons.1 hq
      exact absurd (mem_append_right p mem_cons_self) hs

theorem infix_intercalate (hne : s ≠ []) (hs : '/' ∉ s) (h : s <:+: ['/'].intercalate names) :
    ∃ name ∈ names, s <:+: name := by
  induction names with
  | nil => exact absurd (infix_nil.1 h) hne
  | cons name names ih =>
    cases names with
    | nil => exact ⟨name, mem_cons_self, by rwa [intercalate_singleton] at h⟩
    | cons next names =>
      rw [intercalate_cons_cons, append_assoc, singleton_append] at h
      rcases infix_separated hs h with h | h
      · exact ⟨name, mem_cons_self, h⟩
      · obtain ⟨name', hname', h⟩ := ih h
        exact ⟨name', mem_cons_of_mem _ hname', h⟩

theorem infix_of_mem_splitOn {path name : Text} (h : name ∈ path.splitOn '/') : name <:+: path := by
  have hmem : ∀ names : List Text, name ∈ names → name <:+: ['/'].intercalate names := by
    intro names hname
    induction names with
    | nil => exact absurd hname not_mem_nil
    | cons first names ih =>
      cases names with
      | nil =>
        obtain rfl := mem_singleton.1 hname
        rw [intercalate_singleton]
      | cons next names =>
        rw [intercalate_cons_cons, append_assoc]
        rcases mem_cons.1 hname with rfl | hname
        · exact infix_append [] name _
        · refine (ih hname).trans ?_
          rw [← append_assoc]
          exact (suffix_append _ _).isInfix
  have hpath := hmem (path.splitOn '/') h
  rwa [intercalate_splitOn] at hpath

theorem infix_of_lexicallyNormal {path : Text} (hne : s ≠ []) (hs : '/' ∉ s) (hdot : s ≠ ['.'])
    (h : s <:+: lexicallyNormal path) : s <:+: path := by
  have hnames : s <:+: ['/'].intercalate
      (normalNames (isAbsolute path) [] false (path.splitOn '/')).1.reverse → s <:+: path := by
    intro h
    obtain ⟨name, hname, h⟩ := infix_intercalate hne hs h
    rcases mem_normalNames (mem_reverse.1 hname) with hname | hname
    · exact absurd hname not_mem_nil
    · exact h.trans (infix_of_mem_splitOn hname)
  have hnone : ¬ s <:+: [] := fun h => hne (infix_nil.1 h)
  have hmiddle : ∀ {front middle back : Text}, (front = [] ∨ front = ['/']) →
      (back = [] ∨ back = ['/']) → s <:+: front ++ middle ++ back → s <:+: middle := by
    intro front middle back hfront hback h
    have h : s <:+: front ++ middle := by
      rcases hback with rfl | rfl
      · rwa [append_nil] at h
      · exact (infix_separated hs h).resolve_right hnone
    rcases hfront with rfl | rfl
    · exact h
    · exact (@infix_separated _ [] _ hs h).resolve_left hnone
  have hpiece : ∀ {P : Prop} [Decidable P], (if P then ['/'] else []) = [] ∨
      (if P then ['/'] else ([] : Text)) = ['/'] := by
    intro P _
    split_ifs
    · exact .inr rfl
    · exact .inl rfl
  rw [lexicallyNormal] at h
  split_ifs at h
  · exact absurd h hnone
  · rcases infix_cons_iff.1 h with h | h
    · obtain ⟨c, s, rfl⟩ := exists_cons_of_ne_nil hne
      obtain ⟨rfl, hnil⟩ := cons_prefix_cons.1 h
      rw [prefix_nil.1 hnil] at hdot
      exact absurd rfl hdot
    · exact absurd h hnone
  · exact hnames (hmiddle hpiece hpiece h)

theorem isAbsolute_lexicallyNormal {path : Text} (h : isAbsolute path = true) :
    isAbsolute (lexicallyNormal path) = true := by
  have hne : path ≠ [] := by
    rintro rfl
    cases h
  have htext : ∀ names, pathText (isAbsolute path) names ≠ [] ∧
      isAbsolute (pathText (isAbsolute path) names) = true := by
    intro names
    rw [pathText, if_pos h, append_assoc, singleton_append]
    exact ⟨cons_ne_nil _ _, rfl⟩
  rw [lexicallyNormal, if_neg hne, if_neg (htext _).1]
  exact (htext _).2

example : lexicallyNormal "/pkg/./lib/../include//".toList = "/pkg/include/".toList := by decide

example : lexicallyNormal "a/../../b/..".toList = "..".toList := by decide

end Mlang.LexicalPaths
