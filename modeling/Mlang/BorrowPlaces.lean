import Mlang.BorrowRecords
import Mlang.CallBorrows
import Mlang.Constexpr
import Mlang.DecimalTexts

namespace Mlang.BorrowPlaces

open Mangling (Name)
open PointerBorrows hiding resolveBorrowPlaceFromLValue
open CallBorrows BorrowRecords DecimalTexts List Option

variable {path : List Segment}

structure TextSegment where
  value : Name
  index : Bool
  deriving DecidableEq

def endsName (c : Char) : Bool := c == '.' || c == '['

def split : Name → List TextSegment
  | [] => []
  | c :: cs =>
    if c = '.' then
      ⟨cs.takeWhile fun c => !endsName c, false⟩ :: split (cs.dropWhile fun c => !endsName c)
    else if c = '[' then
      if ']' ∈ cs then
        ⟨cs.takeWhile (· ≠ ']'), true⟩ :: split (cs.dropWhile (· ≠ ']')).tail
      else []
    else
      ⟨c :: cs.takeWhile fun c => !endsName c, false⟩ :: split (cs.dropWhile fun c => !endsName c)
  termination_by cs => cs.length
  decreasing_by
    all_goals have hle := (dropWhile_suffix (l := cs) (fun c => !endsName c)).length_le
    all_goals have hle' := (dropWhile_suffix (l := cs) (· ≠ ']')).length_le
    all_goals simp only [length_cons, length_tail] at *
    all_goals omega

def segmentsOverlap : List TextSegment → List TextSegment → Bool
  | a :: as, b :: bs =>
    if a.index ≠ b.index then false
    else if a.value = b.value then segmentsOverlap as bs
    else if a.index && (a.value == ['*'] || b.value == ['*']) then segmentsOverlap as bs
    else false
  | _, _ => true

def borrowTextsOverlap (left right : Name) : Bool :=
  if left = [] ∨ right = [] then true
  else if left = right then true
  else segmentsOverlap (split left) (split right)

def plainName (name : Name) : Bool := name.all fun c => !endsName c

structure PlainPlace (place : Place) : Prop where
  nonempty : place.owner ≠ []
  owner : plainName place.owner = true
  fields : ∀ name, .field name ∈ place.path → plainName name = true
  indices : ∀ text, .index text ∈ place.path → ']' ∉ text

def textSegment : Segment → TextSegment
  | .field name => ⟨name, false⟩
  | .index text => ⟨text, true⟩

theorem takeWhile_plain {name : Name} (h : plainName name = true) {rest : Name}
    (hrest : ∀ c ∈ rest.head?, endsName c = true) :
    (name ++ rest).takeWhile (fun c => !endsName c) = name ∧
      (name ++ rest).dropWhile (fun c => !endsName c) = rest := by
  induction name with
  | nil =>
    cases rest with
    | nil => exact ⟨rfl, rfl⟩
    | cons c rest => simp [hrest c rfl]
  | cons c name ih =>
    obtain ⟨hc, hname⟩ := all_cons.symm.trans h |> Bool.and_eq_true_iff.1
    obtain ⟨htake, hdrop⟩ := ih hname
    simp only [cons_append, takeWhile_cons, dropWhile_cons, hc, if_true, htake, hdrop, and_self]

theorem takeWhile_index {text : Name} (h : ']' ∉ text) (rest : Name) :
    (text ++ ']' :: rest).takeWhile (· ≠ ']') = text ∧
      (text ++ ']' :: rest).dropWhile (· ≠ ']') = ']' :: rest := by
  induction text with
  | nil => simp
  | cons c text ih =>
    obtain ⟨hc, htext⟩ := ne_and_not_mem_of_not_mem_cons h
    obtain ⟨htake, hdrop⟩ := ih htext
    have hc' : c ≠ ']' := hc.symm
    simp only [cons_append, takeWhile_cons, dropWhile_cons, hc', ne_eq,
      not_false_eq_true, decide_true, if_true]
    exact ⟨congrArg _ htake, hdrop⟩

theorem head_pathText (path : List Segment) :
    ∀ c ∈ (path.flatMap Segment.text).head?, endsName c = true := by
  cases path with
  | nil => exact fun _ h => nomatch h
  | cons a path =>
    intro c hc
    cases a <;> obtain rfl := some.inj hc <;> rfl

theorem split_path (hfields : ∀ name, .field name ∈ path → plainName name = true)
    (hindices : ∀ text, .index text ∈ path → ']' ∉ text) : split (path.flatMap
    Segment.text) = path.map textSegment := by
  induction path with
  | nil => rw [flatMap_nil, split, map_nil]
  | cons a path ih =>
    have hrest := ih (fun name h => hfields name (mem_cons_of_mem _ h))
      fun text h => hindices text (mem_cons_of_mem _ h)
    cases a with
    | field name =>
      obtain ⟨htake, hdrop⟩ := takeWhile_plain (hfields name mem_cons_self) (head_pathText path)
      rw [flatMap_cons, Segment.text, cons_append, split, if_pos rfl, htake, hdrop, hrest]
      rfl
    | index text =>
      have htext := hindices text mem_cons_self
      have happend : ('[' :: text ++ [']']) ++ path.flatMap Segment.text =
          '[' :: (text ++ ']' :: path.flatMap Segment.text) := by
        rw [append_assoc, cons_append, singleton_append]
      obtain ⟨htake, hdrop⟩ := takeWhile_index htext (path.flatMap Segment.text)
      have hmem : ']' ∈ text ++ ']' :: path.flatMap Segment.text :=
        mem_append_right _ mem_cons_self
      rw [flatMap_cons, Segment.text, happend, split, if_neg (by decide), if_pos rfl, if_pos hmem,
        htake, hdrop, tail_cons, hrest]
      rfl

theorem split_text {place : Place} (h : PlainPlace place) :
    split place.text = ⟨place.owner, false⟩ :: place.path.map textSegment := by
  obtain ⟨owner, path⟩ := place
  obtain ⟨hnonempty, howner, hfields, hindices⟩ := h
  cases owner with
  | nil => exact absurd rfl hnonempty
  | cons c owner =>
    obtain ⟨hc, hrest⟩ := all_cons.symm.trans howner |> Bool.and_eq_true_iff.1
    have hdot : c ≠ '.' := by
      rintro rfl
      exact nomatch hc
    have hbracket : c ≠ '[' := by
      rintro rfl
      exact nomatch hc
    obtain ⟨htake, hdrop⟩ := takeWhile_plain hrest (head_pathText path)
    rw [Place.text, cons_append, split, if_neg hdot, if_neg hbracket, htake, hdrop,
      split_path hfields hindices]

theorem segmentsOverlap_map (path path' : List Segment) :
    segmentsOverlap (path.map textSegment) (path'.map textSegment) = pathsOverlap path path' := by
  induction path generalizing path' with
  | nil => cases path' <;> rfl
  | cons a path ih =>
    cases path' with
    | nil => cases a <;> rfl
    | cons b path' =>
      rw [map_cons, map_cons, segmentsOverlap, ih, pathsOverlap]
      cases a with
      | field a =>
        cases b with
        | field b => by_cases h : a = b <;> simp [textSegment, Segment.overlaps, h]
        | index b => simp [textSegment, Segment.overlaps]
      | index a =>
        cases b with
        | field b => simp [textSegment, Segment.overlaps]
        | index b =>
          by_cases h : a = b
          · simp [textSegment, Segment.overlaps, h]
          · by_cases ha : a = ['*'] <;> by_cases hb : b = ['*'] <;>
              simp [textSegment, Segment.overlaps, h, ha, hb]

theorem segmentsOverlap_self (as : List TextSegment) : segmentsOverlap as as = true := by
  induction as with
  | nil => rfl
  | cons a as ih => rw [segmentsOverlap, if_neg (not_not.2 rfl), if_pos rfl, ih]

theorem borrowTextsOverlap_text {a b : Place} (ha : PlainPlace a) (hb : PlainPlace b) :
    borrowTextsOverlap a.text b.text = borrowPlacesOverlap a b := by
  have hne : ∀ {p : Place}, PlainPlace p → p.text ≠ [] := fun hp h =>
    hp.nonempty (append_eq_nil_iff.1 h).1
  have hsplit : segmentsOverlap (split a.text) (split b.text) = borrowPlacesOverlap a b := by
    rw [split_text ha, split_text hb, segmentsOverlap, segmentsOverlap_map, borrowPlacesOverlap]
    by_cases h : a.owner = b.owner <;> simp [h]
  rw [borrowTextsOverlap, if_neg (not_or.2 ⟨hne ha, hne hb⟩)]
  split
  · rename_i htext
    rw [← hsplit, htext, segmentsOverlap_self]
  · exact hsplit

inductive Key
  | int (value : Int)
  | text (value : List UInt8)
  deriving DecidableEq

inductive Step
  | field (name : Name)
  | element (key : Key)
  deriving DecidableEq

structure Storage where
  root : Name
  path : List Step
  deriving DecidableEq

def Storage.push (s : Storage) (step : Step) : Storage := ⟨s.root, s.path ++ [step]⟩

def Storage.Overlaps (s s' : Storage) : Prop := s.root = s'.root ∧ (s.path <+: s'.path ∨ s'.path <+: s.path)

/-- What an index expression picks from a list or a map when the program runs, if it picks
anything. -/
abbrev Evaluation := Storage → ExpressionNode → Option Int

variable (ctx : Context) (value : Evaluation)

def Picks (s : Storage) (v k : Int) : Prop := ∃ i, constantInteger ctx i = some v ∧ value s i = some k

def constantSegment (v : Int) : Segment := .index (toString v).toList

def unknownSegment : Segment := .index ['*']

inductive MatchesFrom : Storage → List Segment → List Step → Prop
  | whole (s : Storage) : MatchesFrom s [] []
  | field {s : Storage} {path : List Segment} {steps : List Step} (name : Name)
      (h : MatchesFrom (s.push (.field name)) path steps) :
      MatchesFrom s (.field name :: path) (.field name :: steps)
  | constant {s : Storage} {path : List Segment} {steps : List Step} {v k : Int}
      (hpicks : Picks ctx value s v k) (h : MatchesFrom (s.push (.element (.int k))) path steps) :
      MatchesFrom s (constantSegment v :: path) (.element (.int k) :: steps)
  | key {s : Storage} {path : List Segment} {steps : List Step} (text : List UInt8)
      (h : MatchesFrom (s.push (.element (.text text))) path steps) :
      MatchesFrom s (borrowMapKeyPath text :: path) (.element (.text text) :: steps)
  | unknown {s : Storage} {path : List Segment} {steps : List Step} (key : Key)
      (h : MatchesFrom (s.push (.element key)) path steps) :
      MatchesFrom s (unknownSegment :: path) (.element key :: steps)

def isRoot : ExpressionNode → Bool
  | .field _ _ | .index _ _ | .tupleAccess _ _ => false
  | _ => true

/-- The storages that an expression may stand for. An unknown index may pick any element, and a
pointer stands for what it borrows. -/
inductive Denotes : ExpressionNode → Storage → Prop
  | root {e : ExpressionNode} {place : Place} {steps : List Step} (hroot : isRoot e = true)
      (hplace : resolveBorrowPlaceFromLValue ctx e = some place)
      (hsteps : MatchesFrom ctx value ⟨place.owner, []⟩ place.path steps) :
      Denotes e ⟨place.owner, steps⟩
  | field {object : ExpressionNode} {s : Storage} (h : Denotes object s) (name : Name) :
      Denotes (.field object name) (s.push (.field name))
  | tuple {object : ExpressionNode} {s : Storage} (h : Denotes object s) (n : Nat) :
      Denotes (.tupleAccess object n) (s.push (.field (toString n).toList))
  | constant {base index : ExpressionNode} {s : Storage} {v k : Int} (h : Denotes base s)
      (hindex : constantInteger ctx index = some v) (hvalue : value s index = some k) :
      Denotes (.index base index) (s.push (.element (.int k)))
  | key {base : ExpressionNode} {s : Storage} (h : Denotes base s) (text : List UInt8) :
      Denotes (.index base (.stringLiteral text)) (s.push (.element (.text text)))
  | unknown {base index : ExpressionNode} {s : Storage} (h : Denotes base s)
      (hindex : indexSegment ctx index = unknownSegment) (key : Key) :
      Denotes (.index base index) (s.push (.element key))

/-- The comparison of two expressions, which are taken to overlap where one has no place. -/
def lvaluesOverlap (left right : ExpressionNode) : Bool :=
  match resolveBorrowPlaceFromLValue ctx left, resolveBorrowPlaceFromLValue ctx right with
  | some p, some q => borrowPlacesOverlap p q
  | _, _ => true

/-- Components that never pick the same part. -/
inductive Distinct : Segment → Segment → Prop
  | field {a b : Name} (h : a ≠ b) : Distinct (.field a) (.field b)
  | constant {v w : Int} (h : v ≠ w) : Distinct (constantSegment v) (constantSegment w)

structure OverlapsExactly (left right : ExpressionNode) : Prop where
  symmetric : lvaluesOverlap ctx left right = lvaluesOverlap ctx right left
  aliases : ∀ s s', Denotes ctx value left s → Denotes ctx value right s' → s.Overlaps s' →
    lvaluesOverlap ctx left right = true
  apart : ∀ owner path a b rest rest', Distinct a b →
    resolveBorrowPlaceFromLValue ctx left = some ⟨owner, path ++ a :: rest⟩ →
    resolveBorrowPlaceFromLValue ctx right = some ⟨owner, path ++ b :: rest'⟩ →
    lvaluesOverlap ctx left right = false

variable {ctx : Context} {value : Evaluation} {v : Int} {b a : Segment}

section Aliases

theorem Storage.push_append (root : Name) (before : List Step) (step : Step) (after : List Step) :
    (⟨root, before ++ step :: after⟩ : Storage) = ⟨root, before ++ [step] ++ after⟩ := by
  rw [append_assoc, singleton_append]

variable {s : Storage} {steps : List Step} {step : Step}

theorem MatchesFrom.snoc (h : MatchesFrom ctx value s path steps)
    (hlast : MatchesFrom ctx value ⟨s.root, s.path ++ steps⟩ [a] [step]) :
    MatchesFrom ctx value s (path ++ [a]) (steps ++ [step]) := by
  induction h with
  | whole s =>
    rw [append_nil] at hlast
    exact hlast
  | field name h ih =>
    rw [Storage.push_append] at hlast
    exact .field name (ih hlast)
  | constant hpicks h ih =>
    rw [Storage.push_append] at hlast
    exact .constant hpicks (ih hlast)
  | key text h ih =>
    rw [Storage.push_append] at hlast
    exact .key text (ih hlast)
  | unknown key h ih =>
    rw [Storage.push_append] at hlast
    exact .unknown key (ih hlast)

theorem indexSegment_constant {index : ExpressionNode} (h : constantInteger ctx index = some v) :
    indexSegment ctx index = constantSegment v := by
  rw [indexSegment.eq_def]
  split
  · simp [constantInteger] at h
  · rw [h]
    rfl

theorem Denotes.matches {e : ExpressionNode} (h : Denotes ctx value e s) : ∃ path,
    resolveBorrowPlaceFromLValue ctx e = some ⟨s.root, path⟩ ∧
    MatchesFrom ctx value ⟨s.root, []⟩ path s.path := by
  induction h with
  | @root e place steps hroot hplace hsteps => exact ⟨place.path, hplace, hsteps⟩
  | field h name ih =>
    obtain ⟨path, hplace, hpath⟩ := ih
    refine ⟨path ++ [.field name], ?_, hpath.snoc (.field name (.whole _))⟩
    rw [resolveBorrowPlaceFromLValue, hplace]
    rfl
  | tuple h n ih =>
    obtain ⟨path, hplace, hpath⟩ := ih
    refine ⟨path ++ [.field (toString n).toList], ?_, hpath.snoc (.field _ (.whole _))⟩
    rw [resolveBorrowPlaceFromLValue, hplace]
    rfl
  | @constant base index s v k h hindex hvalue ih =>
    obtain ⟨path, hplace, hpath⟩ := ih
    refine ⟨path ++ [constantSegment v], ?_, hpath.snoc (.constant ⟨index, hindex, hvalue⟩ (.whole _))⟩
    rw [resolveBorrowPlaceFromLValue, hplace, indexSegment_constant hindex]
    rfl
  | key h text ih =>
    obtain ⟨path, hplace, hpath⟩ := ih
    refine ⟨path ++ [borrowMapKeyPath text], ?_, hpath.snoc (.key text (.whole _))⟩
    rw [resolveBorrowPlaceFromLValue, hplace]
    rfl
  | unknown h hindex key ih =>
    obtain ⟨path, hplace, hpath⟩ := ih
    refine ⟨path ++ [unknownSegment], ?_, hpath.snoc (.unknown key (.whole _))⟩
    rw [resolveBorrowPlaceFromLValue, hplace, hindex]
    rfl

variable (ctx value) in
def Separate : Prop := ∀ s v w k, Picks ctx value s v k → Picks ctx value s w k → v = w

theorem overlaps_or_constants (h : MatchesFrom ctx value s [a] [step])
    (h' : MatchesFrom ctx value s [b] [step]) : a.overlaps b = true ∨
    ∃ v w k, v ≠ w ∧ a = constantSegment v ∧ b = constantSegment w ∧ Picks ctx value s v k ∧
      Picks ctx value s w k := by
  cases h with
  | field name =>
    cases h'
    exact .inl (by simp [Segment.overlaps])
  | unknown key =>
    refine .inl ?_
    cases h' <;> simp [Segment.overlaps, unknownSegment, constantSegment, borrowMapKeyPath]
  | key text =>
    refine .inl ?_
    cases h' <;> simp [Segment.overlaps, unknownSegment, borrowMapKeyPath]
  | @constant _ _ _ v k hpicks =>
    cases h' with
    | @constant _ _ _ w _ hpicks' =>
      by_cases hvw : v = w
      · exact .inl (by simp [hvw, Segment.overlaps, constantSegment])
      · exact .inr ⟨v, w, k, hvw, rfl, rfl, hpicks, hpicks'⟩
    | unknown => exact .inl (by simp [Segment.overlaps, unknownSegment, constantSegment])

theorem MatchesFrom.uncons (h : MatchesFrom ctx value s (a :: path) (step :: steps)) :
    MatchesFrom ctx value s [a] [step] ∧ MatchesFrom ctx value (s.push step) path steps := by
  cases h with
  | field name h => exact ⟨.field name (.whole _), h⟩
  | constant hpicks h => exact ⟨.constant hpicks (.whole _), h⟩
  | key text h => exact ⟨.key text (.whole _), h⟩
  | unknown key h => exact ⟨.unknown key (.whole _), h⟩

theorem MatchesFrom.length (h : MatchesFrom ctx value s path steps) : path.length = steps.length := by
  induction h with
  | whole => rfl
  | field _ _ ih | constant _ _ ih | key _ _ ih | unknown _ _ ih => exact congrArg (· + 1) ih

/-- Two paths overlap before they part at two constants. -/
def PartAt (before before' : List Segment) (v w : Int) (path path' : List Segment) : Prop :=
  before.length = before'.length ∧ pathsOverlap before before' = true ∧ v ≠ w ∧
    before ++ [constantSegment v] <+: path ∧ before' ++ [constantSegment w] <+: path'

theorem exists_partAt {path' : List Segment} {steps' : List Step}
    (h : MatchesFrom ctx value s path steps) (h' : MatchesFrom ctx value s path' steps')
    (hsteps : steps <+: steps' ∨ steps' <+: steps) : pathsOverlap path path' = true ∨
    ∃ before before' v w, PartAt before before' v w path path' ∧
      ∃ s k, Picks ctx value s v k ∧ Picks ctx value s w k := by
  induction path generalizing s path' steps steps' with
  | nil => exact .inl rfl
  | cons a path ih =>
    cases path' with
    | nil => exact .inl rfl
    | cons b path' =>
      cases steps with
      | nil => exact nomatch h.length
      | cons step steps =>
        cases steps' with
        | nil => exact nomatch h'.length
        | cons step' steps' =>
          obtain ⟨rfl, hrest⟩ : step = step' ∧ (steps <+: steps' ∨ steps' <+: steps) := by
            obtain hsteps | hsteps := hsteps
            · obtain ⟨heq, hrest⟩ := cons_prefix_cons.1 hsteps
              exact ⟨heq, .inl hrest⟩
            · obtain ⟨heq, hrest⟩ := cons_prefix_cons.1 hsteps
              exact ⟨heq.symm, .inr hrest⟩
          rcases overlaps_or_constants h.uncons.1 h'.uncons.1 with
            hover | ⟨v, w, k, hvw, rfl, rfl, hpicks, hpicks'⟩
          · rcases ih h.uncons.2 h'.uncons.2 hrest with
              hpaths | ⟨before, before', v, w, ⟨hlength, hbefore, hvw, hp, hp'⟩, hpicks⟩
            · exact .inl (by rw [pathsOverlap, hover, hpaths, Bool.and_self])
            · refine .inr ⟨a :: before, b :: before', v, w, ⟨congrArg (· + 1) hlength, ?_, hvw, ?_, ?_⟩,
                hpicks⟩
              · rw [pathsOverlap, hover, hbefore, Bool.and_self]
              · exact cons_prefix_cons.2 ⟨rfl, hp⟩
              · exact cons_prefix_cons.2 ⟨rfl, hp'⟩
          · exact .inr ⟨[], [], v, w, ⟨rfl, rfl, hvw, cons_prefix_cons.2 ⟨rfl, nil_prefix⟩,
              cons_prefix_cons.2 ⟨rfl, nil_prefix⟩⟩, s, k, hpicks, hpicks'⟩

end Aliases

theorem lvaluesOverlap_comm (left right : ExpressionNode) :
    lvaluesOverlap ctx left right = lvaluesOverlap ctx right left := by
  rw [lvaluesOverlap, lvaluesOverlap]
  cases resolveBorrowPlaceFromLValue ctx left with
  | none => cases resolveBorrowPlaceFromLValue ctx right <;> rfl
  | some p =>
    cases resolveBorrowPlaceFromLValue ctx right with
    | none => rfl
    | some q => exact borrowPlacesOverlap_comm p q

theorem toList_toString (v : Int) : (toString v).toList =
    if v < 0 then '-' :: Nat.toDigits 10 v.natAbs else Nat.toDigits 10 v.natAbs := by
  cases v with
  | ofNat n => exact String.toList_ofList
  | negSucc n =>
    show (Int.repr (Int.negSucc n)).toList = _
    rw [Int.repr, String.toList_append, if_pos (Int.negSucc_lt_zero n)]
    exact congrArg ('-' :: ·) String.toList_ofList

theorem toString_injective {w : Int} (h : (toString v).toList = (toString w).toList) : v = w := by
  rw [toList_toString, toList_toString] at h
  split at h <;> split at h
  · have habs := toDigits_inj (List.cons.inj h).2
    omega
  · exact absurd (h ▸ mem_cons_self) (notMem_toDigits rfl _)
  · exact absurd (h ▸ mem_cons_self) (notMem_toDigits rfl _)
  · have habs := toDigits_inj h
    omega

theorem toString_ne_unknown (v : Int) : (toString v).toList ≠ ['*'] := by
  rw [toList_toString]
  split
  · exact fun h => nomatch (List.cons.inj h).1
  · intro h
    have hmem : '*' ∈ Nat.toDigits 10 v.natAbs := h ▸ mem_singleton_self _
    exact nomatch (Nat.isDigit_of_mem_toDigits (by decide) (by decide) hmem).symm.trans
      (show '*'.isDigit = false from rfl)

theorem Distinct.overlaps_eq_false (h : Distinct a b) : a.overlaps b = false := by
  cases h with
  | field h => simp [Segment.overlaps, h]
  | @constant v w h =>
    have hne : (toString v).toList ≠ (toString w).toList := fun heq => h (toString_injective heq)
    rw [constantSegment, constantSegment, Segment.overlaps, beq_false_of_ne hne,
      beq_false_of_ne (toString_ne_unknown v), beq_false_of_ne (toString_ne_unknown w), Bool.or_self,
      Bool.or_self]

theorem pathsOverlap_self_append (path rest rest' : List Segment) :
    pathsOverlap (path ++ rest) (path ++ rest') = pathsOverlap rest rest' := by
  induction path with
  | nil => rfl
  | cons a path ih =>
    have hself : a.overlaps a = true := by cases a <;> simp [Segment.overlaps]
    rw [cons_append, cons_append, pathsOverlap, hself, ih, Bool.true_and]

theorem borrowPlacesOverlap_append (owner : Name) (path rest rest' : List Segment) :
    borrowPlacesOverlap ⟨owner, path ++ rest⟩ ⟨owner, path ++ rest'⟩ = pathsOverlap rest rest' := by
  rw [borrowPlacesOverlap, pathsOverlap_self_append, beq_self_eq_true, Bool.true_and]

theorem exists_denotes (s : Storage) : ∃ e, Denotes ctx value e s := by
  obtain ⟨root, path⟩ := s
  induction path using List.reverseRecOn with
  | nil => exact ⟨.identifier root, @Denotes.root ctx value _ (.whole root) _ rfl rfl (.whole _)⟩
  | append_singleton path step ih =>
    obtain ⟨e, he⟩ := ih
    cases step with
    | field name => exact ⟨_, he.field name⟩
    | element key => exact ⟨.index e .other, he.unknown rfl key⟩

theorem pathsOverlap_append {before before' : List Segment} (hlength : before.length = before'.length)
    (rest rest' : List Segment) : pathsOverlap (before ++ rest) (before' ++ rest') =
    (pathsOverlap before before' && pathsOverlap rest rest') := by
  induction before generalizing before' with
  | nil =>
    obtain rfl := length_eq_zero_iff.1 hlength.symm
    rfl
  | cons a before ih =>
    cases before' with
    | nil => cases hlength
    | cons b before' =>
      rw [cons_append, cons_append, pathsOverlap, pathsOverlap, ih (Nat.succ.inj hlength), Bool.and_assoc]

theorem PartAt.overlap_eq_false {before before' path path' : List Segment} {w : Int}
    (h : PartAt before before' v w path path') : pathsOverlap path path' = false := by
  obtain ⟨hlength, -, hvw, ⟨rest, rfl⟩, rest', rfl⟩ := h
  rw [append_assoc, append_assoc, pathsOverlap_append hlength, singleton_append, singleton_append,
    pathsOverlap, (Distinct.constant hvw).overlaps_eq_false, Bool.false_and, Bool.and_false]

theorem PartAt.length_lt {before before' path path' : List Segment} {w : Int}
    (h : PartAt before before' v w path path') : before.length < path.length ∧ before.length < path'.length := by
  obtain ⟨hlength, -, -, hp, hp'⟩ := h
  replace hp := hp.length_le
  replace hp' := hp'.length_le
  rw [length_append] at hp hp'
  exact ⟨hp, hlength ▸ hp'⟩

/-- Where the places of two expressions part at two constants, these pick different elements of what is
before, unless the expressions differ behind. -/
def ConstantsApart (ctx : Context) (value : Evaluation) (left right : ExpressionNode) : Prop :=
  ∀ owner before before' v w path path',
    resolveBorrowPlaceFromLValue ctx left = some ⟨owner, path⟩ →
    resolveBorrowPlaceFromLValue ctx right = some ⟨owner, path'⟩ → PartAt before before' v w path path' →
    ∀ parts step step' rest rest', parts.length = before.length →
      Denotes ctx value left ⟨owner, parts ++ step :: rest⟩ →
      Denotes ctx value right ⟨owner, parts ++ step' :: rest'⟩ → (rest <+: rest' ∨ rest' <+: rest) →
        step ≠ step'

theorem comparable_behind {rest rest' : List Step} (h : rest <+: rest' ∨ rest' <+: rest)
    (parts : List Step) (step : Step) : parts ++ step :: rest <+: parts ++ step :: rest' ∨
    parts ++ step :: rest' <+: parts ++ step :: rest := by
  rw [prefix_append_right_inj, prefix_append_right_inj, cons_prefix_cons, cons_prefix_cons]
  exact h.imp (⟨rfl, ·⟩) (⟨rfl, ·⟩)

theorem exists_split {steps : List Step} {n : Nat} (h : n < steps.length) :
    ∃ parts step rest, steps = parts ++ step :: rest ∧ parts.length = n :=
  ⟨steps.take n, steps[n], steps.drop (n + 1),
    (take_append_drop n steps).symm.trans (congrArg _ (drop_eq_getElem_cons h)), length_take_of_le h.le⟩

theorem ConstantsApart.lvaluesOverlap {left right : ExpressionNode} (h : ConstantsApart ctx value left right)
    {s s' : Storage} (hdenotes : Denotes ctx value left s) (hdenotes' : Denotes ctx value right s')
    (hoverlaps : s.Overlaps s') : lvaluesOverlap ctx left right = true := by
  obtain ⟨owner, steps⟩ := s
  obtain ⟨owner', steps'⟩ := s'
  obtain ⟨hroot, hsteps⟩ := hoverlaps
  obtain rfl : owner = owner' := hroot
  replace hsteps : steps <+: steps' ∨ steps' <+: steps := hsteps
  obtain ⟨path, hplace, hpath⟩ := hdenotes.matches
  obtain ⟨path', hplace', hpath'⟩ := hdenotes'.matches
  rcases exists_partAt hpath hpath' hsteps with hover | ⟨before, before', v, w, hpart, -⟩
  · rw [BorrowPlaces.lvaluesOverlap, hplace, hplace']
    show (owner == owner && pathsOverlap path path') = true
    rw [hover, beq_self_eq_true, Bool.and_self]
  · have happly := h owner before before' v w path path' hplace hplace' hpart
    obtain ⟨hlength, hlength'⟩ := hpart.length_lt
    rcases hsteps with ⟨more, rfl⟩ | ⟨more, rfl⟩
    · obtain ⟨parts, step, rest, rfl, hparts⟩ := exists_split (hpath.length ▸ hlength)
      rw [append_assoc, cons_append] at hdenotes'
      exact absurd rfl (happly parts step step rest (rest ++ more) hparts hdenotes hdenotes'
        (.inl (prefix_append rest more)))
    · obtain ⟨parts, step, rest, rfl, hparts⟩ := exists_split (hpath'.length ▸ hlength')
      rw [append_assoc, cons_append] at hdenotes
      exact absurd rfl (happly parts step step (rest ++ more) rest hparts hdenotes hdenotes'
        (.inr (prefix_append rest more)))

theorem overlapsExactly_iff {left right : ExpressionNode} :
    OverlapsExactly ctx value left right ↔ ConstantsApart ctx value left right := by
  constructor
  · rintro h owner before before' v w path path' hplace hplace' hpart parts step step' rest rest' -
      hdenotes hdenotes' hrest rfl
    have haliases := h.aliases _ _ hdenotes hdenotes' ⟨rfl, comparable_behind hrest parts step⟩
    rw [lvaluesOverlap, hplace, hplace'] at haliases
    exact absurd (Bool.and_eq_true_iff.1 haliases).2 (ne_true_of_eq_false hpart.overlap_eq_false)
  · refine fun h => ⟨lvaluesOverlap_comm left right, fun s s' => h.lvaluesOverlap,
      fun owner path a b rest rest' hdistinct hleft hright => ?_⟩
    rw [lvaluesOverlap, hleft, hright]
    show borrowPlacesOverlap _ _ = false
    rw [borrowPlacesOverlap_append, pathsOverlap, hdistinct.overlaps_eq_false, Bool.false_and]

/-- The comparison of two expressions is exact where the constants at which they part pick different
elements, and of all expressions where the constants in indices do. -/
theorem lvaluesOverlap_exact_iff (ctx : Context) (value : Evaluation) :
    (∀ left right, OverlapsExactly ctx value left right ↔ ConstantsApart ctx value left right) ∧
    ((∀ left right, OverlapsExactly ctx value left right) ↔ Separate ctx value) := by
  refine ⟨fun left right => overlapsExactly_iff, ?_, ?_⟩
  · rintro h s v w k ⟨i, hi, hik⟩ ⟨j, hj, hjk⟩
    obtain ⟨base, hbase⟩ := @exists_denotes ctx value s
    have hleft : Denotes ctx value (.index base i) (s.push (.element (.int k))) := hbase.constant hi hik
    have hright : Denotes ctx value (.index base j) (s.push (.element (.int k))) := hbase.constant hj hjk
    have haliases := (h (.index base i) (.index base j)).aliases _ _ hleft hright
      ⟨rfl, .inl prefix_rfl⟩
    obtain ⟨path, hplace, -⟩ := hbase.matches
    by_contra hne
    rw [lvaluesOverlap, resolveBorrowPlaceFromLValue, resolveBorrowPlaceFromLValue, hplace,
      indexSegment_constant hi, indexSegment_constant hj] at haliases
    replace haliases : borrowPlacesOverlap ⟨s.root, path ++ [constantSegment v]⟩
        ⟨s.root, path ++ [constantSegment w]⟩ = true := haliases
    rw [borrowPlacesOverlap_append, pathsOverlap, (Distinct.constant hne).overlaps_eq_false] at haliases
    cases haliases
  · intro hseparate left right
    refine overlapsExactly_iff.2 ?_
    rintro owner before before' v w path path' hplace hplace' hpart parts step _ rest rest' - hdenotes
      hdenotes' hrest rfl
    obtain ⟨_, hleft, hpath⟩ := hdenotes.matches
    obtain ⟨_, hright, hpath'⟩ := hdenotes'.matches
    obtain rfl := (Place.mk.inj (Option.some.inj (hplace.symm.trans hleft))).2
    obtain rfl := (Place.mk.inj (Option.some.inj (hplace'.symm.trans hright))).2
    rcases exists_partAt hpath hpath' (comparable_behind hrest parts step) with
      hover | ⟨-, -, v, w, ⟨-, -, hvw, -⟩, s, k, hpicks, hpicks'⟩
    · exact absurd hover (ne_true_of_eq_false hpart.overlap_eq_false)
    · exact hvw (hseparate s v w k hpicks hpicks')

/-- The indices that are evaluated here. -/
def toExpression : ExpressionNode → Option Expressions.ExpressionNode
  | .intLiteral value => some (.intLiteral (BitVec.ofInt 64 value) none)
  | .identifier name => some (.identifier (String.ofList name))
  | .unary .neg operand => (toExpression operand).map (.unaryOp .neg)
  | .unary .bitnot operand => (toExpression operand).map (.unaryOp .bitNot)
  | .binary .plus left right =>
    (toExpression left).bind fun l => (toExpression right).map (.binaryOp .plus l)
  | .binary .minus left right =>
    (toExpression left).bind fun l => (toExpression right).map (.binaryOp .minus l)
  | .binary .multiply left right =>
    (toExpression left).bind fun l => (toExpression right).map (.binaryOp .multiply l)
  | _ => none

/-- The constants of a program as instructions see them, with the types that they are declared with. -/
def constantEnv (ctx : Context) (kinds : Name → TypeKinds.TypeKind) : Expressions.CodegenEnv where
  variableTypes name := (ctx.constant name.toList).map fun _ => kinds name.toList
  namedValues name := (ctx.constant name.toList).bind fun v =>
    Constexpr.buildLLVMConstantFromConstexprValue (.int (BitVec.ofInt 64 v) (kinds name.toList))
      (kinds name.toList)

def generatedIndex (ctx : Context) (kinds : Name → TypeKinds.TypeKind) : Evaluation := fun _ index =>
  ((toExpression index).bind (Expressions.generateExpression (constantEnv ctx kinds))).map fun v =>
    (v.intCast true 64).bits.toInt

/-- A constant `A` of 129. -/
def narrowContext : Context where
  borrows := ⟨[], [], [], [], [], []⟩
  movedVariables := []
  isGlobal _ := false
  isMoveOnlyVariable _ := false
  isPointer _ := false
  constant name := if name = ['A'] then some 129 else none

/-- As an `u8`, the sum of `A` and `A` picks the element with the number 2. -/
theorem not_overlapsExactly_sum :
    ¬OverlapsExactly narrowContext (generatedIndex narrowContext fun _ => .u8)
      (.index (.identifier ['x']) (.binary .plus (.identifier ['A']) (.identifier ['A'])))
      (.index (.identifier ['x']) (.intLiteral 2)) := by
  intro h
  have hroot : Denotes narrowContext (generatedIndex narrowContext fun _ => .u8) (.identifier ['x'])
      ⟨['x'], []⟩ :=
    @Denotes.root narrowContext _ _ (.whole ['x']) _ rfl rfl (.whole _)
  have hsum : generatedIndex narrowContext (fun _ => .u8) ⟨['x'], []⟩
      (.binary .plus (.identifier ['A']) (.identifier ['A'])) = some 2 := by decide
  have htwo : generatedIndex narrowContext (fun _ => .u8) ⟨['x'], []⟩ (.intLiteral 2) = some 2 := by
    decide
  have hoverlap := h.aliases _ _ (hroot.constant (v := 258) (by decide) hsum)
    (hroot.constant (v := 2) rfl htwo) ⟨rfl, .inl prefix_rfl⟩
  revert hoverlap
  decide

/-- The place of an expression as the source writes it, with no text where there is none. -/
def placeText (ctx : Context) (e : ExpressionNode) : Name :=
  ((resolveBorrowPlaceFromLValue ctx e).map Place.text).getD []

/-- The names that the place of an expression is made of hold no dot and no bracket. -/
def plainNames : ExpressionNode → Bool
  | .identifier name | .unary .deref (.identifier name) => name ≠ [] && plainName name
  | .field object fieldName => plainNames object && plainName fieldName
  | .staticField structName fieldName => structName ≠ [] && plainName structName && plainName fieldName
  | .index base _ => plainNames base
  | .tupleAccess tuple _ => plainNames tuple
  | .unary _ operand => plainNames operand
  | _ => true

section Plain

variable {place : Place} (h : PlainPlace place)
include h

theorem PlainPlace.field {name : Name} (hname : plainName name = true) : PlainPlace (place.extend [.field name]) where
  nonempty := h.nonempty
  owner := h.owner
  fields name' hmem := (mem_append.1 hmem).elim (h.fields name') fun hlast => by
    cases mem_singleton.1 hlast
    exact hname
  indices text hmem := (mem_append.1 hmem).elim (h.indices text) fun hlast => nomatch mem_singleton.1 hlast

theorem PlainPlace.index {text : Name} (htext : ']' ∉ text) : PlainPlace (place.extend [.index text]) where
  nonempty := h.nonempty
  owner := h.owner
  fields name hmem := (mem_append.1 hmem).elim (h.fields name) fun hlast => nomatch mem_singleton.1 hlast
  indices text' hmem := (mem_append.1 hmem).elim (h.indices text') fun hlast => by
    cases mem_singleton.1 hlast
    exact htext

end Plain

theorem plain_text (v : Int) : ∀ c ∈ (toString v).toList, endsName c = false ∧ c ≠ ']' := by
  intro c hc
  have hdigit : c.isDigit = true ∨ c = '-' := by
    rw [toList_toString] at hc
    split_ifs at hc
    · exact (mem_cons.1 hc).elim .inr fun h => .inl (Nat.isDigit_of_mem_toDigits (by decide) (by decide) h)
    · exact .inl (Nat.isDigit_of_mem_toDigits (by decide) (by decide) hc)
  refine ⟨Bool.eq_false_iff.2 fun hends => ?_, ?_⟩
  · rcases Bool.or_eq_true_iff.1 hends with h | h <;> cases eq_of_beq h <;> revert hdigit <;> decide
  · rintro rfl
    revert hdigit
    decide

theorem indexSegment_plain (e : ExpressionNode) : ∃ text, indexSegment ctx e = .index text ∧ ']' ∉ text := by
  have hhex : ∀ n < 16, hexDigit n ≠ ']' := by decide
  unfold indexSegment
  split
  · refine ⟨_, rfl, ?_⟩
    simp only [mem_cons, mem_flatMap, not_mem_nil, or_false, not_or, not_exists, not_and]
    exact ⟨by decide, by decide, fun byte _ =>
      ⟨(hhex _ (by have := byte.toNat_lt; omega)).symm, (hhex _ (Nat.mod_lt _ (by decide))).symm⟩⟩
  · split
    · exact ⟨_, rfl, fun hmem => (plain_text _ _ hmem).2 rfl⟩
    · exact ⟨_, rfl, by decide⟩

theorem plain_whole {name : Name} (h : (name ≠ [] && plainName name) = true) : PlainPlace (.whole name) := by
  simp only [Bool.and_eq_true, decide_eq_true_eq] at h
  exact ⟨h.1, h.2, (fun _ hmem => nomatch hmem), fun _ hmem => nomatch hmem⟩

theorem plain_of_resolve (hborrows : ∀ name place,
      OrderedTables.find ctx.borrows.pointerBorrowPlace name = some place → PlainPlace place)
    (e : ExpressionNode) (hnames : plainNames e = true) (place : Place)
    (hplace : resolveBorrowPlaceFromLValue ctx e = some place) : PlainPlace place := by
  induction e using plainNames.induct generalizing place with
  | case1 name =>
    cases hplace
    exact plain_whole hnames
  | case2 name =>
    cases hfind : OrderedTables.find ctx.borrows.pointerBorrowPlace name with
    | none =>
      rw [resolveBorrowPlaceFromLValue, hfind] at hplace
      cases hplace
      exact plain_whole hnames
    | some stored =>
      rw [resolveBorrowPlaceFromLValue, hfind] at hplace
      cases hplace
      exact hborrows name _ hfind
  | case3 object fieldName ih =>
    obtain ⟨base, hbase, rfl⟩ := map_eq_some_iff.1 hplace
    obtain ⟨hobject, hfield⟩ := Bool.and_eq_true_iff.1 hnames
    exact (ih hobject base hbase).field hfield
  | case4 structName fieldName =>
    obtain ⟨hstruct, hfield⟩ := Bool.and_eq_true_iff.1 hnames
    cases hplace
    exact (plain_whole hstruct).field hfield
  | case5 base index ih =>
    obtain ⟨root, hroot, rfl⟩ := map_eq_some_iff.1 hplace
    obtain ⟨text, hindex, htext⟩ := indexSegment_plain index
    rw [hindex]
    exact (ih hnames root hroot).index htext
  | case6 tuple index ih =>
    obtain ⟨base, hbase, rfl⟩ := map_eq_some_iff.1 hplace
    refine (ih hnames base hbase).field (all_eq_true.2 fun c hc => ?_)
    rw [(plain_text index c hc).1]
    rfl
  | case7 op operand hne ih =>
    rw [plainNames] at hnames
    · rw [resolveBorrowPlaceFromLValue] at hplace
      · exact ih hnames place hplace
      · exact hne
    · exact hne
  | case8 e h₁ h₂ h₃ h₄ h₅ h₆ h₇ =>
    have hnone : resolveBorrowPlaceFromLValue ctx e = none := by
      rw [resolveBorrowPlaceFromLValue] <;> assumption
    cases hnone.symm.trans hplace

/-- What the source compares as texts overlaps wherever the places do. -/
theorem borrowTextsOverlap_exact (ctx : Context) (left right : ExpressionNode)
    (hborrows : ∀ name place, OrderedTables.find ctx.borrows.pointerBorrowPlace name = some place → PlainPlace place)
    (hleft : plainNames left = true) (hright : plainNames right = true) :
    borrowTextsOverlap (placeText ctx left) (placeText ctx right) = lvaluesOverlap ctx left right := by
  unfold placeText lvaluesOverlap
  cases hp : resolveBorrowPlaceFromLValue ctx left with
  | none => exact if_pos (.inl rfl)
  | some p =>
    cases hq : resolveBorrowPlaceFromLValue ctx right with
    | none => exact if_pos (.inr rfl)
    | some q =>
      exact borrowTextsOverlap_text (plain_of_resolve hborrows left hleft p hp)
        (plain_of_resolve hborrows right hright q hq)

theorem borrowTextsOverlap_exact_items :
    let items := ExpressionNode.field (.identifier ['x']) "items".toList
    borrowTextsOverlap (placeText narrowContext (.index items (.intLiteral 3)))
      (placeText narrowContext (.index items .other)) = true := by
  intro items
  exact (borrowTextsOverlap_exact narrowContext (.index items (.intLiteral 3)) (.index items .other)
    (fun _ _ h => nomatch h) (by decide) (by decide)).trans (by decide)

end Mlang.BorrowPlaces
