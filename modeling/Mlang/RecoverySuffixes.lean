import Mlang.EditBatches

namespace Mlang.RecoverySuffixes

open BracketedText (Text)
open IncrementalDocuments List Option

/-! The suffix that is put behind a text whose parts are still open. -/

def escapes (escaped : Bool) (c : Char) : Bool := c == '\\' && !escaped

def dangling (text : Text) : Bool := text.foldl escapes false

def opened (openers : List Char) (c : Char) : List Char :=
  if (closingFor c).isSome then c :: openers
  else if c = '\x7d' ∨ c = ']' ∨ c = ')' then
    match openers with
    | opener :: rest => if closingFor opener = some c then rest else opener :: rest
    | [] => []
  else openers

variable {state : ScanState} {openers : List Char} {text suffix : Text} {escaped : Bool} {c : Char}

theorem scan_plain (hquote : c ≠ '"') (hslash : ∀ rest, c = '/' → text ≠ '/' :: rest)
    (hstar : ∀ rest, c = '/' → text ≠ '*' :: rest) :
    scan .code openers (c :: text) = scan .code (opened openers c) text := by
  cases openers with
  | nil =>
    rw [scan.eq_6 c text hquote hslash hstar]
    unfold opened
    split_ifs <;> rfl
  | cons opener rest =>
    rw [scan.eq_5 c text opener rest hquote hslash hstar]
    unfold opened
    dsimp only
    split_ifs <;> rfl

theorem append_ne_cons {mark : Char} (htext : ∀ rest, text ≠ mark :: rest)
    (hsuffix : text = [] → suffix.head? ≠ some mark) (rest : Text) : text ++ suffix ≠ mark :: rest := by
  intro h
  cases text with
  | nil => exact hsuffix rfl (congrArg List.head? h)
  | cons d text => exact htext text (congrArg (· :: text) (List.cons.inj h).1)

theorem scan_append (hescaped : state = .string → escaped = false)
    (hend : (scan state openers text).1 = .string → text.foldl escapes escaped = false)
    (hslash : suffix.head? ≠ some '/')
    (hstar : suffix.head? = some '*' → (scan state openers text).1 ≠ .code) :
    scan state openers (text ++ suffix) =
      scan (scan state openers text).1 (scan state openers text).2 suffix := by
  have hplain {openers openers' : List Char} {c : Char} {text : Text} (hquote : c ≠ '"')
      (hline : ∀ rest, c = '/' → text ≠ '/' :: rest) (hblock : ∀ rest, c = '/' → text ≠ '*' :: rest)
      (hopened : opened openers c = openers')
      (hstar : suffix.head? = some '*' → (scan .code openers' text).1 ≠ .code) :
      scan .code openers (c :: text ++ suffix) = scan .code openers' (text ++ suffix) := by
    have hempty : text = [] → suffix.head? ≠ some '*' := by
      rintro rfl hhead
      exact hstar hhead rfl
    rw [cons_append, scan_plain hquote
      (fun rest hc => append_ne_cons (fun rest => hline rest hc) (fun _ => hslash) rest)
      (fun rest hc => append_ne_cons (fun rest => hblock rest hc) hempty rest), hopened]
  fun_induction scan state openers text generalizing escaped with
  | case1 state openers => rfl
  | case2 openers text ih =>
    rw [cons_append, scan]
    exact ih (fun _ => rfl) hend hstar
  | case3 openers text ih | case4 openers text ih =>
    rw [cons_append, cons_append, scan]
    exact ih nofun hend hstar
  | case5 openers c text hquote hline hblock hopen ih =>
    rw [hplain hquote hline hblock (if_pos hopen) hstar]
    exact ih nofun hend hstar
  | case6 c text hquote hline hblock hopen hclose opener rest hpair ih =>
    rw [hplain hquote hline hblock (by simp [opened, hopen, hclose, hpair]) hstar]
    exact ih nofun hend hstar
  | case7 c text hquote hline hblock hopen hclose opener rest hpair ih =>
    rw [hplain hquote hline hblock (by simp [opened, hopen, hclose, hpair]) hstar]
    exact ih nofun hend hstar
  | case8 c text hquote hline hblock hopen hclose ih =>
    rw [hplain hquote hline hblock (by simp [opened, hopen, hclose]) hstar]
    exact ih nofun hend hstar
  | case9 openers c text hquote hline hblock hopen hclose ih =>
    rw [hplain hquote hline hblock ((if_neg hopen).trans (if_neg hclose)) hstar]
    exact ih nofun hend hstar
  | case10 openers c text ih =>
    rw [cons_append, cons_append, scan]
    rw [foldl_cons, foldl_cons, hescaped rfl] at hend
    exact ih (fun _ => by simp [escapes]) hend hstar
  | case11 openers c text hpair ih =>
    have hc : c ≠ '\\' := by
      rintro rfl
      cases text with
      | nil => exact absurd (hend rfl) (by rw [hescaped rfl]; decide)
      | cons d text => exact hpair d text rfl rfl
    rw [cons_append, scan.eq_8 openers c (text ++ suffix) fun _ _ hslash => absurd hslash hc]
    exact ih (fun _ => by simp [escapes, hc]) hend hstar
  | case12 openers c text ih =>
    rw [cons_append, scan]
    exact ih (fun hstring => by split_ifs at hstring) hend hstar
  | case13 openers text ih =>
    rw [cons_append, cons_append, scan]
    exact ih nofun hend hstar
  | case14 openers c text hmark ih =>
    rw [cons_append, scan.eq_11 openers c (text ++ suffix)
      fun rest hc => append_ne_cons (fun rest => hmark rest hc) (fun _ => hslash) rest]
    exact ih nofun hend hstar

theorem closingFor_cases {opener : Char} (h : closingFor opener = some c) :
    c = '\x7d' ∨ c = ']' ∨ c = ')' := by
  unfold closingFor at h
  split at h
  · exact .inl (some.inj h).symm
  · exact .inr (.inl (some.inj h).symm)
  · exact .inr (.inr (some.inj h).symm)
  · cases h

variable (h : ∀ opener ∈ openers, (closingFor opener).isSome)
include h

theorem scan_open :
    ∀ opener ∈ (scan state openers text).2, (closingFor opener).isSome := by
  fun_induction scan state openers text with
  | case1 => exact h
  | case5 openers c text hquote hline hblock hopen ih => exact ih (forall_mem_cons.2 ⟨hopen, h⟩)
  | case6 c text hquote hline hblock hopen hclose opener rest hpair ih => exact ih (forall_mem_cons.1 h).2
  | case2 _ _ ih | case3 _ _ ih | case4 _ _ ih => exact ih h
  | case7 _ _ _ _ _ _ _ _ _ _ ih | case8 _ _ _ _ _ _ _ ih | case9 _ _ _ _ _ _ _ _ ih => exact ih h
  | case10 _ _ _ ih | case11 _ _ _ _ ih | case12 _ _ _ ih | case13 _ _ ih | case14 _ _ _ _ ih => exact ih h

theorem scan_closers :
    scan .code openers (openers.filterMap closingFor) = (.code, []) := by
  induction openers with
  | nil => rfl
  | cons opener rest ih =>
    obtain ⟨hopener, hrest⟩ := forall_mem_cons.1 h
    obtain ⟨c, hc⟩ := isSome_iff_exists.1 hopener
    have hcases := closingFor_cases hc
    have hquote : c ≠ '"' := by rcases hcases with rfl | rfl | rfl <;> decide
    have hslash : c ≠ '/' := by rcases hcases with rfl | rfl | rfl <;> decide
    have hclosing : (closingFor c).isSome = false := by rcases hcases with rfl | rfl | rfl <;> rfl
    have hopened : opened (opener :: rest) c = rest := by simp [opened, hclosing, hcases, hc]
    rw [filterMap_cons_some hc, scan_plain hquote (fun _ h => (hslash h).elim)
      (fun _ h => (hslash h).elim), hopened, ih hrest]

omit h

def Closed (text : Text) : Prop := scan .code [] text = (.code, [])

def EndsEscaping (text : Text) : Prop := (scan .code [] text).1 = .string ∧ dangling text = true

def EndsInLineComment (text : Text) : Prop := (scan .code [] text).1 = .lineComment

def ending : ScanState → Text
  | .string => ['"']
  | .blockComment => ['*', '/']
  | _ => []

theorem recoverySuffixFor_eq (h : scan .code [] text = (state, openers)) :
    recoverySuffixFor text = ending state ++ openers.filterMap closingFor := by
  rw [recoverySuffixFor, h]
  cases state <;> rfl

theorem recoverySuffixFor_closed (h : Closed text) : recoverySuffixFor text = [] := recoverySuffixFor_eq h

theorem scan_kept (h : ∀ c ∈ suffix, c ≠ '"' ∧ c ≠ '\\' ∧ c ≠ '\n') :
    scan .string openers suffix = (.string, openers) ∧
      scan .lineComment openers suffix = (.lineComment, openers) := by
  induction suffix with
  | nil => exact ⟨rfl, rfl⟩
  | cons c suffix ih =>
    obtain ⟨⟨hquote, hslash, hbreak⟩, hrest⟩ := forall_mem_cons.1 h
    obtain ⟨hstring, hcomment⟩ := ih hrest
    rw [scan.eq_8 openers c suffix fun _ _ hc => absurd hc hslash, if_neg hquote, scan, if_neg hbreak]
    exact ⟨hstring, hcomment⟩

theorem closers_kept (openers : List Char) :
    ∀ c ∈ openers.filterMap closingFor, c ≠ '"' ∧ c ≠ '\\' ∧ c ≠ '\n' ∧ c ≠ '/' ∧ c ≠ '*' := by
  intro c hc
  obtain ⟨opener, -, hopener⟩ := mem_filterMap.1 hc
  rcases closingFor_cases hopener with rfl | rfl | rfl <;> decide

theorem head_closers (openers : List Char) :
    (openers.filterMap closingFor).head? ≠ some '/' ∧ (openers.filterMap closingFor).head? ≠ some '*' :=
  ⟨fun h => (closers_kept openers _ (mem_of_head? h)).2.2.2.1 rfl,
    fun h => (closers_kept openers _ (mem_of_head? h)).2.2.2.2 rfl⟩

theorem closers_eq_nil_iff (h : ∀ opener ∈ openers, (closingFor opener).isSome) :
    openers.filterMap closingFor = [] ↔ openers = [] := by
  rw [filterMap_eq_nil_iff]
  constructor
  · intro hnone
    refine eq_nil_iff_forall_not_mem.2 fun opener hopener => ?_
    have hsome := h opener hopener
    rw [hnone opener hopener] at hsome
    cases hsome
  · rintro rfl opener hopener
    cases hopener

theorem scan_recovered (h : scan .code [] text = (state, openers)) :
    scan .code [] (text ++ recoverySuffixFor text) =
      if state = .lineComment ∨ state = .string ∧ dangling text = true then (state, openers)
      else (.code, []) := by
  have hopen : ∀ opener ∈ openers, (closingFor opener).isSome := by
    have hnil := @scan_open .code [] text (forall_mem_nil fun o => (closingFor o).isSome)
    rwa [h] at hnil
  obtain ⟨hslash, hstar⟩ := head_closers openers
  have hkept : ∀ c ∈ openers.filterMap closingFor, c ≠ '"' ∧ c ≠ '\\' ∧ c ≠ '\n' :=
    fun c hc => ⟨(closers_kept openers c hc).1, (closers_kept openers c hc).2.1, (closers_kept openers c hc).2.2.1⟩
  have hsplit (text' suffix : Text) (hdangling : (scan .code [] text').1 = .string → dangling text' = false) :=
    @scan_append .code [] text' suffix false nofun hdangling
  rw [recoverySuffixFor_eq h]
  cases state with
  | code =>
    change scan .code [] (text ++ openers.filterMap closingFor) = _
    rw [hsplit text _ (by rw [h]; nofun) hslash (fun hhead => (hstar hhead).elim), h, if_neg (by simp)]
    exact scan_closers hopen
  | lineComment =>
    change scan .code [] (text ++ openers.filterMap closingFor) = _
    rw [hsplit text _ (by rw [h]; nofun) hslash (fun hhead => (hstar hhead).elim), h, if_pos (.inl rfl)]
    exact (scan_kept hkept).2
  | blockComment =>
    rw [hsplit text _ (by rw [h]; nofun) (by simp [ending]) (by rw [h]; nofun), h, if_neg (by simp)]
    exact scan_closers hopen
  | string =>
    cases hdangling : dangling text with
    | false =>
      rw [hsplit text _ (fun _ => hdangling) (by simp [ending]) (by rw [h]; nofun), h, if_neg (by simp)]
      exact scan_closers hopen
    | true =>
      rw [if_pos (.inr ⟨rfl, rfl⟩)]
      obtain rfl | ⟨front, c, rfl⟩ := eq_nil_or_concat text
      · cases hdangling
      · rw [dangling, concat_eq_append, foldl_append] at hdangling
        obtain ⟨hc, hfront⟩ := Bool.and_eq_true_iff.1 hdangling
        obtain rfl := beq_iff_eq.1 hc
        have hfront : (scan .code [] front).1 = .string → dangling front = false :=
          fun _ => by simpa [dangling] using hfront
        rw [concat_eq_append] at h ⊢
        -- the backslash alone leaves the scan where it is, and takes the quote with it
        have hlast : scan (scan .code [] front).1 (scan .code [] front).2 ['\\'] = scan .code [] front := by
          generalize scan .code [] front = e
          obtain ⟨state, openers⟩ := e
          cases state <;> cases openers <;> rfl
        rw [hsplit front _ hfront (by decide) (by simp), hlast] at h
        rw [append_assoc, hsplit front _ hfront (by simp) (by simp), h]
        exact (scan_kept hkept).1

/-- The suffix closes a text exactly where the text ends outside of line comments and without a backslash
that escapes the quote; behind it nothing more is missing, unless something is open in front of the line
comment. A closed text gets none. -/
theorem recovers_iff (text : Text) :
    (Closed (text ++ recoverySuffixFor text) ↔ ¬ EndsInLineComment text ∧ ¬ EndsEscaping text) ∧
      (recoverySuffixFor (text ++ recoverySuffixFor text) = [] ↔
        (EndsInLineComment text → (scan .code [] text).2 = []) ∧ ¬ EndsEscaping text) ∧
      (Closed text → recoverySuffixFor text = []) := by
  have hopen : ∀ opener ∈ (scan .code [] text).2, (closingFor opener).isSome :=
    scan_open (forall_mem_nil _)
  rcases h : scan .code [] text with ⟨state, openers⟩
  have hend := scan_recovered h
  rw [h] at hopen
  simp only [EndsInLineComment, EndsEscaping, h]
  by_cases hstuck : state = .lineComment ∨ state = .string ∧ dangling text = true
  · rw [if_pos hstuck] at hend
    refine ⟨?_, ?_, recoverySuffixFor_closed⟩
    · refine iff_of_false (fun hclosed => ?_) fun hnot => hstuck.elim hnot.1 hnot.2
      obtain ⟨rfl, -⟩ := Prod.mk.inj (hend.symm.trans hclosed)
      simp at hstuck
    · rw [recoverySuffixFor_eq hend]
      rcases hstuck with rfl | ⟨rfl, hdangling⟩
      · simp [ending, closers_eq_nil_iff hopen]
      · exact iff_of_false (cons_ne_nil _ _) fun hnot => hnot.2 ⟨rfl, hdangling⟩
  · rw [if_neg hstuck] at hend
    obtain ⟨hcomment, hescaping⟩ := not_or.1 hstuck
    exact ⟨iff_of_true hend ⟨hcomment, hescaping⟩,
      iff_of_true (recoverySuffixFor_closed hend) ⟨fun hin => (hcomment hin).elim, hescaping⟩,
      recoverySuffixFor_closed⟩

/-- In `(//` the closer that is put behind the text is part of the comment. -/
theorem not_recovers :
    ¬ ∀ text : Text, Closed (text ++ recoverySuffixFor text) ∧
      recoverySuffixFor (text ++ recoverySuffixFor text) = [] ∧ (Closed text → recoverySuffixFor text = []) := by
  intro h
  exact absurd (h ['(', '/', '/']).2.1 (by decide)

end Mlang.RecoverySuffixes
