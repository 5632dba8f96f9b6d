import Mlang.MergeSorts

namespace Mlang.FuzzyRankings

open MergeSorts (pushRange pushRange_eq pushRange_rest)
open List Option

abbrev Text := List UInt8

section Matching

def sub (s : Text) (start count : Nat) : Text := (s.drop start).take count

/-- Behind `_`, `-`, `/`, a blank or a dot, and at the start. -/
def boundaryBonus (text : Text) (idx : Nat) : Int :=
  if idx ≤ 0 then 3
  else
    let prev := sub text (idx - 1) 1
    if prev = [0x5F] ∨ prev = [0x2D] ∨ prev = [0x2F] ∨ prev = [0x20] ∨ prev = [0x2E] then 3 else 0

variable (text query : Text)

def matchFrom (ti qi : Nat) : Nat :=
  if ti < text.length ∧ qi < query.length then
    matchFrom (ti + 1) (if sub text ti 1 = sub query qi 1 then qi + 1 else qi)
  else qi
termination_by text.length - ti

def isMatch : Int :=
  if query.length = 0 then 1 else if matchFrom text query 0 0 ≥ query.length then 1 else 0

structure Scan where
  qi : Nat
  s : Int
  lastTi : Int

def scoreStep (ti : Nat) (scan : Scan) : Scan :=
  if sub text ti 1 = sub query scan.qi 1 then
    let s := scan.s + 10
    let s := if scan.lastTi + 1 = ti then s + 6 else s
    { qi := scan.qi + 1, s := s + boundaryBonus text ti, lastTi := ti }
  else if scan.qi > 0 then { scan with s := if scan.s - 1 < 0 then 0 else scan.s - 1 }
  else scan

def scoreFrom (ti : Nat) (scan : Scan) : Scan :=
  if ti < text.length ∧ scan.qi < query.length then scoreFrom (ti + 1) (scoreStep text query ti scan)
  else scan
termination_by text.length - ti

def score : Int :=
  if query.length = 0 then 0
  else
    let scan := scoreFrom text query 0 { qi := 0, s := 0, lastTi := -2 }
    if scan.qi < query.length then -1
    else
      let s := scan.s - (text.length - query.length)
      if s < 0 then 0 else s

end Matching

section Ranking

structure Ranked where
  idx : List Nat
  score : List Int

def positionFrom (ranked : Ranked) (sc : Int) (i j : Nat) : Option Nat :=
  if j < ranked.idx.length then do
    let sj ← ranked.score[j]?
    let ij ← ranked.idx[j]?
    if sc > sj ∨ sc = sj ∧ i < ij then some j else positionFrom ranked sc i (j + 1)
  else some ranked.idx.length
termination_by ranked.idx.length - j

def insertAt (ranked : Ranked) (sc : Int) (i pos : Nat) : Option Ranked := do
  let nextIdx ← pushRange ranked.idx 0 pos []
  let nextScore ← pushRange ranked.score 0 pos []
  let nextIdx ← pushRange ranked.idx pos ranked.idx.length (nextIdx ++ [i])
  let nextScore ← pushRange ranked.score pos ranked.idx.length (nextScore ++ [sc])
  pure { idx := nextIdx, score := nextScore }

variable (items : List Text) (query : Text)

def rankFrom (i : Nat) (ranked : Ranked) : Option Ranked :=
  if i < items.length then do
    let item ← items[i]?
    let sc := score item query
    if sc < 0 then rankFrom (i + 1) ranked
    else do
      let pos ← positionFrom ranked sc i 0
      let ranked ← insertAt ranked sc i pos
      rankFrom (i + 1) ranked
  else some ranked
termination_by items.length - i

def filterIndices : Option (List Nat) :=
  if query.length = 0 then some (List.range items.length)
  else do
    let ranked ← rankFrom items query 0 { idx := [], score := [] }
    pure ranked.idx

def bestIndex : Option Int := do
  let ranked ← filterIndices items query
  if ranked.length = 0 then pure (-1)
  else (ranked[0]? : Option Nat).map fun first => (first : Int)

end Ranking

section Subsequences

variable {text query : Text} {ti qi : Nat} {scan : Scan}

theorem sub_one (h : ti < text.length) : sub text ti 1 = [text[ti]] := by
  rw [sub, drop_eq_getElem_cons h, take_succ_cons, take_zero]

theorem matchFrom_iff :
    query.length ≤ matchFrom text query ti qi ↔ (query.drop qi).Sublist (text.drop ti) := by
  fun_induction matchFrom text query ti qi with
  | case1 ti qi h ih =>
    obtain ⟨hti, hqi⟩ := h
    rw [dite_eq_ite] at ih
    rw [ih, sub_one hti, sub_one hqi, drop_eq_getElem_cons hti, drop_eq_getElem_cons hqi]
    split_ifs with heq
    · rw [singleton_inj.1 heq, cons_sublist_cons]
    · rw [cons_sublist_cons', ← drop_eq_getElem_cons hqi]
      exact (or_iff_left fun h => heq (congrArg (fun b => [b]) h.1.symm)).symm
  | case2 ti qi h =>
    rcases not_and_or.1 h with hti | hqi
    · rw [drop_eq_nil_of_le (not_lt.1 hti), sublist_nil, drop_eq_nil_iff]
    · rw [drop_eq_nil_of_le (not_lt.1 hqi)]
      exact iff_of_true (not_lt.1 hqi) (nil_sublist _)

theorem scoreStep_qi : (scoreStep text query ti scan).qi =
    if sub text ti 1 = sub query scan.qi 1 then scan.qi + 1 else scan.qi := by
  unfold scoreStep
  split_ifs <;> rfl

theorem scoreFrom_qi : (scoreFrom text query ti scan).qi = matchFrom text query ti scan.qi := by
  fun_induction scoreFrom text query ti scan with
  | case1 ti scan h ih =>
    rw [ih, scoreStep_qi]
    conv => rhs; rw [matchFrom, if_pos h]
  | case2 ti scan h => rw [matchFrom, if_neg h]

theorem isMatch_iff (text query : Text) : isMatch text query = 1 ↔ query.Sublist text := by
  have hmatch := @matchFrom_iff text query 0 0
  rw [drop_zero, drop_zero] at hmatch
  unfold isMatch
  split_ifs with hempty hall
  · rw [length_eq_zero_iff.1 hempty]
    exact iff_of_true rfl (nil_sublist _)
  · exact iff_of_true rfl (hmatch.1 hall)
  · exact iff_of_false (by decide) fun h => hall (hmatch.2 h)

theorem score_iff (text query : Text) : 0 ≤ score text query ↔ isMatch text query = 1 := by
  unfold score isMatch
  simp only [scoreFrom_qi]
  split_ifs <;> omega

end Subsequences

section Order

def scoreAt (items : List Text) (query : Text) (i : Nat) : Int :=
  (items[i]?.map (score · query)).getD (-1)

def Ranks (items : List Text) (query : Text) (i j : Nat) : Prop :=
  scoreAt items query j < scoreAt items query i ∨ scoreAt items query i = scoreAt items query j ∧ i < j

variable {items : List Text} {query : Text} {i j k : Nat} {ranked : Ranked}

theorem scoreAt_eq {item : Text} (h : items[i]? = some item) : scoreAt items query i = score item query := by
  rw [scoreAt, h, map_some, getD_some]

theorem scoreAt_nonneg_iff :
    0 ≤ scoreAt items query i ↔ ∃ item, items[i]? = some item ∧ query.Sublist item := by
  cases h : items[i]? with
  | none =>
    rw [scoreAt, h, map_none, getD_none]
    exact iff_of_false (by decide) fun ⟨_, hitem, _⟩ => by cases hitem
  | some item =>
    rw [scoreAt_eq h, score_iff, isMatch_iff]
    exact ⟨fun hsub => ⟨item, rfl, hsub⟩, fun ⟨_, hitem, hsub⟩ => some.inj hitem ▸ hsub⟩

theorem Ranks.trans (h : Ranks items query i j) (h' : Ranks items query j k) : Ranks items query i k := by
  unfold Ranks at *
  omega

/-- The ranking of the items before `k`. -/
structure RanksUpTo (items : List Text) (query : Text) (k : Nat) (ranked : Ranked) : Prop where
  aligned : ranked.score = ranked.idx.map (scoreAt items query)
  ordered : ranked.idx.Pairwise (Ranks items query)
  mem : ∀ i, i ∈ ranked.idx ↔ i < k ∧ 0 ≤ scoreAt items query i

theorem positionFrom_spec (haligned : ranked.score = ranked.idx.map (scoreAt items query))
    (hbefore : ∀ j' x, j' < j → ranked.idx[j']? = some x → ¬Ranks items query i x) :
    ∃ pos, positionFrom ranked (scoreAt items query i) i j = some pos ∧ pos ≤ ranked.idx.length ∧
      (∀ j' x, j' < pos → ranked.idx[j']? = some x → ¬Ranks items query i x) ∧
      ∀ x, ranked.idx[pos]? = some x → Ranks items query i x := by
  generalize hsc : scoreAt items query i = sc
  fun_induction positionFrom ranked sc i j with
  | case1 j hj ih =>
    have hidx : ranked.idx[j]? = some ranked.idx[j] := getElem?_eq_getElem hj
    have hscore : ranked.score[j]? = some (scoreAt items query ranked.idx[j]) := by
      rw [haligned, getElem?_map, hidx, map_some]
    simp only [hidx, hscore, bind_eq_bind, bind_some]
    subst hsc
    split_ifs with hfirst
    · refine ⟨j, rfl, le_of_lt hj, hbefore, fun x hx => ?_⟩
      obtain rfl := some.inj (hidx.symm.trans hx)
      exact hfirst
    · refine ih fun j' x hlt hx => ?_
      rcases Nat.lt_succ_iff_lt_or_eq.1 hlt with hlt | rfl
      · exact hbefore j' x hlt hx
      · obtain rfl := some.inj (hidx.symm.trans hx)
        exact hfirst
  | case2 j hj =>
    refine ⟨_, rfl, le_refl _, fun j' x hlt hx => hbefore j' x (by omega) hx, fun x hx => ?_⟩
    rw [getElem?_eq_none (le_refl _)] at hx
    cases hx

theorem insertAt_eq {sc : Int} {pos : Nat} (haligned : ranked.score.length = ranked.idx.length)
    (hpos : pos ≤ ranked.idx.length) : insertAt ranked sc i pos =
      some { idx := ranked.idx.take pos ++ i :: ranked.idx.drop pos
             score := ranked.score.take pos ++ sc :: ranked.score.drop pos } := by
  have hpos' : pos ≤ ranked.score.length := haligned ▸ hpos
  simp only [insertAt, ← haligned, pushRange_rest, pushRange_eq hpos', bind_eq_bind, bind_some,
    drop_zero, nil_append, append_assoc, singleton_append]
  simp only [haligned, pushRange_rest, pushRange_eq hpos, bind_some, drop_zero, nil_append,
    append_assoc, singleton_append]
  rfl

theorem ordered_insert {l : List Nat} {pos : Nat} (h : l.Pairwise (Ranks items query))
    (hnew : ∀ x ∈ l, x < i) (hfront : ∀ j x, j < pos → l[j]? = some x → ¬Ranks items query i x)
    (hback : ∀ x, l[pos]? = some x → Ranks items query i x) :
    (l.take pos ++ i :: l.drop pos).Pairwise (Ranks items query) := by
  have hafter : ∀ x ∈ l.drop pos, Ranks items query i x := fun x hx => by
    cases hdrop : l.drop pos with
    | nil => rw [hdrop] at hx; cases hx
    | cons y rest =>
      have hy : Ranks items query i y := hback y (by rw [← head?_drop, hdrop, head?_cons])
      rw [hdrop] at hx
      rcases mem_cons.1 hx with rfl | hx
      · exact hy
      · have hrest : (l.drop pos).Pairwise (Ranks items query) := h.sublist (drop_sublist _ _)
        rw [hdrop] at hrest
        exact hy.trans (rel_of_pairwise_cons hrest hx)
  have hbefore : ∀ x ∈ l.take pos, Ranks items query x i := fun x hx => by
    obtain ⟨j, hj⟩ := mem_iff_getElem?.1 hx
    have hlt : x < i := hnew x (mem_of_mem_take hx)
    rw [getElem?_take] at hj
    split_ifs at hj with hpos
    have hnot := hfront j x hpos hj
    unfold Ranks at hnot ⊢
    omega
  refine pairwise_append.2 ⟨h.sublist (take_sublist _ _),
    pairwise_cons.2 ⟨hafter, h.sublist (drop_sublist _ _)⟩, fun x hx y hy => ?_⟩
  rcases mem_cons.1 hy with rfl | hy
  · exact hbefore x hx
  · exact (hbefore x hx).trans (hafter y hy)

variable (h : RanksUpTo items query i ranked)
include h

theorem RanksUpTo.insert (hsc : 0 ≤ scoreAt items query i) :
    ∃ pos next, positionFrom ranked (scoreAt items query i) i 0 = some pos ∧
      insertAt ranked (scoreAt items query i) i pos = some next ∧ RanksUpTo items query (i + 1) next := by
  obtain ⟨pos, hpos, hle, hfront, hback⟩ := positionFrom_spec (i := i) (j := 0) h.aligned
    fun _ _ hlt => absurd hlt (Nat.not_lt_zero _)
  have hlength : ranked.score.length = ranked.idx.length := by rw [h.aligned, length_map]
  refine ⟨pos, _, hpos, insertAt_eq hlength hle, ?_, ?_, fun x => ?_⟩
  · rw [h.aligned, map_append, map_cons, map_take, map_drop]
  · exact ordered_insert h.ordered (fun x hx => ((h.mem x).1 hx).1) hfront hback
  · have hparts : x ∈ ranked.idx ↔ x ∈ ranked.idx.take pos ∨ x ∈ ranked.idx.drop pos := by
      rw [← mem_append, take_append_drop]
    rw [mem_append, mem_cons, or_left_comm, ← hparts, h.mem, Nat.lt_succ_iff_lt_or_eq, or_and_right,
      or_comm]
    exact or_congr_right ⟨fun hx => ⟨hx, hx ▸ hsc⟩, fun hx => hx.1⟩

theorem RanksUpTo.skip (hsc : scoreAt items query i < 0) :
    RanksUpTo items query (i + 1) ranked where
  aligned := h.aligned
  ordered := h.ordered
  mem x := by
    rw [h.mem, Nat.lt_succ_iff_lt_or_eq, or_and_right]
    exact (or_iff_left fun ⟨hx, hscore⟩ => by subst hx; omega).symm

theorem rankFrom_ranks (hi : i ≤ items.length) :
    ∃ result, rankFrom items query i ranked = some result ∧ RanksUpTo items query items.length result := by
  induction hm : items.length - i generalizing i ranked with
  | zero =>
    obtain rfl : i = items.length := by omega
    exact ⟨ranked, by rw [rankFrom, if_neg (lt_irrefl _)], h⟩
  | succ m ih =>
    have hlt : i < items.length := by omega
    have hitem : items[i]? = some items[i] := getElem?_eq_getElem hlt
    rw [rankFrom, if_pos hlt, hitem]
    simp only [bind_eq_bind, bind_some, ← scoreAt_eq hitem]
    split_ifs with hneg
    · exact ih (h.skip hneg) hlt (by omega)
    · obtain ⟨pos, next, hpos, hnext, hranks⟩ := h.insert (by omega)
      rw [hpos, bind_some, hnext, bind_some]
      exact ih hranks hlt (by omega)

omit h

theorem filterIndices_ranks (hquery : query ≠ []) :
    ∃ ranked, filterIndices items query = some ranked ∧ ranked.Pairwise (Ranks items query) ∧
      ∀ i, i ∈ ranked ↔ ∃ item, items[i]? = some item ∧ query.Sublist item := by
  have hstart : RanksUpTo items query 0 { idx := [], score := [] } :=
    ⟨rfl, List.Pairwise.nil, fun i => iff_of_false not_mem_nil fun h => Nat.not_lt_zero i h.1⟩
  obtain ⟨result, hresult, hranks⟩ := rankFrom_ranks hstart (Nat.zero_le _)
  refine ⟨result.idx, ?_, hranks.ordered, fun i => ?_⟩
  · rw [filterIndices, if_neg (fun h => hquery (length_eq_zero_iff.1 h)), hresult]
    rfl
  · rw [hranks.mem, scoreAt_nonneg_iff]
    refine and_iff_right_of_imp fun ⟨item, hitem, _⟩ => ?_
    exact (List.getElem?_eq_some_iff.1 hitem).1

end Order

/-- The filter keeps exactly the items the query is a subsequence of, ranked, and the best is the first of them. -/
theorem ranking_sound (items : List Text) (query : Text) (hquery : query ≠ []) :
    (∀ text, (0 ≤ score text query ↔ isMatch text query = 1) ∧ (isMatch text query = 1 ↔ query.Sublist text)) ∧
    ∃ ranked, filterIndices items query = some ranked ∧ ranked.Nodup ∧ ranked.Pairwise (Ranks items query) ∧
      (∀ i, i ∈ ranked ↔ ∃ item, items[i]? = some item ∧ query.Sublist item) ∧
      ∃ best, bestIndex items query = some best ∧
        (ranked = [] ∧ best = -1 ∨ ∃ i ∈ ranked, best = i ∧ ∀ j ∈ ranked, j = i ∨ Ranks items query i j) := by
  refine ⟨fun text => ⟨score_iff text query, isMatch_iff text query⟩, ?_⟩
  obtain ⟨ranked, hranked, hordered, hmem⟩ := @filterIndices_ranks items _ hquery
  refine ⟨ranked, hranked, hordered.imp fun h => ?_, hordered, hmem, ?_⟩
  · rintro rfl
    unfold Ranks at h
    omega
  · rw [bestIndex, hranked, bind_eq_bind, bind_some]
    cases ranked with
    | nil => exact ⟨-1, rfl, .inl ⟨rfl, rfl⟩⟩
    | cons i rest =>
      refine ⟨i, rfl, .inr ⟨i, mem_cons_self, rfl, fun j hj => ?_⟩⟩
      exact (mem_cons.1 hj).imp_right fun hj => rel_of_pairwise_cons hordered hj

theorem ranking_sound_small :
    ∃ ranked, filterIndices [[98], [97, 98]] [98] = some ranked ∧
      ∀ i, i ∈ ranked ↔ ∃ item : Text, [[98], [97, 98]][i]? = some item ∧ List.Sublist [98] item :=
  have ⟨_, ranked, hranked, _, _, hmem, _⟩ := ranking_sound [[98], [97, 98]] [98] (by decide)
  ⟨ranked, hranked, hmem⟩

end Mlang.FuzzyRankings
