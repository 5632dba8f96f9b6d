import Mathlib.Data.List.Induction
import Mlang.MergeSorts

namespace Mlang.NthElements

open MergeSorts StableSorts List Option

variable {T K : Type}

variable (less : K → K → Bool) (projection : T → K)

def exchange (data : List T) (i j : Int) : Option (List T) := do
  let temporary ← data[i.toNat]?
  let other ← data[j.toNat]?
  some ((data.set i.toNat other).set j.toNat temporary)

def partitionFrom (pivot : K) (data : List T) (lessEnd current greaterStart : Int) :
    Option (List T × Int × Int) :=
  if current ≤ greaterStart then do
    let x ← data[current.toNat]?
    if less (projection x) pivot then
      partitionFrom pivot (← exchange data lessEnd current) (lessEnd + 1) (current + 1) greaterStart
    else if less pivot (projection x) then
      partitionFrom pivot (← exchange data current greaterStart) lessEnd current (greaterStart - 1)
    else partitionFrom pivot data lessEnd (current + 1) greaterStart
  else some (data, lessEnd, greaterStart)
termination_by (greaterStart + 1 - current).toNat

def selectFrom (nth : Int) : Nat → List T → Int → Int → Option (Int × List T)
  | 0, _, _, _ => none
  | fuel + 1, data, first, last =>
    if first ≤ last then do
      let middle := first + (last - first) / 2
      let pivot := projection (← data[middle.toNat]?)
      let (data, lessEnd, greaterStart) ← partitionFrom less projection pivot data first first last
      if nth < lessEnd then selectFrom nth fuel data first (lessEnd - 1)
      else if nth > greaterStart then selectFrom nth fuel data (greaterStart + 1) last
      else some (nth, data)
    else some (-1, data)

def nthElementInPlaceImpl (fuel : Nat) (data : List T) (nth : Int) : Option (Int × List T) :=
  let n : Int := data.length
  if nth < 0 ∨ nth ≥ n then some (-1, data) else selectFrom less projection nth fuel data 0 (n - 1)

structure Classes (T : Type) where
  lower : List T := []
  equal : List T := []
  upper : List T := []

def classify (pivot : T) (s : Classes T) (value : T) : Classes T :=
  let valueKey := projection value
  let pivotKey := projection pivot
  if less valueKey pivotKey then { s with lower := s.lower ++ [value] }
  else if less pivotKey valueKey then { s with upper := s.upper ++ [value] }
  else { s with equal := s.equal ++ [value] }

def nthElementImplByProjected : Nat → List T → Int → Option (List T)
  | 0, _, _ => none
  | fuel + 1, data, nth =>
    let n : Int := data.length
    if nth < 0 ∨ nth ≥ n then some []
    else if n < 2 then take data data.length
    else do
      let pivot ← data[data.length / 2]?
      let s := data.foldl (classify less projection pivot) {}
      if nth < s.lower.length then do
        let result ← nthElementImplByProjected fuel s.lower nth
        some (result ++ s.equal ++ s.upper)
      else if nth ≥ s.lower.length + s.equal.length then do
        let selected ← nthElementImplByProjected fuel s.upper (nth - s.lower.length - s.equal.length)
        some (s.lower ++ s.equal ++ selected)
      else some (s.lower ++ s.equal ++ s.upper)

section Orders

variable (lt : T → T → Bool)

def Below (low high : List T) : Prop := ∀ a ∈ low, ∀ b ∈ high, lt b a = false

/-- Nothing before place `n` is above what stands there, and nothing after it is below that. -/
def Selected (l : List T) (n : Nat) : Prop :=
  ∃ before x after, l = before ++ x :: after ∧ before.length = n ∧ Below lt before [x] ∧ Below lt [x] after

structure Parts (p : T) (lo eq hi : List T) : Prop where
  lower : ∀ x ∈ lo, lt x p = true
  equal : ∀ x ∈ eq, alike lt x p = true
  upper : ∀ x ∈ hi, lt p x = true

variable {lt} {l l' lo eq hi low high front back : List T} {p x y : T} {n k : Nat}

theorem getElem?_middle : (front ++ x :: back)[front.length]? = some x := by
  rw [getElem?_append_right (le_refl _), Nat.sub_self, getElem?_cons_zero]

theorem Selected.get (h : Selected lt l n) : ∃ x, l[n]? = some x := by
  obtain ⟨before, x, after, rfl, rfl, -⟩ := h
  exact ⟨x, getElem?_middle⟩

theorem Selected.append_right (h : Selected lt low n) (hbelow : Below lt low high) : Selected lt (low ++ high) n := by
  obtain ⟨before, x, after, rfl, rfl, hbefore, hafter⟩ := h
  refine ⟨before, x, after ++ high, append_assoc .., rfl, hbefore, fun a ha b hb => ?_⟩
  rcases mem_append.1 hb with hb | hb
  · exact hafter a ha b hb
  · exact hbelow a (by rw [mem_singleton.1 ha]; exact mem_append_right _ mem_cons_self) b hb

theorem Selected.append_left (h : Selected lt high n) (hbelow : Below lt low high) :
    Selected lt (low ++ high) (low.length + n) := by
  obtain ⟨before, x, after, rfl, rfl, hbefore, hafter⟩ := h
  refine ⟨low ++ before, x, after, (append_assoc ..).symm, length_append, fun a ha b hb => ?_, hafter⟩
  rcases mem_append.1 ha with ha | ha
  · exact hbelow a ha b (by rw [mem_singleton.1 hb]; exact mem_append_right _ mem_cons_self)
  · exact hbefore a ha b hb

theorem Below.of_perm (h : Below lt low high) (hlow : l.Perm low) (hhigh : l'.Perm high) : Below lt l l' :=
  fun a ha b hb => h a (hlow.mem_iff.1 ha) b (hhigh.mem_iff.1 hb)

variable (hlt : StrictWeak lt)
include hlt

/-- What is at most the pivot stands below what is at least the pivot. -/
theorem below_of (hlow : ∀ x ∈ low, lt p x = false) (hhigh : ∀ x ∈ high, lt x p = false) : Below lt low high :=
  fun a ha b hb => hlt.cut (hhigh b hb) (hlow a ha)

theorem Parts.below_lower (h : Parts lt p lo eq hi) : Below lt lo (eq ++ hi) :=
  below_of hlt (fun x hx => hlt.asymm (h.lower x hx)) fun x hx =>
    (mem_append.1 hx).elim (fun hx => (alike_iff.1 (h.equal x hx)).1) fun hx => hlt.asymm (h.upper x hx)

theorem Parts.below_upper (h : Parts lt p lo eq hi) : Below lt (lo ++ eq) hi :=
  below_of hlt (fun x hx => (mem_append.1 hx).elim (fun hx => hlt.asymm (h.lower x hx))
    fun hx => (alike_iff.1 (h.equal x hx)).2) fun x hx => hlt.asymm (h.upper x hx)

omit hlt in
theorem selected_at (hn : n < l.length) (hbefore : ∀ a ∈ l.take n, lt l[n] a = false)
    (hafter : ∀ b ∈ l.drop (n + 1), lt b l[n] = false) : Selected lt l n := by
  refine ⟨l.take n, l[n], l.drop (n + 1), ?_, length_take_of_le (le_of_lt hn), fun a ha b hb => ?_,
    fun a ha b hb => ?_⟩
  · rw [← drop_eq_getElem_cons hn, take_append_drop]
  · rw [mem_singleton.1 hb]
    exact hbefore a ha
  · rw [mem_singleton.1 ha]
    exact hafter b hb

theorem selected_alike (h : ∀ x ∈ l, alike lt x p = true) (hn : n < l.length) : Selected lt l n := by
  have hbelow : Below lt l l := below_of hlt (fun x hx => (alike_iff.1 (h x hx)).2) fun x hx => (alike_iff.1 (h x hx)).1
  have hget : l[n] ∈ l := getElem_mem hn
  exact selected_at hn (fun a ha => hbelow a (mem_of_mem_take ha) _ hget)
    fun b hb => hbelow _ hget b (mem_of_mem_drop hb)

variable (h : Parts lt p lo eq hi)
include h

theorem Parts.equal_pos (hp : p ∈ lo ++ eq ++ hi) : 0 < eq.length := by
  rcases mem_append.1 hp with hp | hp
  · rcases mem_append.1 hp with hp | hp
    · exact absurd (h.lower p hp) (by rw [hlt.irrefl]; decide)
    · exact length_pos_of_mem hp
  · exact absurd (h.upper p hp) (by rw [hlt.irrefl]; decide)

theorem Parts.selected_lower (hs : Selected lt l n) (hl : l.Perm lo) :
    Selected lt (l ++ eq ++ hi) n := by
  rw [append_assoc]
  exact hs.append_right ((h.below_lower hlt).of_perm hl (List.Perm.refl _))

theorem Parts.selected_upper (hs : Selected lt l n) (hl : l.Perm hi) :
    Selected lt (lo ++ eq ++ l) ((lo ++ eq).length + n) :=
  hs.append_left ((h.below_upper hlt).of_perm (List.Perm.refl _) hl)

theorem Parts.selected_equal (hk : k < eq.length) :
    Selected lt (lo ++ eq ++ hi) (lo.length + k) := by
  refine ((selected_alike hlt h.equal hk).append_left fun a ha b hb => ?_).append_right (h.below_upper hlt)
  exact h.below_lower hlt a ha b (mem_append_left _ hb)

omit h

omit hlt in
theorem selected_ascending (h : Ascending lt l) (hn : n < l.length) : Selected lt l n := by
  rw [← take_append_drop n l, drop_eq_getElem_cons hn] at h
  obtain ⟨-, hafter, hcross⟩ := pairwise_append.1 h
  exact selected_at hn (fun a ha => hcross a ha _ mem_cons_self) fun b hb => rel_of_pairwise_cons hafter hb

/-- The number of elements up to what is selected tells where it stands. -/
theorem selected_le (h : Selected lt l n) (h' : Selected lt l' n) (hperm : l.Perm l') (hx : l[n]? = some x)
    (hy : l'[n]? = some y) : lt y x = false := by
  obtain ⟨before, x, after, rfl, rfl, -, hafter⟩ := h
  obtain ⟨before', y, after', rfl, hlength, hbefore, -⟩ := h'
  rw [getElem?_middle] at hx
  rw [← hlength, getElem?_middle] at hy
  cases hx
  cases hy
  refine Bool.eq_false_iff.2 fun hyx => ?_
  have hcount := hperm.countP_eq fun z => !lt y z
  have hlow : before'.countP (fun z => !lt y z) = before'.length :=
    countP_eq_length.2 fun z hz => by rw [hbefore z hz y mem_cons_self]; rfl
  have hhigh : after.countP (fun z => !lt y z) = 0 := countP_eq_zero.2 fun z hz hyz => by
    rw [Bool.not_eq_true'] at hyz
    have hyx' := hlt.cut hyz (hafter x mem_cons_self z hz)
    exact Bool.false_ne_true (hyx'.symm.trans hyx)
  have hbound := countP_le_length (p := fun z => !lt y z) (l := before)
  rw [countP_append, countP_cons, countP_append, countP_cons, hhigh, hlow, hyx, hlt.irrefl] at hcount
  simp only [Bool.not_true, Bool.not_false, if_true, Bool.false_eq_true, if_false] at hcount
  omega

theorem selected_unique (h : Selected lt l n) (h' : Selected lt l' n) (hperm : l.Perm l') (hx : l[n]? = some x)
    (hy : l'[n]? = some y) : alike lt x y = true :=
  alike_iff.2 ⟨selected_le hlt h' h hperm.symm hy hx, selected_le hlt h h' hperm hx hy⟩

end Orders

section Partitions

variable {less : K → K → Bool} {projection : T → K} {data front back l m r lo eq unk hi : List T} {a b p x : T}
variable {i j lessEnd current greaterStart : Int}

theorem exchange_eq (hi : i = (l.length : Nat)) (hj : j = (l.length + 1 + m.length : Nat)) :
    exchange (l ++ a :: (m ++ b :: r)) i j = some (l ++ b :: (m ++ a :: r)) := by
  have hsecond : (l ++ a :: (m ++ b :: r))[l.length + 1 + m.length]? = some b := by
    rw [getElem?_append_right (by omega), show l.length + 1 + m.length - l.length = m.length + 1 by omega,
      getElem?_cons_succ, getElem?_middle]
  rw [exchange, hi, hj, Int.toNat_natCast, Int.toNat_natCast, getElem?_middle, hsecond, bind_eq_bind,
    bind_some, bind_some, set_append_right _ _ (le_refl _), Nat.sub_self, set_cons_zero,
    set_append_right _ _ (by omega), show l.length + 1 + m.length - l.length = m.length + 1 by omega,
    set_cons_succ, set_append_right _ _ (le_refl _), Nat.sub_self, set_cons_zero]

theorem exchange_self (hi : i = (l.length : Nat)) : exchange (l ++ a :: r) i i = some (l ++ a :: r) := by
  rw [exchange, hi, Int.toNat_natCast, getElem?_middle, bind_eq_bind, bind_some,
    bind_some, set_append_right _ _ (le_refl _), Nat.sub_self, set_cons_zero,
    set_append_right _ _ (le_refl _), Nat.sub_self, set_cons_zero]

/-- An element below the pivot changes places with the first of those alike to it. -/
theorem exchange_lower (x : T) (unk hi back : List T) (hl : lessEnd = front.length + lo.length)
    (hc : current = front.length + lo.length + eq.length) :
    ∃ eq', eq'.Perm eq ∧ exchange (front ++ (lo ++ eq ++ x :: unk ++ hi) ++ back) lessEnd current =
      some (front ++ ((lo ++ [x]) ++ eq' ++ unk ++ hi) ++ back) := by
  have hlow : lessEnd = ((front ++ lo).length : Nat) := by rw [hl, length_append]; rfl
  cases eq with
  | nil =>
    obtain rfl : current = lessEnd := by rw [hc, hl]; exact Int.add_zero _
    have hself := exchange_self (a := x) (r := unk ++ hi ++ back) hlow
    exact ⟨[], List.Perm.refl _, by simpa only [append_assoc, cons_append, nil_append] using hself⟩
  | cons e eq =>
    have hboth := exchange_eq (m := eq) (a := e) (b := x) (r := unk ++ hi ++ back) hlow (j := current) (by
      rw [hc, length_append, length_cons]
      omega)
    refine ⟨eq ++ [e], perm_append_singleton e eq, ?_⟩
    simpa only [append_assoc, cons_append, nil_append] using hboth

theorem exchange_upper (x : T) (hi back : List T) (hc : current = front.length + lo.length + eq.length)
    (hg : greaterStart = front.length + lo.length + eq.length + unk.length) :
    ∃ unk', unk'.Perm unk ∧ exchange (front ++ (lo ++ eq ++ x :: unk ++ hi) ++ back) current greaterStart =
      some (front ++ (lo ++ eq ++ unk' ++ x :: hi) ++ back) := by
  have hcurrent : current = ((front ++ lo ++ eq).length : Nat) := by
    rw [hc, length_append, length_append]
    rfl
  induction unk using List.reverseRecOn with
  | nil =>
    obtain rfl : greaterStart = current := by rw [hg, hc]; exact Int.add_zero _
    have hself := exchange_self (a := x) (r := hi ++ back) hcurrent
    exact ⟨[], List.Perm.refl _, by simpa only [append_assoc, cons_append, nil_append] using hself⟩
  | append_singleton unk y _ =>
    have hboth := exchange_eq (m := unk) (a := x) (b := y) (r := hi ++ back) hcurrent (j := greaterStart) (by
      rw [hg]
      simp only [length_append, length_singleton]
      omega)
    refine ⟨y :: unk, (perm_append_singleton y unk).symm, ?_⟩
    simpa only [append_assoc, cons_append, nil_append] using hboth

theorem partitionFrom_parts (hparts : Parts (keyed less projection) p lo eq hi)
    (hdata : data = front ++ (lo ++ eq ++ unk ++ hi) ++ back) (hl : lessEnd = front.length + lo.length)
    (hc : current = front.length + lo.length + eq.length)
    (hg : greaterStart = front.length + lo.length + eq.length + unk.length - 1) :
    ∃ lo' eq' hi', partitionFrom less projection (projection p) data lessEnd current greaterStart =
        some (front ++ (lo' ++ eq' ++ hi') ++ back, (front.length + lo'.length : Int),
          (front.length + lo'.length + eq'.length - 1 : Int)) ∧
      Parts (keyed less projection) p lo' eq' hi' ∧ (lo' ++ eq' ++ hi').Perm (lo ++ eq ++ unk ++ hi) := by
  induction hn : unk.length generalizing data lo eq unk hi lessEnd current greaterStart with
  | zero =>
    cases length_eq_zero_iff.1 hn
    rw [append_nil] at hdata ⊢
    rw [partitionFrom, if_neg (by omega), hdata, hl, hg]
    exact ⟨lo, eq, hi, by rw [length_nil]; simp, hparts, List.Perm.refl _⟩
  | succ n ih =>
    obtain ⟨x, unk, rfl⟩ := exists_cons_of_length_eq_add_one hn
    rw [length_cons] at hg hn
    have hget : data[current.toNat]? = some x := by
      rw [hdata, show current.toNat = (front ++ lo ++ eq).length by simp only [length_append]; omega]
      have hmiddle : (front ++ lo ++ eq ++ x :: (unk ++ hi ++ back))[(front ++ lo ++ eq).length]? = some x :=
        getElem?_middle
      simpa only [append_assoc, cons_append] using hmiddle
    rw [partitionFrom, if_pos (by omega), hget, bind_eq_bind, bind_some]
    cases hxp : less (projection x) (projection p) with
    | true =>
      obtain ⟨eq', heq, hex⟩ := exchange_lower x unk hi back hl hc
      have hlen := heq.length_eq
      have hgrown : (lo ++ [x]).length = lo.length + 1 := length_append
      rw [if_pos rfl, hdata, hex, bind_eq_bind, bind_some]
      have hparts' : Parts (keyed less projection) p (lo ++ [x]) eq' hi :=
        ⟨fun y hy => (mem_append.1 hy).elim (hparts.lower y) fun hy => by rwa [mem_singleton.1 hy],
          fun y hy => hparts.equal y (heq.mem_iff.1 hy), hparts.upper⟩
      have hl' : lessEnd + 1 = front.length + (lo ++ [x]).length := by omega
      have hc' : current + 1 = front.length + (lo ++ [x]).length + eq'.length := by omega
      have hg' : greaterStart = front.length + (lo ++ [x]).length + eq'.length + unk.length - 1 := by omega
      obtain ⟨lo', eq'', hi', hrun, hdone, hperm⟩ := ih hparts' rfl hl' hc' hg' (Nat.succ.inj hn)
      have hmoved : ([x] ++ eq').Perm (eq ++ [x]) := perm_append_comm.trans (heq.append_right [x])
      refine ⟨lo', eq'', hi', hrun, hdone, hperm.trans ?_⟩
      simpa only [append_assoc, cons_append, nil_append] using
        (hmoved.append_left lo).append_right (unk ++ hi)
    | false =>
      rw [if_neg Bool.false_ne_true]
      cases hpx : less (projection p) (projection x) with
      | true =>
        obtain ⟨unk', hunk, hex⟩ := exchange_upper x hi back hc
          (by omega : greaterStart = front.length + lo.length + eq.length + unk.length)
        have hlen := hunk.length_eq
        rw [if_pos rfl, hdata, hex, bind_eq_bind, bind_some]
        have hparts' : Parts (keyed less projection) p lo eq (x :: hi) :=
          ⟨hparts.lower, hparts.equal, fun y hy => (mem_cons.1 hy).elim (fun hy => by rwa [hy]) (hparts.upper y)⟩
        have hg' : greaterStart - 1 = front.length + lo.length + eq.length + unk'.length - 1 := by omega
        obtain ⟨lo', eq', hi', hrun, hdone, hperm⟩ := ih hparts' rfl hl hc hg' (by omega)
        have hmoved : (unk' ++ [x]).Perm (x :: unk) := perm_append_comm.trans (hunk.cons x)
        refine ⟨lo', eq', hi', hrun, hdone, hperm.trans ?_⟩
        simpa only [append_assoc, cons_append, nil_append] using
          (hmoved.append_left (lo ++ eq)).append_right hi
      | false =>
        rw [if_neg Bool.false_ne_true]
        have hgrown : (eq ++ [x]).length = eq.length + 1 := length_append
        have hparts' : Parts (keyed less projection) p lo (eq ++ [x]) hi :=
          ⟨hparts.lower, fun y hy => (mem_append.1 hy).elim (hparts.equal y) fun hy => by
            rw [mem_singleton.1 hy]
            exact alike_iff.2 ⟨hxp, hpx⟩, hparts.upper⟩
        have hshape : lo ++ eq ++ x :: unk ++ hi = lo ++ (eq ++ [x]) ++ unk ++ hi := by
          simp only [append_assoc, cons_append, nil_append]
        have hc' : current + 1 = front.length + lo.length + (eq ++ [x]).length := by omega
        have hg' : greaterStart = front.length + lo.length + (eq ++ [x]).length + unk.length - 1 := by omega
        rw [hshape] at hdata ⊢
        exact ih hparts' hdata hl hc' hg' (Nat.succ.inj hn)

/-- The loop that narrows the window. -/
theorem selectFrom_selects {window : List T} {first last nth : Int} {n fuel : Nat}
    (hless : StrictWeak (keyed less projection)) (hdata : data = front ++ window ++ back)
    (hfirst : first = front.length) (hlast : last = front.length + window.length - 1)
    (hnth : nth = front.length + n) (hn : n < window.length) (hfuel : window.length < fuel) :
    ∃ window', selectFrom less projection nth fuel data first last = some (nth, front ++ window' ++ back) ∧
      window'.Perm window ∧ Selected (keyed less projection) window' n := by
  induction fuel generalizing data front window back first last n with
  | zero => cases hfuel
  | succ fuel ih =>
    have hmiddle : (first + (last - first) / 2).toNat = front.length + (window.length - 1) / 2 := by omega
    have hin : (window.length - 1) / 2 < window.length := by omega
    have hget : data[front.length + (window.length - 1) / 2]? = some window[(window.length - 1) / 2] := by
      rw [hdata, append_assoc, getElem?_append_right (Nat.le_add_right _ _), Nat.add_sub_cancel_left,
        getElem?_append_left hin, getElem?_eq_getElem hin]
    have hp := getElem_mem hin
    generalize window[(window.length - 1) / 2] = p at hget hp
    have hstart : Parts (keyed less projection) p [] [] [] := ⟨by simp, by simp, by simp⟩
    have hdata' : data = front ++ ([] ++ [] ++ window ++ []) ++ back := by simpa using hdata
    obtain ⟨lo, eq, hi, hrun, hparts, hperm⟩ := partitionFrom_parts hstart hdata' (by simpa using hfirst)
      (by simpa using hfirst) (by simpa using hlast)
    simp only [nil_append, append_nil] at hperm
    have hlength := hperm.length_eq
    simp only [length_append] at hlength
    have heq := hparts.equal_pos hless (hperm.mem_iff.2 hp)
    have hfront : (front ++ lo ++ eq).length = front.length + lo.length + eq.length := by
      rw [length_append, length_append]
    rw [selectFrom, if_pos (by omega)]
    simp only [hmiddle, hget, bind_eq_bind, bind_some, hrun]
    split_ifs with hlower hupper
    · have hshape : front ++ (lo ++ eq ++ hi) ++ back = front ++ lo ++ (eq ++ hi ++ back) := by
        simp only [append_assoc]
      obtain ⟨lo', hrest, hlo, hselected⟩ := ih hshape hfirst rfl hnth (by omega) (by omega)
      refine ⟨lo' ++ eq ++ hi, by rw [hrest]; simp only [append_assoc], ?_, hparts.selected_lower hless hselected hlo⟩
      exact ((hlo.append_right eq).append_right hi).trans hperm
    · have hshape : front ++ (lo ++ eq ++ hi) ++ back = front ++ lo ++ eq ++ hi ++ back := by
        simp only [append_assoc]
      have hrest' : nth = (front ++ lo ++ eq).length + ((n - (lo ++ eq).length : Nat) : Int) := by
        rw [hfront, length_append]
        omega
      have hfirst' : (front.length + lo.length + eq.length - 1 + 1 : Int) = (front ++ lo ++ eq).length := by omega
      have hlast' : last = (front ++ lo ++ eq).length + hi.length - 1 := by omega
      obtain ⟨hi', hrest, hhi, hselected⟩ := ih hshape hfirst' hlast' hrest' (by
        rw [length_append]
        omega) (by omega)
      have hplace : (lo ++ eq).length + (n - (lo ++ eq).length) = n := by
        rw [length_append]
        omega
      refine ⟨lo ++ eq ++ hi', by rw [hrest]; simp only [append_assoc], (hhi.append_left _).trans hperm, ?_⟩
      rw [← hplace]
      exact hparts.selected_upper hless hselected hhi
    · have hplace : lo.length + (n - lo.length) = n := by omega
      refine ⟨lo ++ eq ++ hi, rfl, hperm, ?_⟩
      rw [← hplace]
      exact hparts.selected_equal hless (by omega)

end Partitions

variable {less : K → K → Bool} {projection : T → K} {p : T} {s : Classes T}

theorem foldl_classify (data : List T) (h : Parts (keyed less projection) p s.lower s.equal s.upper) :
    let s' := data.foldl (classify less projection p) s
    Parts (keyed less projection) p s'.lower s'.equal s'.upper ∧
      (s'.lower ++ s'.equal ++ s'.upper).Perm (s.lower ++ s.equal ++ s.upper ++ data) := by
  induction data generalizing s with
  | nil => exact ⟨h, by rw [append_nil]; exact List.Perm.refl _⟩
  | cons x data ih =>
    rw [foldl_cons, classify]
    split_ifs with hxp hpx
    · obtain ⟨hparts, hperm⟩ := ih (s := { s with lower := s.lower ++ [x] }) ⟨fun y hy =>
        (mem_append.1 hy).elim (h.lower y) fun hy => by rwa [mem_singleton.1 hy], h.equal, h.upper⟩
      refine ⟨hparts, hperm.trans (List.Perm.trans ?_ perm_middle.symm)⟩
      have hmiddle : (s.lower ++ x :: (s.equal ++ s.upper ++ data)).Perm _ := perm_middle
      simpa only [append_assoc, cons_append, nil_append] using hmiddle
    · obtain ⟨hparts, hperm⟩ := ih (s := { s with upper := s.upper ++ [x] }) ⟨h.lower, h.equal, fun y hy =>
        (mem_append.1 hy).elim (h.upper y) fun hy => by rwa [mem_singleton.1 hy]⟩
      refine ⟨hparts, hperm.trans ?_⟩
      simp only [append_assoc, cons_append, nil_append]
      exact List.Perm.refl _
    · obtain ⟨hparts, hperm⟩ := ih (s := { s with equal := s.equal ++ [x] }) ⟨h.lower, fun y hy =>
        (mem_append.1 hy).elim (h.equal y) fun hy => by
          rw [mem_singleton.1 hy]
          exact alike_iff.2 ⟨Bool.eq_false_iff.2 hxp, Bool.eq_false_iff.2 hpx⟩, h.upper⟩
      refine ⟨hparts, hperm.trans (List.Perm.trans ?_ perm_middle.symm)⟩
      have hmiddle : (s.lower ++ s.equal ++ x :: (s.upper ++ data)).Perm _ := perm_middle
      simpa only [append_assoc, cons_append, nil_append] using hmiddle

theorem nthElementImpl_selects {data : List T} {nth : Int} {n fuel : Nat} (hless : StrictWeak (keyed less projection))
    (hnth : nth = n) (hn : n < data.length) (hfuel : data.length < fuel) :
    ∃ copied, nthElementImplByProjected less projection fuel data nth = some copied ∧ copied.Perm data ∧
      Selected (keyed less projection) copied n := by
  induction fuel generalizing data nth n with
  | zero => cases hfuel
  | succ fuel ih =>
    rw [nthElementImplByProjected, if_neg (by omega)]
    split_ifs with hsmall
    · refine ⟨data, by rw [take_eq, take_length], List.Perm.refl _, ?_⟩
      exact selected_ascending (stable_small (by omega)).ascending hn
    · have hin : data.length / 2 < data.length := by omega
      rw [getElem?_eq_getElem hin, bind_eq_bind, bind_some]
      have hp := getElem_mem hin
      generalize data[data.length / 2] = p at hp
      have hstart : Parts (keyed less projection) p ({} : Classes T).lower ({} : Classes T).equal
          ({} : Classes T).upper := ⟨by simp, by simp, by simp⟩
      obtain ⟨hparts, hperm⟩ := foldl_classify data hstart
      generalize data.foldl (classify less projection p) {} = s at hparts hperm
      obtain ⟨lo, eq, hi⟩ := s
      dsimp only at hparts hperm ⊢
      simp only [nil_append] at hperm
      have hlength := hperm.length_eq
      simp only [length_append] at hlength
      have heq := hparts.equal_pos hless (hperm.mem_iff.2 hp)
      split_ifs with hlower hupper
      · obtain ⟨result, hrun, hlo, hselected⟩ := ih hnth (by omega : n < lo.length) (by omega)
        refine ⟨result ++ eq ++ hi, by rw [hrun]; rfl, ?_, hparts.selected_lower hless hselected hlo⟩
        exact ((hlo.append_right eq).append_right hi).trans hperm
      · obtain ⟨result, hrun, hhi, hselected⟩ := ih
          (by rw [length_append]; omega : nth - lo.length - eq.length = ((n - (lo ++ eq).length : Nat) : Int))
          (by rw [length_append]; omega : n - (lo ++ eq).length < hi.length) (by omega)
        have hplace : (lo ++ eq).length + (n - (lo ++ eq).length) = n := by
          rw [length_append]
          omega
        refine ⟨lo ++ eq ++ result, by rw [hrun]; rfl, (hhi.append_left _).trans hperm, ?_⟩
        rw [← hplace]
        exact hparts.selected_upper hless hselected hhi
      · have hplace : lo.length + (n - lo.length) = n := by omega
        refine ⟨lo ++ eq ++ hi, rfl, hperm, ?_⟩
        rw [← hplace]
        exact hparts.selected_equal hless (by omega)

/-- Both selections leave the elements in order around place `nth`, where the sorted list has the same key. -/
theorem nth_element_selects (less : K → K → Bool) (projection : T → K) (data : List T) (nth : Int) (fuel : Nat)
    (hless : StrictWeak less) (hlow : 0 ≤ nth) (hhigh : nth < data.length) (hfuel : data.length < fuel) :
    ∃ inPlace copied x y, nthElementInPlaceImpl less projection fuel data nth = some (nth, inPlace) ∧
      inPlace.Perm data ∧ Selected (keyed less projection) inPlace nth.toNat ∧
      nthElementImplByProjected less projection fuel data nth = some copied ∧
      copied.Perm data ∧ Selected (keyed less projection) copied nth.toNat ∧
      inPlace[nth.toNat]? = some x ∧ copied[nth.toNat]? = some y ∧ alike less (projection x) (projection y) = true ∧
      ∀ sorted, sorted.Perm data → Ascending (keyed less projection) sorted →
        ∃ z, sorted[nth.toNat]? = some z ∧ alike less (projection x) (projection z) = true ∧
          alike less (projection y) (projection z) = true := by
  have hkeys : StrictWeak (keyed less projection) := hless.comap projection
  have hn : nth.toNat < data.length := by omega
  have hwhole : data = [] ++ data ++ [] := (append_nil data).symm
  have hfirst : (0 : Int) = ([] : List T).length := rfl
  have hlast : (data.length - 1 : Int) = ([] : List T).length + data.length - 1 := by rw [length_nil]; omega
  have hplace : nth = ([] : List T).length + (nth.toNat : Nat) := by rw [length_nil]; omega
  obtain ⟨inPlace, hrun, hperm, hselected⟩ := selectFrom_selects hkeys hwhole hfirst hlast hplace hn hfuel
  obtain ⟨copied, hcopy, hperm', hselected'⟩ := nthElementImpl_selects hkeys
    (by omega : nth = (nth.toNat : Nat)) hn hfuel
  obtain ⟨x, hx⟩ := hselected.get
  obtain ⟨y, hy⟩ := hselected'.get
  have hxy := selected_unique hkeys hselected hselected' (hperm.trans hperm'.symm) hx hy
  refine ⟨inPlace, copied, x, y, ?_, hperm, hselected, hcopy, hperm', hselected', hx, hy,
    hxy, fun sorted hsorted hasc => ?_⟩
  · rw [nthElementInPlaceImpl, if_neg (by omega), hrun, nil_append, append_nil]
  · have hplace := selected_ascending hasc (hsorted.length_eq.symm ▸ hn)
    obtain ⟨z, hz⟩ := hplace.get
    have hxz := selected_unique hkeys hselected hplace (hperm.trans hsorted.symm) hx hz
    have hyz := selected_unique hkeys hselected' hplace (hperm'.trans hsorted.symm) hy hz
    exact ⟨z, hz, hxz, hyz⟩

theorem nth_element_selects_pair :
    ∃ inPlace : List Nat, nthElementInPlaceImpl (fun a b => decide (a < b)) id 3 [2, 1] 0 = some (0, inPlace) ∧
      inPlace.Perm [2, 1] ∧ Selected (keyed (fun a b => decide (a < b)) id) inPlace 0 := by
  obtain ⟨inPlace, copied, x, y, hrun, hperm, hselected, -⟩ := nth_element_selects
    (fun a b : Nat => decide (a < b)) id [2, 1] 0 3 strictWeak_lt (by decide) (by decide) (by decide)
  exact ⟨inPlace, hrun, hperm, hselected⟩

theorem Selected.sides {lt : T → T → Bool} {l front back : List T} {n : Nat} (hlt : StrictWeak lt) (h : Selected lt l n)
    (hfront : Stable lt (l.take n) front) (hback : Stable lt (l.drop n) back) : Ascending lt (front ++ back) := by
  obtain ⟨before, x, after, rfl, rfl, hbefore, hafter⟩ := h
  rw [take_left] at hfront
  rw [drop_left] at hback
  refine pairwise_append.2 ⟨hfront.ascending, hback.ascending, fun a ha b hb => ?_⟩
  have hxa := hbefore a (hfront.perm.mem_iff.1 ha) x mem_cons_self
  rcases mem_cons.1 (hback.perm.mem_iff.1 hb) with rfl | hb
  · exact hxa
  · exact hlt.cut (hafter x mem_cons_self b hb) hxa

/-- Sorting the two sides of a selected place sorts the whole list. -/
theorem nth_element_sorts (less : K → K → Bool) (projection : T → K) (data : List T) (nth : Int) (fuel : Nat)
    (hless : StrictWeak less) (hlow : 0 ≤ nth) (hhigh : nth < data.length) (hfuel : data.length < fuel) :
    ∃ inPlace front back, nthElementInPlaceImpl less projection fuel data nth = some (nth, inPlace) ∧
      sortedByProjected fuel (inPlace.take nth.toNat) less projection = some front ∧
      sortedByProjected fuel (inPlace.drop nth.toNat) less projection = some back ∧
      (front ++ back).Perm data ∧ Ascending (keyed less projection) (front ++ back) := by
  have hkeys : StrictWeak (keyed less projection) := hless.comap projection
  have hwhole : data = [] ++ data ++ [] := (append_nil data).symm
  have hfirst : (0 : Int) = ([] : List T).length := rfl
  have hlast : (data.length - 1 : Int) = ([] : List T).length + data.length - 1 := by rw [length_nil]; omega
  have hplace : nth = ([] : List T).length + (nth.toNat : Nat) := by rw [length_nil]; omega
  obtain ⟨inPlace, hrun, hperm, hselected⟩ :=
    selectFrom_selects hkeys hwhole hfirst hlast hplace (by omega) hfuel
  have hlength := hperm.length_eq
  obtain ⟨front, hfront, hstable, -⟩ := sortWith_sorts hkeys (fun left right => mergeRuns_eq)
    (by rw [length_take]; omega : (inPlace.take nth.toNat).length < fuel)
  obtain ⟨back, hback, hstable', -⟩ := sortWith_sorts hkeys (fun left right => mergeRuns_eq)
    (by rw [length_drop]; omega : (inPlace.drop nth.toNat).length < fuel)
  refine ⟨inPlace, front, back, ?_, hfront, hback, ?_, hselected.sides hkeys hstable hstable'⟩
  · rw [nthElementInPlaceImpl, if_neg (by omega), hrun, nil_append, append_nil]
  · have hsides := hstable.perm.append hstable'.perm
    rw [take_append_drop] at hsides
    exact hsides.trans hperm

theorem nth_element_sorts_pair : ∃ inPlace front back : List Nat,
    nthElementInPlaceImpl (fun a b => decide (a < b)) id 3 [2, 1] 1 = some (1, inPlace) ∧
      sortedByProjected 3 (inPlace.take 1) (fun a b => decide (a < b)) id = some front ∧
      sortedByProjected 3 (inPlace.drop 1) (fun a b => decide (a < b)) id = some back ∧ (front ++ back).Perm [2, 1] := by
  obtain ⟨inPlace, front, back, hrun, hfront, hback, hperm, -⟩ := nth_element_sorts
    (fun a b : Nat => decide (a < b)) id [2, 1] 1 3 strictWeak_lt (by decide) (by decide) (by decide)
  exact ⟨inPlace, front, back, hrun, hfront, hback, hperm⟩

end Mlang.NthElements
