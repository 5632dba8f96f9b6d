import Mlang.Channels

namespace Mlang.ChannelOrder

open RingSlots Transitions Wakeups Channels List Option

variable {a : Action} {buf : Bool} {msg : Bytes} {capacity : Int} {i : Nat} {s' s : State}

def pops (a : Action) (s : State) : Option (Bool × Int) :=
  match a with
  | .enter i _ _ =>
    match s.threads[i]? with
    | some (.receiving buf capacity false) =>
      if s.channel.count = 0 then none else some (buf, capacity)
    | _ => none
  | .tryRecv i buf capacity _ =>
    match s.threads[i]? with
    | some (.outside _) => if s.channel.count = 0 then none else some (buf, capacity)
    | _ => none
  | _ => none

def headResult (s : State) (buf : Bool) (capacity : Int) : Int :=
  copiedLength (s.channel.load s.channel.head) buf capacity

def returns (a : Action) (s' : State) (n : Int) : Prop :=
  match a with
  | .enter i _ _ => ∃ b, s'.threads[i]? = some (.outside (some (.received n b)))
  | .tryRecv i _ _ _ => ∃ b, s'.threads[i]? = some (.outside (some (.received n b)))
  | _ => False

inductive Effect (a : Action) (s s' : State) : Prop
  | none (hpops : pops a s = none)
      (hchannel : s'.channel = { s.channel with closed := s'.channel.closed }) (hsent : s'.sent = s.sent)
      (hhanded : s'.handed = s.handed)
      (hreturns : ∀ n, returns a s' n → s.channel.count = 0 ∧ (n = 0 → s.channel.closed = true))
  | push (msg : Bytes) (hpops : pops a s = none) (hroom : s.channel.count ≠ s.channel.cap)
      (hchannel : s'.channel = s.channel.push msg) (hsent : s'.sent = s.sent ++ [msg])
      (hhanded : s'.handed = s.handed) (hreturns : ∀ n, ¬ returns a s' n)
  | pop (buf : Bool) (capacity : Int) (hpops : pops a s = some (buf, capacity))
      (hcount : s.channel.count ≠ 0) (hchannel : s'.channel = s.channel.pop) (hsent : s'.sent = s.sent)
      (hhanded : s'.handed = if headResult s buf capacity < 0 then s.handed
        else s.handed ++ [s.channel.load s.channel.head])
      (hreturns : ∀ n, returns a s' n ↔ n = headResult s buf capacity)

variable {woken : List Nat} {t : Point} {allocates : Bool} {n : Int}

theorem getElem?_rouse {c : Condition Point} {threads : List Point} (ht : threads[i]? = some t)
    (hasleep : c.asleep t = false) : (rouse c woken threads)[i]? = some t := by
  rw [rouse, getElem?_mapIdx, ht, map_some, hasleep]
  rfl

theorem getElem?_move {point : Point} (ht : s.threads[i]? = some t) :
    (s.move i point).threads[i]? = some point := by
  rw [State.move]
  exact getElem?_set_self (List.getElem?_eq_some_iff.1 ht).1

theorem popIntoBuf_ok (ht : s.threads[i]? = some t) (h : popIntoBuf i buf capacity woken s = some s') :
    s'.channel = s.channel.pop ∧ s'.sent = s.sent ∧ s'.handed =
    (if headResult s buf capacity < 0 then s.handed else s.handed ++ [s.channel.load s.channel.head]) ∧ ∃ b,
    s'.threads[i]? = some (.outside (some (.received (headResult s buf capacity) b))) := by
  obtain ⟨-, rfl⟩ := signal_eq_some h
  exact ⟨rfl, rfl, rfl, _, getElem?_rouse (getElem?_move ht) rfl⟩

theorem received_iff {m : Int} (h : ∃ b, s.threads[i]? = some (.outside (some (.received m b)))) :
    (∃ b, s.threads[i]? = some (.outside (some (.received n b)))) ↔ n = m := by
  obtain ⟨b, hb⟩ := h
  constructor
  · rintro ⟨b', hb'⟩
    have heq := hb'.symm.trans hb
    injection heq with heq
    injection heq with heq
    injection heq with heq
    injection heq
  · rintro rfl
    exact ⟨b, hb⟩

theorem not_received (ht : s.threads[i]? = some t) (hother : ∀ b, t ≠ .outside (some (.received n b))) :
    ¬ ∃ b, s.threads[i]? = some (.outside (some (.received n b))) := by
  rintro ⟨b, hb⟩
  exact hother b (some.inj (ht.symm.trans hb))

theorem enterSend_effect (ht : s.threads[i]? = some (.sending msg false))
    (h : enterSend i msg allocates woken s = some s') : Effect (.enter i allocates woken) s s' := by
  have hpops : pops (.enter i allocates woken) s = none := by rw [pops, ht]
  rw [enterSend] at h
  by_cases hwaits : s.channel.count = s.channel.cap ∧ ¬ s.channel.closed = true
  · rw [if_pos hwaits] at h
    cases h
    refine .none hpops rfl rfl rfl fun n hn => absurd hn ?_
    exact not_received (getElem?_move ht) fun _ h => nomatch h
  · rw [if_neg hwaits] at h
    by_cases hrefused : s.channel.closed = true ∨ ¬ allocates = true
    · rw [if_pos hrefused] at h
      cases h
      refine .none hpops rfl rfl rfl fun n hn => absurd hn ?_
      exact not_received (getElem?_move ht) fun _ h => nomatch h
    · rw [if_neg hrefused] at h
      obtain ⟨-, rfl⟩ := signal_eq_some h
      have hopen := (not_or.1 hrefused).1
      refine .push msg hpops (fun hfull => hwaits ⟨hfull, hopen⟩) rfl rfl rfl fun n => ?_
      exact not_received (getElem?_rouse (getElem?_move ht) rfl) fun _ h => nomatch h

theorem enterRecv_effect (ht : s.threads[i]? = some (.receiving buf capacity false))
    (h : enterRecv i buf capacity woken s = some s') : Effect (.enter i allocates woken) s s' := by
  rw [enterRecv] at h
  by_cases hempty : s.channel.count = 0
  · have hpops : pops (.enter i allocates woken) s = none := by
      rw [pops, ht]
      exact if_pos hempty
    rw [if_pos hempty] at h
    split_ifs at h with hclosed
    · cases h
      exact .none hpops rfl rfl rfl fun n _ => ⟨hempty, fun _ => hclosed⟩
    · cases h
      refine .none hpops rfl rfl rfl fun n hn => absurd hn ?_
      exact not_received (getElem?_move ht) fun _ h => nomatch h
  · rw [if_neg hempty] at h
    obtain ⟨hchannel, hsent, hhanded, hresult⟩ := popIntoBuf_ok ht h
    refine .pop buf capacity ?_ hempty hchannel hsent hhanded fun n => received_iff hresult
    rw [pops, ht]
    exact if_neg hempty

theorem tryRecv_effect {result : Option Result} (ht : s.threads[i]? = some (.outside result))
    (h : tryRecv i buf capacity woken s = some s') : Effect (.tryRecv i buf capacity woken) s s' := by
  rw [tryRecv] at h
  by_cases hempty : s.channel.count = 0
  · have hpops : pops (.tryRecv i buf capacity woken) s = none := by
      rw [pops, ht]
      exact if_pos hempty
    rw [if_pos hempty] at h
    cases h
    refine .none hpops rfl rfl rfl fun n hn => ⟨hempty, fun hzero => ?_⟩
    have hn := (received_iff ⟨_, getElem?_move ht⟩).1 hn
    rw [hzero] at hn
    by_contra hopen
    rw [if_neg hopen] at hn
    cases hn
  · rw [if_neg hempty] at h
    obtain ⟨hchannel, hsent, hhanded, hresult⟩ := popIntoBuf_ok ht h
    refine .pop buf capacity ?_ hempty hchannel hsent hhanded fun n => received_iff hresult
    rw [pops, ht]
    exact if_neg hempty

theorem step_effect (h : step a s = some s') : Effect a s s' := by
  rw [step.eq_def] at h
  cases a with
  | send i msg =>
    dsimp only at h
    split at h
    next =>
      cases h
      exact .none rfl rfl rfl rfl fun n hn => hn.elim
    next => cases h
  | recv i buf capacity =>
    dsimp only at h
    split at h
    next =>
      cases h
      exact .none rfl rfl rfl rfl fun n hn => hn.elim
    next => cases h
  | enter i allocates woken =>
    dsimp only at h
    split at h
    next ht => exact enterSend_effect ht h
    next ht => exact enterRecv_effect ht h
    next => cases h
  | tryRecv i buf capacity woken =>
    dsimp only at h
    split at h
    next ht => exact tryRecv_effect ht h
    next => cases h
  | close i =>
    dsimp only at h
    split at h
    next =>
      cases h
      exact .none rfl rfl rfl rfl fun n hn => hn.elim
    next => cases h
  | spurious i =>
    dsimp only at h
    split at h
    next =>
      cases h
      exact .none rfl rfl rfl rfl fun n hn => hn.elim
    next =>
      cases h
      exact .none rfl rfl rfl rfl fun n hn => hn.elim
    next => cases h

variable {size : Nat}

structure Consistent (size : Nat) (s : State) : Prop where
  cap : s.channel.cap = size
  positive : 0 < size
  slots : s.channel.items.length = size
  head : s.channel.head = s.handed.length % size
  tail : s.channel.tail = s.sent.length % size
  ordered : s.handed.length ≤ s.sent.length
  bounded : s.sent.length ≤ s.handed.length + size
  count : s.channel.count = s.sent.length - s.handed.length
  inOrder : s.handed = (s.sent.take s.handed.length).map some
  stored : Stored s.channel.load (· % size) s.handed.length (s.sent.map some)

theorem load_set {ch : Channel} {j : Nat} {x : Option Bytes} (hj : j < ch.items.length) :
    Channel.load { ch with items := ch.items.set j x } i = if i = j then x else ch.load i :=
  join_set hj

variable (h : Consistent size s)
include h

theorem Consistent.begins : s.handed <+: s.sent.map some := by
  rw [h.inOrder, map_take]
  exact take_prefix _ _

theorem Consistent.load_head (hcount : s.channel.count ≠ 0) :
    ∃ m, s.sent[s.handed.length]? = some m ∧ s.channel.load s.channel.head = some m := by
  have hlt : s.handed.length < s.sent.length := by
    have hnumber := h.count
    omega
  refine ⟨s.sent[s.handed.length], getElem?_eq_getElem hlt, ?_⟩
  rw [h.head]
  refine h.stored _ _ le_rfl ?_
  rw [getElem?_map, getElem?_eq_getElem hlt]
  rfl

theorem Consistent.quiet (hchannel : s'.channel = { s.channel with closed := s'.channel.closed }) (hsent : s'.sent = s.sent)
    (hhanded : s'.handed = s.handed) : Consistent size s' := by
  have hload : s'.channel.load = s.channel.load := by
    rw [hchannel]
    rfl
  refine ⟨?_, h.positive, ?_, ?_, ?_, ?_, ?_, ?_, ?_, ?_⟩
  · rw [hchannel]
    exact h.cap
  · rw [hchannel]
    exact h.slots
  · rw [hchannel, hhanded]
    exact h.head
  · rw [hchannel, hsent]
    exact h.tail
  · rw [hsent, hhanded]
    exact h.ordered
  · rw [hsent, hhanded]
    exact h.bounded
  · rw [hchannel, hsent, hhanded]
    exact h.count
  · rw [hsent, hhanded]
    exact h.inOrder
  · rw [hload, hsent, hhanded]
    exact h.stored

theorem Consistent.push (hroom : s.channel.count ≠ s.channel.cap)
    (hchannel : s'.channel = s.channel.push msg) (hsent : s'.sent = s.sent ++ [msg])
    (hhanded : s'.handed = s.handed) : Consistent size s' := by
  have hordered := h.ordered
  have hbounded := h.bounded
  rw [h.count, h.cap] at hroom
  have hlength : (s.sent ++ [msg]).length = s.sent.length + 1 := length_append
  have hbound : s.channel.tail < s.channel.items.length := by
    rw [h.tail, h.slots]
    exact Nat.mod_lt _ h.positive
  refine ⟨?_, h.positive, ?_, ?_, ?_, ?_, ?_, ?_, ?_, ?_⟩
  · rw [hchannel]
    exact h.cap
  · rw [hchannel]
    exact List.length_set.trans h.slots
  · rw [hchannel, hhanded]
    exact h.head
  · rw [hchannel, hsent, hlength, Channel.push]
    dsimp only
    rw [h.tail, h.cap]
    exact Nat.mod_add_mod _ _ _
  · rw [hsent, hhanded, hlength]
    omega
  · rw [hsent, hhanded, hlength]
    omega
  · rw [hchannel, hsent, hhanded, hlength, Channel.push]
    dsimp only
    rw [h.count]
    omega
  · rw [hsent, hhanded, take_append_of_le_length hordered]
    exact h.inOrder
  · rw [hsent, hhanded, hchannel, map_append]
    have hset : ∀ i, (s.channel.push msg).load i =
        if i = s.channel.tail then some msg else s.channel.load i := fun i => load_set hbound
    refine Stored.put (h.stored.congr fun k hk hlt => ?_) ?_
    · rw [length_map] at hlt
      rw [hset, h.tail]
      exact if_neg (mod_ne_mod hlt (by omega))
    · rw [length_map, hset]
      exact if_pos h.tail.symm

theorem Consistent.pop (hcount : s.channel.count ≠ 0)
    (hchannel : s'.channel = s.channel.pop) (hsent : s'.sent = s.sent)
    (hhanded : s'.handed = s.handed ++ [s.channel.load s.channel.head]) : Consistent size s' := by
  obtain ⟨m, hm, hhead⟩ := h.load_head hcount
  have hbounded := h.bounded
  have hlt := (List.getElem?_eq_some_iff.1 hm).1
  have hlength : (s.handed ++ [some m]).length = s.handed.length + 1 := length_append
  have hbound : s.channel.head < s.channel.items.length := by
    rw [h.head, h.slots]
    exact Nat.mod_lt _ h.positive
  rw [hhead] at hhanded
  refine ⟨?_, h.positive, ?_, ?_, ?_, ?_, ?_, ?_, ?_, ?_⟩
  · rw [hchannel]
    exact h.cap
  · rw [hchannel]
    exact List.length_set.trans h.slots
  · rw [hchannel, hhanded, hlength, Channel.pop]
    dsimp only
    rw [h.head, h.cap]
    exact Nat.mod_add_mod _ _ _
  · rw [hchannel, hsent]
    exact h.tail
  · rw [hsent, hhanded, hlength]
    exact hlt
  · rw [hsent, hhanded, hlength]
    omega
  · rw [hchannel, hsent, hhanded, hlength, Channel.pop]
    dsimp only
    rw [h.count]
    omega
  · rw [hsent, hhanded, hlength, take_succ_of_get hm, map_append, ← h.inOrder]
    rfl
  · rw [hsent, hhanded, hchannel, hlength]
    have hset : ∀ i, s.channel.pop.load i =
        if i = s.channel.head then none else s.channel.load i := fun i => load_set hbound
    have hnext : Stored s.channel.load (· % size) (s.handed.length + 1) (s.sent.map some) :=
      h.stored.mono (Nat.le_succ _)
    refine hnext.congr fun k hk hlt' => ?_
    rw [length_map] at hlt'
    rw [hset, h.head]
    exact if_neg (mod_ne_mod hk (by omega)).symm

omit h

def Handles (a : Action) (s : State) : Prop :=
  ∀ buf capacity s', pops a s = some (buf, capacity) → step a s = some s' →
    buf = true ∧ 1 < capacity ∧ s.channel.load s.channel.head ≠ some []

/-- What was handed to receivers is the beginning of what was sent, the number of queued messages is
bounded, an error takes no message, and `0` is returned at the end only. -/
structure Faithful (a : Action) (s : State) : Prop where
  inOrder : s.handed <+: s.sent.map some
  bounded : s.channel.count ≤ s.channel.cap
  kept : ∀ n s', step a s = some s' → returns a s' n → n < 0 → s'.channel.count = s.channel.count
  drained : ∀ s', step a s = some s' → returns a s' 0 →
    s.channel.closed = true ∧ s.handed = s.sent.map some

theorem copiedLength_pos_iff : 0 < copiedLength (some msg) buf capacity ↔ buf = true ∧ 1 < capacity ∧
    msg ≠ [] := by
  have hlength : 0 < msg.length ↔ msg ≠ [] := length_pos_iff
  rw [copiedLength, map_some, getD_some]
  split_ifs with hroom
  · constructor
    · intro h
      cases h
    · rintro ⟨rfl, hcapacity, -⟩
      rcases hroom with h | h
      · exact absurd rfl h
      · exact absurd hcapacity (by omega)
  · obtain ⟨hbuf, hcapacity⟩ := not_or.1 hroom
    rw [← hlength]
    constructor
    · intro h
      exact ⟨not_not.1 hbuf, by omega, by omega⟩
    · rintro ⟨-, -, h⟩
      omega

theorem Consistent.drained (h : Consistent size s) :
    s.channel.count = 0 ↔ s.handed = s.sent.map some := by
  have hordered := h.ordered
  rw [h.count]
  constructor
  · intro hzero
    have hall : s.handed.length = s.sent.length := by omega
    rw [h.inOrder, hall, take_length]
  · intro hall
    rw [hall, length_map]
    omega

theorem Consistent.faithful_iff (h : Consistent size s) : Faithful a s ↔ Handles a s := by
  have hbounded : s.channel.count ≤ s.channel.cap := by
    have hle := h.bounded
    rw [h.count, h.cap]
    omega
  constructor
  · intro hfaithful buf capacity s' hpops hstep
    cases step_effect hstep with
    | none hnone => cases hnone.symm.trans hpops
    | push _ hnone => cases hnone.symm.trans hpops
    | pop buf' capacity' hpops' hcount hchannel hsent hhanded hreturns =>
      obtain ⟨rfl, rfl⟩ := Prod.mk.inj (some.inj (hpops'.symm.trans hpops))
      obtain ⟨m, -, hhead⟩ := h.load_head hcount
      have hreturned := (hreturns _).2 rfl
      have hpositive : 0 < headResult s buf' capacity' := by
        rcases Int.lt_trichotomy (headResult s buf' capacity') 0 with hneg | hzero | hpos
        · have hkept := hfaithful.kept _ s' hstep hreturned hneg
          rw [hchannel, Channel.pop] at hkept
          dsimp only at hkept
          omega
        · rw [hzero] at hreturned
          exact absurd (h.drained.2 (hfaithful.drained s' hstep hreturned).2) hcount
        · exact hpos
      rw [headResult, hhead] at hpositive
      obtain ⟨hbuf, hcapacity, hmsg⟩ := copiedLength_pos_iff.1 hpositive
      rw [hhead]
      exact ⟨hbuf, hcapacity, fun heq => hmsg (some.inj heq)⟩
  · intro hhandles
    have hpositive : ∀ s' buf capacity, step a s = some s' → pops a s = some (buf, capacity) →
        s.channel.count ≠ 0 → 0 < headResult s buf capacity := by
      intro s' buf capacity hstep hpops hcount
      obtain ⟨hbuf, hcapacity, hmsg⟩ := hhandles buf capacity s' hpops hstep
      obtain ⟨m, -, hhead⟩ := h.load_head hcount
      rw [hhead] at hmsg
      rw [headResult, hhead]
      exact copiedLength_pos_iff.2 ⟨hbuf, hcapacity, fun heq => hmsg (congrArg some heq)⟩
    refine ⟨h.begins, hbounded, fun n s' hstep hn hneg => ?_, fun s' hstep hzero => ?_⟩
    · cases step_effect hstep with
      | none _ hchannel => rw [hchannel]
      | push _ _ _ _ _ _ hreturns => exact absurd hn (hreturns n)
      | pop buf capacity hpops hcount _ _ _ hreturns =>
        have hpos := hpositive s' buf capacity hstep hpops hcount
        rw [(hreturns n).1 hn] at hneg
        omega
    · cases step_effect hstep with
      | none _ _ _ _ hreturns =>
        obtain ⟨hempty, hclosed⟩ := hreturns 0 hzero
        exact ⟨hclosed rfl, h.drained.1 hempty⟩
      | push _ _ _ _ _ _ hreturns => exact absurd hzero (hreturns 0)
      | pop buf capacity hpops hcount _ _ _ hreturns =>
        have hpos := hpositive s' buf capacity hstep hpops hcount
        have hnone := (hreturns 0).1 hzero
        omega

theorem consistent_step (h : Consistent size s) (hhandles : Handles a s)
    (hstep : step a s = some s') : Consistent size s' := by
  cases step_effect hstep with
  | none _ hchannel hsent hhanded => exact h.quiet hchannel hsent hhanded
  | push msg _ hroom hchannel hsent hhanded => exact h.push hroom hchannel hsent hhanded
  | pop buf capacity hpops hcount hchannel hsent hhanded =>
    obtain ⟨hbuf, hcapacity, hmsg⟩ := hhandles buf capacity s' hpops hstep
    obtain ⟨m, -, hhead⟩ := h.load_head hcount
    rw [hhead] at hmsg
    have hpositive : ¬ headResult s buf capacity < 0 := by
      rw [headResult, hhead]
      exact not_lt.2
        (copiedLength_pos_iff.2 ⟨hbuf, hcapacity, fun heq => hmsg (congrArg some heq)⟩).le
    rw [if_neg hpositive] at hhanded
    exact h.pop hcount hchannel hsent hhanded

theorem consistent_initial (capacity : Int) (threads : Nat) :
    Consistent (channelNew capacity).cap (initial capacity threads) := by
  have hpositive : 0 < (channelNew capacity).cap := by
    rw [channelNew]
    dsimp only
    split_ifs
    · omega
    · decide
  refine ⟨rfl, hpositive, length_replicate, rfl, rfl, le_rfl, Nat.zero_le _, rfl, rfl, ?_⟩
  intro k m _ hm
  cases hm

/-- The steps of a run of any number of threads are faithful exactly where each receiver that takes a message has room for it and no message is empty. -/
theorem channel_faithful_iff (capacity : Int) (threads : Nat) (actions : List Action) :
    (Along step Faithful (initial capacity threads) actions ↔
      Along step Handles (initial capacity threads) actions) ∧
    (Along step Handles (initial capacity threads) actions →
      ∀ s, run step actions (initial capacity threads) = some s → s.handed <+: s.sent.map some) := by
  have hinitial := consistent_initial capacity threads
  refine ⟨along_iff (fun a s h => h.faithful_iff) (fun a s s' h hhandles hstep =>
    consistent_step h hhandles hstep) hinitial, fun hhandles s hrun => ?_⟩
  have h : Consistent (channelNew capacity).cap s := invariant_of_along
    (fun a s s' h hhandles hstep => consistent_step h hhandles hstep) hinitial hhandles hrun
  exact h.begins

/-- A message is taken for a buffer of one byte, and with it lost. -/
theorem narrowBuffer_notFaithful : ¬ ∀ (capacity : Int) (threads : Nat) (actions : List Action),
    Along step Faithful (initial capacity threads) actions := by
  intro hall
  have hrun : (run step [.send 0 [97], .enter 0 true []] (initial 1 2)).any fun s =>
      s.channel.count = 1 ∧ (step (.tryRecv 1 true 1 []) s).any fun s' =>
        s'.channel.count = 0 ∧ s'.threads[1]? = some (.outside (some (.received (-1) []))) := by
    decide
  obtain ⟨s, hs, hresult⟩ := (any_eq_true _ _).1 hrun
  obtain ⟨hcount, hresult⟩ := of_decide_eq_true hresult
  obtain ⟨s', hs', hresult⟩ := (any_eq_true _ _).1 hresult
  obtain ⟨hcount', hreturned⟩ := of_decide_eq_true hresult
  have hfaithful := along_at (hall 1 2 ([.send 0 [97], .enter 0 true []] ++ [.tryRecv 1 true 1 []])) hs
  have hkept := hfaithful.kept (-1) s' hs' ⟨[], hreturned⟩ (by decide)
  rw [hcount, hcount'] at hkept
  cases hkept

end Mlang.ChannelOrder
