import Mlang.Channels

namespace Mlang.ChannelWakeups

open Transitions Wakeups Channels List

/-- No sender is left asleep by a send whose message cannot be copied. -/
def SparesSenders (a : Action) (s : State) : Prop :=
  ∀ i msg woken, a = .enter i false woken → s.threads[i]? = some (.sending msg false) →
    s.channel.closed = true ∨ s.threads.countP canSend.asleep = 0 ∨
      s.channel.cap - s.channel.count < s.threads.countP canSend.awake

/-- The senders that sleep are served by those that are awake, as are the receivers, and nobody
sleeps behind the end. -/
structure Attended (s : State) : Prop where
  bounded : s.channel.count ≤ s.channel.cap
  receivers : Served canRecv s.channel.count s.threads
  senders : Served canSend (s.channel.cap - s.channel.count) s.threads
  ended : s.channel.closed = true →
    s.threads.countP canRecv.asleep = 0 ∧ s.threads.countP canSend.asleep = 0

variable {a : Action} {s s' : State} {i : Nat} {t point : Point}

theorem canRecv_keeps (t : Point) (h : canRecv.asleep t = true) :
    canSend.asleep (canRecv.wake t) = canSend.asleep t ∧
      canSend.awake (canRecv.wake t) = canSend.awake t := by
  cases t with
  | outside | sending => cases h
  | receiving => exact ⟨rfl, rfl⟩

theorem canSend_keeps (t : Point) (h : canSend.asleep t = true) :
    canRecv.asleep (canSend.wake t) = canRecv.asleep t ∧
      canRecv.awake (canSend.wake t) = canRecv.awake t := by
  cases t with
  | outside | receiving => cases h
  | sending => exact ⟨rfl, rfl⟩

variable (h : Attended s)
include h

theorem Attended.move (ht : s.threads[i]? = some t)
    (hrecv : canRecv.asleep point = true → canRecv.asleep t = true)
    (hsend : canSend.asleep point = true → canSend.asleep t = true)
    (hreceivers : Served canRecv s.channel.count (s.threads.set i point))
    (hsenders : Served canSend (s.channel.cap - s.channel.count) (s.threads.set i point)) :
    Attended (s.move i point) where
  bounded := h.bounded
  receivers := hreceivers
  senders := hsenders
  ended := fun hclosed =>
    ⟨countP_set_asleep (h.ended hclosed).1 ht hrecv, countP_set_asleep (h.ended hclosed).2 ht hsend⟩

variable {woken : List Nat} {buf : Bool} {capacity : Int}

theorem attended_enterSend {msg : Bytes} {allocates : Bool} (hspares : SparesSenders (.enter i allocates woken) s) (ht : s.threads[i]? = some (.sending msg false))
    (hstep : enterSend i msg allocates woken s = some s') : Attended s' := by
  have hreceivers : ∀ result, Served canRecv s.channel.count (s.threads.set i (.outside result)) :=
    fun result => h.receivers.set ht (fun h => nomatch h) (Nat.le_refl _)
  rw [enterSend] at hstep
  by_cases hwaits : s.channel.count = s.channel.cap ∧ ¬ s.channel.closed = true
  · rw [if_pos hwaits] at hstep
    cases hstep
    refine ⟨h.bounded, h.receivers.set ht (fun h => nomatch h) (Nat.le_refl _), .inr ?_,
      fun hclosed => absurd hclosed hwaits.2⟩
    have hfull : s.channel.cap - s.channel.count = 0 := by omega
    exact hfull.le.trans (Nat.zero_le _)
  · rw [if_neg hwaits] at hstep
    by_cases hclosed : s.channel.closed = true
    · rw [if_pos (.inl hclosed)] at hstep
      cases hstep
      exact h.move ht (fun h => nomatch h) (fun h => nomatch h) (hreceivers _)
        (.inl (countP_set_asleep (h.ended hclosed).2 ht fun h => nomatch h))
    · cases allocates with
      | false =>
        rw [if_pos (.inr Bool.false_ne_true)] at hstep
        cases hstep
        refine h.move ht (fun h => nomatch h) (fun h => nomatch h) (hreceivers _) ?_
        rcases hspares i msg woken rfl ht with hend | hnone | hmore
        · exact absurd hend hclosed
        · exact .inl (countP_set_asleep hnone ht fun h => nomatch h)
        · have hserved : Served canSend (s.channel.cap - s.channel.count + 1) s.threads := .inr hmore
          exact hserved.set ht (fun h => nomatch h) (Nat.le_refl _)
      | true =>
        have hcopied : ¬ (s.channel.closed = true ∨ ¬ true = true) := by
          rintro (h | h)
          · exact hclosed h
          · exact h rfl
        rw [if_neg hcopied] at hstep
        obtain ⟨hsignals, rfl⟩ := signal_eq_some hstep
        have hroom : s.channel.count < s.channel.cap :=
          lt_of_le_of_ne h.bounded fun hfull => hwaits ⟨hfull, hclosed⟩
        refine ⟨hroom, (hreceivers _).signal hsignals, ?_, fun hend => absurd hend hclosed⟩
        have hleft : s.channel.cap - (s.channel.count + 1) + 1 ≤ s.channel.cap - s.channel.count := by
          omega
        have hsenders : Served canSend (s.channel.cap - (s.channel.count + 1))
            (s.threads.set i (.outside (some (.sent 0)))) :=
          h.senders.set ht (fun h => nomatch h) hleft
        exact hsenders.rouse_of canRecv_keeps

theorem attended_popIntoBuf (ht : s.threads[i]? = some t) (hsends : canSend.awake t = false)
    (hcount : s.channel.count ≠ 0) (hstep : popIntoBuf i buf capacity woken s = some s') : Attended s' := by
  obtain ⟨result, handed, heq⟩ := popIntoBuf_eq i buf capacity woken s
  rw [heq] at hstep
  obtain ⟨hsignals, rfl⟩ := signal_eq_some hstep
  have hbounded := h.bounded
  refine ⟨(Nat.sub_le _ _).trans h.bounded, ?_, ?_, fun hclosed => ?_⟩
  · have hleft : s.channel.count - 1 + 1 ≤ s.channel.count := by omega
    have hreceivers : Served canRecv (s.channel.count - 1) (s.threads.set i (.outside result)) := by
      refine h.receivers.set ht (fun h => nomatch h) (le_trans ?_ hleft)
      split_ifs
      · exact Nat.le_refl _
      · exact Nat.le_succ _
    exact hreceivers.rouse_of canSend_keeps
  · have hsenders : Served canSend (s.channel.cap - s.channel.count)
        (s.threads.set i (.outside result)) := by
      refine h.senders.set ht (fun h => nomatch h) ?_
      rw [hsends]
      exact Nat.le_refl _
    have hfreed : s.channel.cap - (s.channel.count - 1) ≤ s.channel.cap - s.channel.count + 1 := by
      omega
    exact (hsenders.signal hsignals).mono hfreed
  · obtain ⟨hrecv, hsend⟩ := h.ended hclosed
    have hrecv' : (s.threads.set i (.outside result)).countP canRecv.asleep = 0 :=
      countP_set_asleep hrecv ht fun h => nomatch h
    have hsend' : (s.threads.set i (.outside result)).countP canSend.asleep = 0 :=
      countP_set_asleep hsend ht fun h => nomatch h
    exact ⟨(countP_rouse_of (fun t ht => (canSend_keeps t ht).1) _ _).trans hrecv',
      countP_rouse_asleep hsend'⟩

theorem attended_enterRecv (ht : s.threads[i]? = some (.receiving buf capacity false))
    (hstep : enterRecv i buf capacity woken s = some s') : Attended s' := by
  have hsenders : ∀ point, canSend.asleep point = false → canSend.awake point = false →
      Served canSend (s.channel.cap - s.channel.count) (s.threads.set i point) := by
    intro point hrested _
    refine h.senders.set ht (fun hasleep => ?_) (Nat.le_refl _)
    rw [hrested] at hasleep
    cases hasleep
  rw [enterRecv] at hstep
  by_cases hempty : s.channel.count = 0
  · have hnone : ∀ threads, Served canRecv s.channel.count threads := fun threads => by
      rw [hempty]
      exact .inr (Nat.zero_le _)
    rw [if_pos hempty] at hstep
    split_ifs at hstep with hclosed
    · cases hstep
      exact h.move ht (fun h => nomatch h) (fun h => nomatch h) (hnone _) (hsenders _ rfl rfl)
    · cases hstep
      exact ⟨h.bounded, hnone _, hsenders _ rfl rfl, fun hend => absurd hend hclosed⟩
  · rw [if_neg hempty] at hstep
    exact attended_popIntoBuf h ht rfl hempty hstep

theorem attended_tryRecv {result : Option Result} (ht : s.threads[i]? = some (.outside result)) (hstep : tryRecv i buf capacity woken s = some s') :
    Attended s' := by
  rw [tryRecv] at hstep
  by_cases hempty : s.channel.count = 0
  · rw [if_pos hempty] at hstep
    cases hstep
    exact h.move ht (fun h => nomatch h) (fun h => nomatch h)
      (h.receivers.set ht (fun h => nomatch h) (Nat.le_refl _))
      (h.senders.set ht (fun h => nomatch h) (Nat.le_refl _))
  · rw [if_neg hempty] at hstep
    exact attended_popIntoBuf h ht rfl hempty hstep

theorem attended_close : Attended (closeChannel i s) := by
  have hrecv : (broadcast canSend (broadcast canRecv
      (s.threads.set i (.outside (some .closed))))).countP canRecv.asleep = 0 :=
    (countP_broadcast_of (fun t ht => (canSend_keeps t ht).1) _).trans (countP_broadcast _)
  have hsend : (broadcast canSend (broadcast canRecv
      (s.threads.set i (.outside (some .closed))))).countP canSend.asleep = 0 := countP_broadcast _
  exact ⟨h.bounded, .inl hrecv, .inl hsend, fun _ => ⟨hrecv, hsend⟩⟩

theorem attended_step (hspares : SparesSenders a s) (hstep : step a s = some s') :
    Attended s' := by
  rw [step.eq_def] at hstep
  cases a with
  | send i msg =>
    dsimp only at hstep
    split at hstep
    next ht =>
      cases hstep
      exact h.move ht (fun h => nomatch h) (fun h => nomatch h)
        (h.receivers.set ht (fun h => nomatch h) (Nat.le_refl _))
        (h.senders.set ht (fun h => nomatch h) (Nat.le_refl _))
    next => cases hstep
  | recv i buf capacity =>
    dsimp only at hstep
    split at hstep
    next ht =>
      cases hstep
      exact h.move ht (fun h => nomatch h) (fun h => nomatch h)
        (h.receivers.set ht (fun h => nomatch h) (Nat.le_refl _))
        (h.senders.set ht (fun h => nomatch h) (Nat.le_refl _))
    next => cases hstep
  | enter i allocates woken =>
    dsimp only at hstep
    split at hstep
    next ht => exact attended_enterSend h hspares ht hstep
    next ht => exact attended_enterRecv h ht hstep
    next => cases hstep
  | tryRecv i buf capacity woken =>
    dsimp only at hstep
    split at hstep
    next ht => exact attended_tryRecv h ht hstep
    next => cases hstep
  | close i =>
    dsimp only at hstep
    split at hstep
    next =>
      cases hstep
      exact attended_close h
    next => cases hstep
  | spurious i =>
    dsimp only at hstep
    split at hstep
    next ht =>
      cases hstep
      exact h.move ht (fun h => nomatch h) (fun h => nomatch h)
        (h.receivers.set ht (fun h => nomatch h) (Nat.le_refl _))
        (h.senders.set ht (fun h => nomatch h) (Nat.le_refl _))
    next ht =>
      cases hstep
      exact h.move ht (fun h => nomatch h) (fun h => nomatch h)
        (h.receivers.set ht (fun h => nomatch h) (Nat.le_refl _))
        (h.senders.set ht (fun h => nomatch h) (Nat.le_refl _))
    next => cases hstep

omit h

/-- A receiver sleeps though a message is queued and no receiver is awake to take it, or a sender
though a slot is free and no sender is awake to use it, or a thread sleeps behind the end. -/
def Stuck (s : State) : Prop :=
  ((∃ t ∈ s.threads, canRecv.asleep t = true) ∧ 0 < s.channel.count ∧
      ∀ t ∈ s.threads, canRecv.awake t = false) ∨
    ((∃ t ∈ s.threads, canSend.asleep t = true) ∧ s.channel.count < s.channel.cap ∧
      ∀ t ∈ s.threads, canSend.awake t = false) ∨
    (s.channel.closed = true ∧ ∃ t ∈ s.threads, canRecv.asleep t = true ∨ canSend.asleep t = true)

theorem not_served {c : Condition Point} {n : Nat} {threads : List Point} (hn : 0 < n)
    (hasleep : ∃ t ∈ threads, c.asleep t = true) (hawake : ∀ t ∈ threads, c.awake t = false) :
    ¬ Served c n threads := by
  rintro (hnone | hserved)
  · obtain ⟨t, ht, hsleeps⟩ := hasleep
    exact countP_eq_zero.1 hnone t ht hsleeps
  · have hzero : threads.countP c.awake = 0 :=
      countP_eq_zero.2 fun t ht => Bool.eq_false_iff.1 (hawake t ht)
    omega

theorem Attended.not_stuck {s : State} (h : Attended s) : ¬ Stuck s := by
  rintro (⟨hasleep, hcount, hawake⟩ | ⟨hasleep, hroom, hawake⟩ | ⟨hclosed, t, ht, hasleep⟩)
  · exact not_served hcount hasleep hawake h.receivers
  · exact not_served (Nat.sub_pos_of_lt hroom) hasleep hawake h.senders
  · obtain ⟨hrecv, hsend⟩ := h.ended hclosed
    rcases hasleep with hasleep | hasleep
    · exact countP_eq_zero.1 hrecv t ht hasleep
    · exact countP_eq_zero.1 hsend t ht hasleep

theorem attended_initial (capacity : Int) (threads : Nat) : Attended (initial capacity threads) := by
  have hnone : ∀ p : Point → Bool, p (.outside none) = false →
      (initial capacity threads).threads.countP p = 0 := by
    intro p hp
    refine countP_eq_zero.2 fun t ht => ?_
    obtain rfl := (mem_replicate.1 ht).2
    exact Bool.eq_false_iff.1 hp
  exact ⟨Nat.zero_le _, .inl (hnone _ rfl), .inl (hnone _ rfl), fun _ => ⟨hnone _ rfl, hnone _ rfl⟩⟩

/-- No state is stuck that is reached without leaving senders asleep where a copy fails. -/
theorem channel_notStuck {capacity : Int} {threads : Nat} {s : State}
    (hs : Reached step SparesSenders (initial capacity threads) s) : ¬ Stuck s :=
  (hs.invariant (attended_initial capacity threads)
    fun _ _ _ h hspares hstep => attended_step h hspares hstep).not_stuck

def wokenRun : List Action :=
  [.send 0 [97], .send 1 [98], .send 2 [99], .enter 0 true [], .enter 1 true [], .enter 2 true [],
    .tryRecv 3 true 8 [1]]

theorem wokenRun_notStuck : ∃ s, run step wokenRun (initial 1 4) = some s ∧
    s.threads.countP canSend.asleep = 1 ∧ ¬ Stuck s := by
  have hrun : (run step wokenRun (initial 1 4)).any fun s =>
      s.threads.countP canSend.asleep = 1 := by decide
  obtain ⟨s, hs, hasleep⟩ := (Option.any_eq_true _ _).1 hrun
  have hcopies : ∀ a ∈ wokenRun, ∀ s, SparesSenders a s := by
    rintro a ha s i msg woken rfl
    exact absurd ha (by simp [wokenRun])
  exact ⟨s, hs, of_decide_eq_true hasleep, channel_notStuck (reached_of_run hs hcopies)⟩

/-- The sender that was woken has no memory for its message, and the other one sleeps on. -/
theorem failedCopy_stuck : ¬ ∀ (capacity : Int) (threads : Nat) (s : State),
    Reachable step (initial capacity threads) s → ¬ Stuck s := by
  intro hall
  have hrun : (run step (wokenRun ++ [.enter 1 false []]) (initial 1 4)).any fun s =>
      s.threads[2]? = some (.sending [99] true) ∧ s.channel.count = 0 ∧ s.channel.cap = 1 ∧
        s.threads.all fun t => !canSend.awake t := by decide
  obtain ⟨s, hs, hresult⟩ := (Option.any_eq_true _ _).1 hrun
  obtain ⟨hsleeper, hcount, hcap, hawake⟩ := of_decide_eq_true hresult
  refine hall 1 4 s (reachable_of_run hs) (.inr (.inl ⟨⟨_, mem_of_getElem? hsleeper, rfl⟩, ?_, ?_⟩))
  · rw [hcount, hcap]
    exact Nat.one_pos
  · exact fun t ht => (Bool.not_eq_true' _).mp (all_eq_true.1 hawake t ht)

end Mlang.ChannelWakeups
