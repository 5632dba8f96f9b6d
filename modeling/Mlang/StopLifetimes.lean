import Mlang.StopStates
import Mlang.Tallies

namespace Mlang.StopLifetimes

open Transitions Tallies StopStates Option

variable {source : Bool} {t : Thread}

def ownedBy : Owner → Nat
  | .held _ => 0
  | .sourceRelease | .rollback => 1

def inHand : Point → Nat
  | .sourceLoading | .sourceRetaining _ => 1
  | .releaseLoading owner | .releasing owner _ => ownedBy owner
  | .outside _ | .retaining _ _ | .sourceReleasing _ _ | .freeing _ => 0

def references (t : Thread) : Nat := t.tokens + t.sources + inHand t.point

def freeing : Point → Nat
  | .freeing _ => 1
  | _ => 0

def frees (t : Thread) : Nat := freeing t.point

def Unchanged (t : Thread) : Prop := t.addedReferences = 0 ∧ t.addedSources = 0

def Taken (t : Thread) : Prop := 0 < t.tokens + t.sources ∧ t.addedReferences = 1 ∧ t.addedSources = 0

def Owns (t : Thread) : Owner → Prop
  | .held source => 0 < t.held source
  | .sourceRelease => True
  | .rollback => Taken t

def SoundAt (t : Thread) : Point → Prop
  | .outside last => ∀ call, call = .retain ∨ call = .sourceRetain → last = some (call, -1) → Unchanged t
  | .retaining _ _ => 0 < t.tokens + t.sources ∧ Unchanged t
  | .sourceLoading | .sourceRetaining _ => Taken t
  | .sourceReleasing source _ => 0 < t.held source
  | .releaseLoading owner => Owns t owner
  | .releasing owner current => 0 < current ∧ Owns t owner
  | .freeing owner => owner = .rollback → Unchanged t

def Sound (t : Thread) : Prop := SoundAt t t.point

theorem held_le (t : Thread) (source : Bool) : t.held source ≤ t.tokens + t.sources := by
  rw [Thread.held]
  split_ifs
  · exact Nat.le_add_left _ _
  · exact Nat.le_add_right _ _

theorem lose_total (h : 0 < t.held source) :
    (t.lose source).tokens + (t.lose source).sources + 1 = t.tokens + t.sources := by
  cases source with
  | false =>
    have htokens : 0 < t.tokens := h
    show t.tokens - 1 + t.sources + 1 = _
    omega
  | true =>
    have hsources : 0 < t.sources := h
    show t.tokens + (t.sources - 1) + 1 = _
    omega

theorem gain_total (t : Thread) (source : Bool) :
    (t.gain source).tokens + (t.gain source).sources = t.tokens + t.sources + 1 := by
  cases source with
  | false => exact Nat.add_right_comm _ _ _
  | true => rfl

theorem references_pos (h : Sound t) (hinside : ∀ last, t.point ≠ .outside last) :
    0 < references t + frees t := by
  rw [Sound] at h
  rw [references, frees]
  cases hpoint : t.point with
  | outside last => exact absurd hpoint (hinside last)
  | retaining source current =>
    rw [hpoint] at h
    have hholds : 0 < t.tokens + t.sources := h.1
    omega
  | sourceLoading => exact Nat.lt_add_right _ (Nat.succ_pos _)
  | sourceRetaining current => exact Nat.lt_add_right _ (Nat.succ_pos _)
  | sourceReleasing source current =>
    rw [hpoint] at h
    have hholds : 0 < t.held source := h
    have hle := held_le t source
    omega
  | releaseLoading owner =>
    rw [hpoint] at h
    cases owner with
    | held source =>
      have hholds : 0 < t.held source := h
      have hle := held_le t source
      omega
    | sourceRelease => exact Nat.lt_add_right _ (Nat.succ_pos _)
    | rollback => exact Nat.lt_add_right _ (Nat.succ_pos _)
  | releasing owner current =>
    rw [hpoint] at h
    cases owner with
    | held source =>
      have hholds : 0 < t.held source := h.2
      have hle := held_le t source
      omega
    | sourceRelease => exact Nat.lt_add_right _ (Nat.succ_pos _)
    | rollback => exact Nat.lt_add_right _ (Nat.succ_pos _)
  | freeing owner => exact Nat.succ_pos _

variable {spurious : Bool} {current : Nat} {last : Option (Call × Int)} {owner : Owner} {p' p : Stop}
  {t' : Thread}

/-- What an atomic step changes: the counter by what its thread gains or loses, and the block is
about to be freed, or freed, as soon as the counter is zero. -/
structure Effect (p : Stop) (t : Thread) (p' : Stop) (t' : Thread) : Prop where
  sound : Sound t'
  balanced : p'.references + references t = p.references + references t'
  freed : p'.freed + frees t' + (if p.references = 0 then 1 else 0) =
    p.freed + frees t + if p'.references = 0 then 1 else 0

theorem Effect.local (hsound : Sound t') (hreferences : references t' = references t)
    (hcounter : p'.references = p.references) (hfrees : p'.freed + frees t' = p.freed + frees t) :
    Effect p t p' t' where
  sound := hsound
  balanced := by rw [hreferences, hcounter]
  freed := by rw [hfrees, hcounter]

theorem effect_retaining (p : Stop) (spurious : Bool) (h : Sound t) (hpoint : t.point = .retaining source current) :
    Effect p t (retaining p t source current spurious).1 (retaining p t source current spurious).2 := by
  have hreferences : references t = t.tokens + t.sources := by rw [references, hpoint]; rfl
  have hfrees : frees t = 0 := by rw [frees, hpoint]; rfl
  rw [Sound, hpoint] at h
  obtain ⟨hholds, hunchanged⟩ := h
  rw [retaining]
  by_cases hlimit : current = 0 ∨ current = uint32Max
  · rw [if_pos hlimit]
    exact .local (fun _ _ _ => hunchanged) hreferences.symm rfl (by rw [hfrees]; rfl)
  rw [if_neg hlimit]
  by_cases hfails : spurious = true ∨ p.references ≠ current
  · rw [if_pos hfails]
    exact .local ⟨hholds, hunchanged⟩ hreferences.symm rfl (by rw [hfrees]; rfl)
  rw [if_neg hfails]
  have hcurrent : p.references = current := not_not.1 (not_or.1 hfails).2
  have hsome : p.references ≠ 0 := hcurrent ▸ (not_or.1 hlimit).1
  cases source with
  | false =>
    refine ⟨fun _ _ hlast => (nomatch hlast), ?_, ?_⟩
    · show current + 1 + references t = p.references + (t.tokens + 1 + t.sources)
      omega
    · show p.freed + 0 + _ = p.freed + frees t + if current + 1 = 0 then 1 else 0
      rw [hfrees, if_neg hsome, if_neg (Nat.succ_ne_zero current)]
  | true =>
    refine ⟨⟨hholds, ?_, hunchanged.2⟩, ?_, ?_⟩
    · show t.addedReferences + 1 = 1
      rw [hunchanged.1]
      rfl
    · show current + 1 + references t = p.references + (t.tokens + t.sources + 1)
      omega
    · show p.freed + 0 + _ = p.freed + frees t + if current + 1 = 0 then 1 else 0
      rw [hfrees, if_neg hsome, if_neg (Nat.succ_ne_zero current)]

theorem effect_sourceRetaining (p : Stop) (spurious : Bool) (h : Sound t) (hpoint : t.point = .sourceRetaining current) :
    Effect p t (sourceRetaining p t current spurious).1 (sourceRetaining p t current spurious).2 := by
  have hreferences : references t = t.tokens + t.sources + 1 := by rw [references, hpoint]; rfl
  have hfrees : frees t = 0 := by rw [frees, hpoint]; rfl
  rw [Sound, hpoint] at h
  rw [sourceRetaining]
  split_ifs
  · exact .local h hreferences.symm rfl (by rw [hfrees]; rfl)
  · exact .local h hreferences.symm rfl (by rw [hfrees]; rfl)
  · exact .local (fun _ _ hlast => nomatch hlast) hreferences.symm rfl (by rw [hfrees]; rfl)

theorem effect_sourceReleasing (p : Stop) (spurious : Bool) (h : Sound t) (hpoint : t.point = .sourceReleasing source current) :
    Effect p t (sourceReleasing p t source current spurious).1
      (sourceReleasing p t source current spurious).2 := by
  have hreferences : references t = t.tokens + t.sources := by rw [references, hpoint]; rfl
  have hfrees : frees t = 0 := by rw [frees, hpoint]; rfl
  rw [Sound, hpoint] at h
  have hheld : 0 < t.held source := h
  rw [sourceReleasing]
  split_ifs
  · refine .local ?_ hreferences.symm rfl (by rw [hfrees]; rfl)
    rintro call (rfl | rfl) hlast <;> cases hlast
  · exact .local hheld hreferences.symm rfl (by rw [hfrees]; rfl)
  · refine .local trivial ?_ rfl ?_
    · have htotal := lose_total (t := { t with addedSources := t.addedSources - 1 }) hheld
      exact htotal.trans hreferences.symm
    · rw [hfrees]
      rfl

theorem released_references (t : Thread) (owner : Owner) :
    references (t.released owner) = t.tokens + t.sources := by
  cases owner <;> rfl

theorem released_frees (t : Thread) (owner : Owner) : frees (t.released owner) = 0 := by
  cases owner <;> rfl

theorem released_sound (h : owner = .rollback → Unchanged t) : Sound (t.released owner) := by
  cases owner with
  | held source =>
    rintro call (rfl | rfl) hlast <;> cases hlast
  | sourceRelease =>
    rintro call (rfl | rfl) hlast <;> cases hlast
  | rollback => exact fun _ _ _ => h rfl

/-- The thread behind the exchange of `stop_release`. -/
def giveBack (t : Thread) (owner : Owner) : Thread :=
  match owner with
  | .held source => Thread.lose { t with addedReferences := t.addedReferences - 1 } source
  | _ => { t with addedReferences := t.addedReferences - 1 }

theorem giveBack_references (h : Owns t owner) :
    (giveBack t owner).tokens + (giveBack t owner).sources + 1 =
      t.tokens + t.sources + ownedBy owner := by
  cases owner with
  | held source => exact lose_total (t := { t with addedReferences := t.addedReferences - 1 }) h
  | sourceRelease => rfl
  | rollback => rfl

theorem giveBack_unchanged (h : Owns t owner) (howner : owner = .rollback) :
    Unchanged (giveBack t owner) := by
  subst howner
  obtain ⟨-, hreferences, hsources⟩ := h
  refine ⟨?_, hsources⟩
  show t.addedReferences - 1 = 0
  rw [hreferences]
  rfl

theorem releasing_exchange (hpositive : 0 < current) (h : ¬(spurious = true ∨ p.references ≠ current)) :
    releasing p t owner current spurious =
      if current = 1 then ({ p with references := current - 1 }, (giveBack t owner).at (.freeing owner))
      else ({ p with references := current - 1 }, (giveBack t owner).released owner) := by
  rw [releasing, if_neg (Nat.ne_of_gt hpositive), if_neg h]
  cases owner <;> rfl

theorem effect_releasing (p : Stop) (spurious : Bool) (h : Sound t)
    (hpoint : t.point = .releasing owner current) (hle : references t ≤ p.references) :
    Effect p t (releasing p t owner current spurious).1 (releasing p t owner current spurious).2 := by
  have hreferences : references t = t.tokens + t.sources + ownedBy owner := by rw [references, hpoint]; rfl
  have hfrees : frees t = 0 := by rw [frees, hpoint]; rfl
  have huses := references_pos h fun last hlast => nomatch hpoint.symm.trans hlast
  rw [Sound, hpoint] at h
  obtain ⟨hpositive, howns⟩ := h
  have hback := giveBack_references howns
  have hunchanged := giveBack_unchanged howns
  by_cases hfails : spurious = true ∨ p.references ≠ current
  · rw [releasing, if_neg (Nat.ne_of_gt hpositive), if_pos hfails]
    exact .local ⟨by omega, howns⟩ hreferences.symm rfl (by rw [hfrees]; rfl)
  · rw [releasing_exchange hpositive hfails]
    have hcurrent : p.references = current := not_not.1 (not_or.1 hfails).2
    have hsome : p.references ≠ 0 := by omega
    split_ifs with hlast
    · refine ⟨hunchanged, ?_, ?_⟩
      · show current - 1 + references t =
          p.references + ((giveBack t owner).tokens + (giveBack t owner).sources + 0)
        omega
      · show p.freed + 1 + _ = _ + if current - 1 = 0 then 1 else 0
        rw [hfrees, if_neg hsome, if_pos (by omega)]
    · refine ⟨released_sound hunchanged, ?_, ?_⟩
      · rw [released_references]
        show current - 1 + references t = _
        omega
      · show p.freed + _ + _ = _ + if current - 1 = 0 then 1 else 0
        rw [released_frees, hfrees, if_neg hsome, if_neg (by omega)]

theorem effect_enter {a : Turn} (hpoint : t.point = .outside last) (hle : references t ≤ p.references)
    (h : enter p t a = some (p', t')) : Effect p t p' t' := by
  have hreferences : references t = t.tokens + t.sources := by rw [references, hpoint]; rfl
  have hfrees : frees t = 0 := by rw [frees, hpoint]; rfl
  have hreturn : ∀ {call : Call} {rc : Int}, call ≠ .retain → call ≠ .sourceRetain →
      Effect p t p (t.return call rc) := by
    intro call rc hretain hsourceRetain
    refine .local ?_ hreferences.symm rfl (by rw [hfrees]; rfl)
    rintro call' (rfl | rfl) hlast
    · exact absurd (Prod.mk.inj (some.inj hlast)).1 hretain
    · exact absurd (Prod.mk.inj (some.inj hlast)).1 hsourceRetain
  cases a with
  | next spurious => cases h
  | retain =>
    obtain ⟨hholds, h⟩ := ite_none_right_eq_some.1 h
    cases h
    exact .local ⟨of_decide_eq_true hholds, rfl, rfl⟩ hreferences.symm rfl (by rw [hfrees]; rfl)
  | sourceRetain =>
    obtain ⟨hholds, h⟩ := ite_none_right_eq_some.1 h
    cases h
    exact .local ⟨of_decide_eq_true hholds, rfl, rfl⟩ hreferences.symm rfl (by rw [hfrees]; rfl)
  | release source =>
    obtain ⟨hheld, h⟩ := ite_none_right_eq_some.1 h
    cases h
    have htotal := held_le t source
    exact .local ⟨by omega, hheld⟩ hreferences.symm rfl (by rw [hfrees]; rfl)
  | sourceRelease source =>
    obtain ⟨hheld, h⟩ := ite_none_right_eq_some.1 h
    cases h
    exact .local hheld hreferences.symm rfl (by rw [hfrees]; rfl)
  | request =>
    obtain ⟨-, h⟩ := ite_none_right_eq_some.1 h
    cases h
    refine .local ?_ hreferences.symm rfl (by rw [hfrees]; rfl)
    rintro call (rfl | rfl) hlast <;> cases hlast
  | requested =>
    obtain ⟨-, h⟩ := ite_none_right_eq_some.1 h
    cases h
    exact hreturn nofun nofun
  | possible =>
    obtain ⟨-, h⟩ := ite_none_right_eq_some.1 h
    cases h
    exact hreturn nofun nofun

theorem effect_next (hsound : Sound t) (hle : references t ≤ p.references)
    (h : next p t spurious = some (p', t')) : Effect p t p' t' := by
  rw [next] at h
  cases hpoint : t.point with
  | outside last =>
    rw [hpoint] at h
    cases h
  | retaining source current =>
    rw [hpoint] at h
    have heffect := effect_retaining p spurious hsound hpoint
    rwa [some.inj h] at heffect
  | sourceLoading =>
    rw [hpoint] at h
    cases h
    rw [Sound, hpoint] at hsound
    exact .local hsound (by rw [references, references, hpoint]; rfl) rfl
      (by rw [frees, frees, hpoint]; rfl)
  | sourceRetaining current =>
    rw [hpoint] at h
    have heffect := effect_sourceRetaining p spurious hsound hpoint
    rwa [some.inj h] at heffect
  | sourceReleasing source current =>
    rw [hpoint] at h
    have heffect := effect_sourceReleasing p spurious hsound hpoint
    rwa [some.inj h] at heffect
  | releaseLoading owner =>
    rw [hpoint] at h
    cases h
    have hpositive := references_pos hsound fun last hlast => nomatch hpoint.symm.trans hlast
    have hfrees : frees t = 0 := by rw [frees, hpoint]; rfl
    rw [Sound, hpoint] at hsound
    exact .local ⟨by omega, hsound⟩ (by rw [references, references, hpoint]; rfl) rfl
      (by rw [frees, frees, hpoint]; rfl)
  | releasing owner current =>
    rw [hpoint] at h
    have heffect := effect_releasing p spurious hsound hpoint hle
    rwa [some.inj h] at heffect
  | freeing owner =>
    rw [hpoint] at h
    cases h
    rw [Sound, hpoint] at hsound
    refine .local (released_sound hsound) ?_ rfl ?_
    · rw [released_references, references, hpoint]
      rfl
    · rw [released_frees, frees, hpoint]
      rfl

theorem turn_cases {a : Turn} (h : turn a p t = some (p', t')) :
    (∃ spurious, a = .next spurious ∧ next p t spurious = some (p', t')) ∨
    ((∃ last, t.point = .outside last) ∧ enter p t a = some (p', t')) := by
  cases a with
  | next spurious => exact .inl ⟨spurious, rfl, h⟩
  | _ =>
    cases hpoint : t.point with
    | outside last =>
      simp only [turn, hpoint] at h
      exact .inr ⟨⟨last, rfl⟩, h⟩
    | _ => simp only [turn, hpoint, reduceCtorEq] at h

theorem effect_turn {a : Turn} (hsound : Sound t) (hle : references t ≤ p.references)
    (h : turn a p t = some (p', t')) : Effect p t p' t' := by
  rcases turn_cases h with ⟨spurious, -, hnext⟩ | ⟨⟨last, hpoint⟩, henter⟩
  · exact effect_next hsound hle hnext
  · exact effect_enter hpoint hle henter

variable {a : Action} {others i : Nat} {s s' : State} {u : Thread} {b : Turn}

/-- The counter counts the references of the threads, and the block is freed with the last one. -/
structure Counted (s : State) : Prop where
  references : s.stop.references = tally references s.threads
  freed : s.stop.freed + tally frees s.threads = if s.stop.references = 0 then 1 else 0
  sound : ∀ t ∈ s.threads, Sound t

theorem Counted.turn (h : Counted s) (ht : s.threads[i]? = some t) (heffect : Effect s.stop t p' t') :
    Counted { stop := p', threads := s.threads.set i t' } := by
  have hreferences := tally_set StopLifetimes.references t' ht
  have hfrees := tally_set frees t' ht
  have hcounter := h.references
  have hfreed := h.freed
  have hbalanced := heffect.balanced
  have hnext := heffect.freed
  refine ⟨?_, ?_, fun u hu => ?_⟩
  · show p'.references = tally StopLifetimes.references (s.threads.set i t')
    omega
  · show p'.freed + tally frees (s.threads.set i t') = if p'.references = 0 then 1 else 0
    omega
  · exact (List.mem_or_eq_of_mem_set hu).elim (h.sound u) fun heq => heq ▸ heffect.sound

theorem sound_gain (h : Sound t) (source : Bool) : Sound (t.gain source) := by
  have htotal := gain_total t source
  have hpoint : (t.gain source).point = t.point := by cases source <;> rfl
  have hunchanged : Unchanged t → Unchanged (t.gain source) := by cases source <;> exact id
  have hheld : ∀ kind, 0 < t.held kind → 0 < (t.gain source).held kind := by
    intro kind hkind
    cases source <;> cases kind <;> first | exact hkind | exact Nat.succ_pos _
  have htaken : Taken t → Taken (t.gain source) := by
    rintro ⟨hholds, hadded⟩
    exact ⟨by omega, by cases source <;> exact hadded⟩
  have howns : ∀ owner, Owns t owner → Owns (t.gain source) owner := by
    intro owner howns
    cases owner with
    | held kind => exact hheld kind howns
    | sourceRelease => trivial
    | rollback => exact htaken howns
  rw [Sound] at h ⊢
  rw [hpoint]
  cases hat : t.point with
  | outside last => rw [hat] at h; exact fun call hcall hlast => hunchanged (h call hcall hlast)
  | retaining source current => rw [hat] at h; exact ⟨by have := h.1; omega, hunchanged h.2⟩
  | sourceLoading => rw [hat] at h; exact htaken h
  | sourceRetaining current => rw [hat] at h; exact htaken h
  | sourceReleasing kind current => rw [hat] at h; exact hheld kind h
  | releaseLoading owner => rw [hat] at h; exact howns owner h
  | releasing owner current => rw [hat] at h; exact ⟨h.1, howns owner h.2⟩
  | freeing owner => rw [hat] at h; exact fun howner => hunchanged (h howner)

theorem Counted.give {j : Nat} (h : Counted s) (ht : s.threads[i]? = some t) (hu : s.threads[j]? = some u)
    (hpoint : t.point = .outside last) (hij : i ≠ j) (hheld : 0 < t.held source) :
    Counted { s with threads := (s.threads.set i (t.lose source)).set j (u.gain source) } := by
  have hu' : (s.threads.set i (t.lose source))[j]? = some u := by rwa [List.getElem?_set_ne hij]
  have hlose : StopLifetimes.references (t.lose source) + 1 = StopLifetimes.references t := by
    have htotal := lose_total hheld
    have hsame : (t.lose source).point = t.point := by cases source <;> rfl
    rw [StopLifetimes.references, StopLifetimes.references, hsame, hpoint]
    exact htotal
  have hgain : StopLifetimes.references (u.gain source) = StopLifetimes.references u + 1 := by
    have htotal := gain_total u source
    have hsame : (u.gain source).point = u.point := by cases source <;> rfl
    rw [StopLifetimes.references, StopLifetimes.references, hsame]
    omega
  have hfrees : frees (t.lose source) = frees t ∧ frees (u.gain source) = frees u := by
    cases source <;> exact ⟨rfl, rfl⟩
  have hsound : Sound (t.lose source) := by
    have hsound := h.sound t (List.mem_of_getElem? ht)
    rw [Sound, hpoint] at hsound
    have hsame : (t.lose source).point = .outside last := by cases source <;> exact hpoint
    rw [Sound, hsame]
    cases source <;> exact hsound
  have hreferences := tally_set StopLifetimes.references (t.lose source) ht
  have hreferences' := tally_set StopLifetimes.references (u.gain source) hu'
  have hfreed := tally_set frees (t.lose source) ht
  have hfreed' := tally_set frees (u.gain source) hu'
  have hcounter := h.references
  refine ⟨?_, ?_, fun v hv => ?_⟩
  · show s.stop.references = tally StopLifetimes.references ((s.threads.set i (t.lose source)).set j (u.gain source))
    omega
  · have hsame : tally frees ((s.threads.set i (t.lose source)).set j (u.gain source)) =
        tally frees s.threads := by omega
    show s.stop.freed + tally frees ((s.threads.set i (t.lose source)).set j (u.gain source)) = _
    rw [hsame]
    exact h.freed
  · rcases List.mem_or_eq_of_mem_set hv with hv | rfl
    · exact (List.mem_or_eq_of_mem_set hv).elim (h.sound v) fun heq => heq ▸ hsound
    · exact sound_gain (h.sound u (List.mem_of_getElem? hu)) source

/-- What a step is: a turn of a thread, or a reference that is handed over. -/
theorem step_cases (h : step a s = some s') :
    (∃ i b t p' t', a = .turn i b ∧ s.threads[i]? = some t ∧ turn b s.stop t = some (p', t') ∧
      s' = { stop := p', threads := s.threads.set i t' }) ∨
    ∃ i j source t u last, a = .give i j source ∧ s.threads[i]? = some t ∧ s.threads[j]? = some u ∧
      t.point = .outside last ∧ i ≠ j ∧ 0 < t.held source ∧
      s' = { s with threads := (s.threads.set i (t.lose source)).set j (u.gain source) } := by
  cases a with
  | turn i b =>
    rw [step] at h
    cases ht : s.threads[i]? with
    | none =>
      rw [ht] at h
      cases h
    | some t =>
      rw [ht] at h
      obtain ⟨⟨p', t'⟩, hturn, rfl⟩ := map_eq_some_iff.1 h
      exact .inl ⟨i, b, t, p', t', rfl, ht, hturn, rfl⟩
  | give i j source =>
    rw [step] at h
    cases ht : s.threads[i]? with
    | none =>
      rw [ht] at h
      cases h
    | some t =>
      cases hu : s.threads[j]? with
      | none =>
        rw [ht, hu] at h
        cases h
      | some u =>
        rw [ht, hu] at h
        dsimp only at h
        cases hpoint : t.point with
        | outside last =>
          rw [hpoint] at h
          obtain ⟨⟨hij, hheld⟩, h⟩ := ite_none_right_eq_some.1 h
          exact .inr ⟨i, j, source, t, u, last, rfl, ht, hu, hpoint, hij, hheld, (some.inj h).symm⟩
        | _ =>
          rw [hpoint] at h
          cases h

theorem Counted.step (h : Counted s) (hstep : step a s = some s') : Counted s' := by
  rcases step_cases hstep with ⟨i, b, t, p', t', -, ht, hturn, rfl⟩ |
    ⟨i, j, source, t, u, last, -, ht, hu, hpoint, hij, hheld, rfl⟩
  · have hmem := List.mem_of_getElem? ht
    have hle : StopLifetimes.references t ≤ s.stop.references := by
      rw [h.references]
      exact le_tally hmem
    exact h.turn ht (effect_turn (h.sound t hmem) hle hturn)
  · exact h.give ht hu hpoint hij hheld

theorem counted_stopNew : Counted (stopNew others) := by
  have hnone : ∀ t ∈ List.replicate others ({} : Thread), t = {} := fun t => List.eq_of_mem_replicate
  have hreferences : tally references (List.replicate others {}) = 0 :=
    tally_eq_zero.2 fun t ht => hnone t ht ▸ rfl
  have hfrees : tally frees (List.replicate others {}) = 0 :=
    tally_eq_zero.2 fun t ht => hnone t ht ▸ rfl
  refine ⟨?_, ?_, fun t ht => ?_⟩
  · rw [stopNew, tally_cons, hreferences]
    rfl
  · rw [stopNew, tally_cons, hfrees]
    rfl
  · rcases List.mem_cons.1 ht with rfl | ht
    · exact fun _ _ hlast => nomatch hlast
    · rw [hnone t ht]
      exact fun _ _ hlast => nomatch hlast

def Gone (t : Thread) : Prop := (∃ last, t.point = .outside last) ∧ t.tokens = 0 ∧ t.sources = 0

theorem gone_iff (h : Sound t) : Gone t ↔ references t = 0 ∧ frees t = 0 := by
  constructor
  · rintro ⟨⟨last, hpoint⟩, htokens, hsources⟩
    rw [references, frees, hpoint, htokens, hsources]
    exact ⟨rfl, rfl⟩
  · rintro ⟨hreferences, hfrees⟩
    refine ⟨?_, ?_⟩
    · by_contra hinside
      have hpositive := references_pos h fun last hlast => hinside ⟨last, hlast⟩
      omega
    · rw [references] at hreferences
      omega

theorem Counted.freed_iff (h : Counted s) : s.stop.freed = 1 ↔ ∀ t ∈ s.threads, Gone t := by
  have hfreed := h.freed
  constructor
  · intro hone t ht
    refine (gone_iff (h.sound t ht)).2 ?_
    have hreferences : s.stop.references = 0 := by
      by_contra hsome
      rw [if_neg hsome] at hfreed
      omega
    rw [if_pos hreferences] at hfreed
    have hzero : tally StopLifetimes.references s.threads = 0 := h.references ▸ hreferences
    exact ⟨tally_eq_zero.1 hzero t ht, tally_eq_zero.1 (by omega) t ht⟩
  · intro hgone
    have hreferences : tally StopLifetimes.references s.threads = 0 :=
      tally_eq_zero.2 fun t ht => ((gone_iff (h.sound t ht)).1 (hgone t ht)).1
    have hfrees : tally frees s.threads = 0 :=
      tally_eq_zero.2 fun t ht => ((gone_iff (h.sound t ht)).1 (hgone t ht)).2
    rw [h.references, hreferences, hfrees] at hfreed
    exact hfreed

theorem turn_uses {r : Stop × Thread} (h : Sound t) (hturn : turn b s.stop t = some r) :
    0 < references t + frees t := by
  cases hpoint : t.point with
  | outside last =>
    have hreferences : references t = t.tokens + t.sources := by rw [references, hpoint]; rfl
    have hholds : t.holds = true → 0 < references t + frees t := fun hholds => by
      have hpositive : 0 < t.tokens + t.sources := of_decide_eq_true hholds
      omega
    have hheld : ∀ source, 0 < t.held source → 0 < references t + frees t := fun source hheld => by
      have hle := held_le t source
      omega
    cases b with
    | next spurious => simp only [turn, next, hpoint, reduceCtorEq] at hturn
    | release source | sourceRelease source =>
      simp only [turn, hpoint] at hturn
      exact hheld source (ite_none_right_eq_some.1 hturn).1
    | _ =>
      simp only [turn, hpoint] at hturn
      exact hholds (ite_none_right_eq_some.1 hturn).1
  | _ => exact references_pos h fun last hlast => nomatch hpoint.symm.trans hlast

theorem Counted.stuck (h : Counted s) (hfreed : s.stop.freed = 1) (a : Action) :
    StopStates.step a s = none := by
  by_contra hstep
  obtain ⟨s', hstep⟩ := ne_none_iff_exists'.1 hstep
  have hgone := h.freed_iff.1 hfreed
  rcases step_cases hstep with ⟨i, b, t, p', t', -, ht, hturn, -⟩ |
    ⟨i, j, source, t, u, last, -, ht, -, -, -, hheld, -⟩
  · have hmem := List.mem_of_getElem? ht
    obtain ⟨hreferences, hfrees⟩ := (gone_iff (h.sound t hmem)).1 (hgone t hmem)
    have huses := turn_uses (h.sound t hmem) hturn
    omega
  · obtain ⟨-, htokens, hsources⟩ := hgone t (List.mem_of_getElem? ht)
    have hle := held_le t source
    omega

structure Kept (p p' : Stop) : Prop where
  zero : p.sources = 0 → p'.sources = 0
  requested : p'.requested = p.requested
  answers : p'.answers = p.answers

theorem Kept.refl : Kept p p := ⟨id, rfl, rfl⟩

theorem kept_retaining : Kept p (retaining p t source current spurious).1 := by
  rw [retaining]
  split_ifs <;> exact ⟨id, rfl, rfl⟩

theorem kept_sourceRetaining : Kept p (sourceRetaining p t current spurious).1 := by
  rw [sourceRetaining]
  split_ifs with hlimit hfails
  · exact .refl
  · exact .refl
  · have hcurrent : p.sources = current := not_not.1 (not_or.1 hfails).2
    exact ⟨fun hzero => absurd (hcurrent ▸ hzero) (not_or.1 hlimit).1, rfl, rfl⟩

theorem kept_sourceReleasing : Kept p (sourceReleasing p t source current spurious).1 := by
  rw [sourceReleasing]
  split_ifs with hnone hfails
  · exact .refl
  · exact .refl
  · have hcurrent : p.sources = current := not_not.1 (not_or.1 hfails).2
    exact ⟨fun hzero => absurd (hcurrent ▸ hzero) hnone, rfl, rfl⟩

theorem kept_releasing : Kept p (releasing p t owner current spurious).1 := by
  rw [releasing]
  cases owner <;> split_ifs <;> exact ⟨id, rfl, rfl⟩

theorem kept_next (h : next p t spurious = some (p', t')) : Kept p p' := by
  rw [next] at h
  split at h
  · cases h
  · rw [← (Prod.mk.inj (some.inj h)).1]
    exact kept_retaining
  · rw [← (Prod.mk.inj (some.inj h)).1]
    exact .refl
  · rw [← (Prod.mk.inj (some.inj h)).1]
    exact kept_sourceRetaining
  · rw [← (Prod.mk.inj (some.inj h)).1]
    exact kept_sourceReleasing
  · rw [← (Prod.mk.inj (some.inj h)).1]
    exact .refl
  · rw [← (Prod.mk.inj (some.inj h)).1]
    exact kept_releasing
  · rw [← (Prod.mk.inj (some.inj h)).1]
    exact ⟨id, rfl, rfl⟩

def Answered (p : Stop) : Prop :=
  if p.requested = true then ∃ n, p.answers = 1 :: List.replicate n 0 else p.answers = []

theorem Answered.request (h : Answered p) : Answered (request p t).1 := by
  rw [Answered] at h
  show ∃ n, p.answers ++ [if p.requested = true then 0 else 1] = 1 :: List.replicate n 0
  split_ifs at h ⊢ with hrequested
  · obtain ⟨n, hn⟩ := h
    exact ⟨n + 1, by rw [hn, List.replicate_succ', List.cons_append]⟩
  · exact ⟨0, by rw [h]; rfl⟩

theorem Answered.kept (h : Answered p) (hkept : Kept p p') : Answered p' := by
  rw [Answered] at h ⊢
  rwa [hkept.requested, hkept.answers]

theorem enter_stop (h : enter p t b = some (p', t')) : p' = p ∨ p' = (request p t).1 := by
  cases b with
  | next spurious => cases h
  | request =>
    obtain ⟨-, h⟩ := ite_none_right_eq_some.1 h
    exact .inr (Prod.mk.inj (some.inj h)).1.symm
  | _ =>
    obtain ⟨-, h⟩ := ite_none_right_eq_some.1 h
    exact .inl (Prod.mk.inj (some.inj h)).1.symm

theorem turn_stop (h : turn b p t = some (p', t')) :
    (p.sources = 0 → p'.sources = 0) ∧ (Answered p → Answered p') := by
  rcases turn_cases h with ⟨spurious, -, hnext⟩ | ⟨-, henter⟩
  · exact ⟨(kept_next hnext).zero, fun hanswered => hanswered.kept (kept_next hnext)⟩
  · rcases enter_stop henter with rfl | rfl
    · exact ⟨id, id⟩
    · exact ⟨id, Answered.request⟩

theorem step_stop (h : step a s = some s') :
    (s.stop.sources = 0 → s'.stop.sources = 0) ∧ (Answered s.stop → Answered s'.stop) := by
  rcases step_cases h with ⟨i, b, t, p', t', -, -, hturn, rfl⟩ | ⟨i, j, source, t, u, last, -, -, -, -, -, -, rfl⟩
  · exact turn_stop hturn
  · exact ⟨id, id⟩

def Matched : Action → State → Prop
  | .turn _ (.release source), _ => source = false
  | .turn _ (.sourceRelease source), _ => source = true
  | _, _ => True

def OwnerMatched : Owner → Prop
  | .held source => source = false
  | .sourceRelease | .rollback => True

def PointMatched : Point → Prop
  | .sourceReleasing source _ => source = true
  | .releaseLoading owner | .releasing owner _ | .freeing owner => OwnerMatched owner
  | .outside _ | .retaining _ _ | .sourceLoading | .sourceRetaining _ => True

structure Balanced (p : Stop) (t : Thread) (p' : Stop) (t' : Thread) : Prop where
  sources : p'.sources + t.sources = p.sources + t'.sources
  matched : PointMatched t'.point

theorem balanced_retaining (p : Stop) (t : Thread) (source spurious : Bool) (current : Nat) :
    Balanced p t (retaining p t source current spurious).1 (retaining p t source current spurious).2 := by
  rw [retaining]
  split_ifs <;> exact ⟨rfl, trivial⟩

theorem balanced_sourceRetaining (p : Stop) (t : Thread) (spurious : Bool) (current : Nat) :
    Balanced p t (sourceRetaining p t current spurious).1 (sourceRetaining p t current spurious).2 := by
  rw [sourceRetaining]
  split_ifs with hlimit hfails
  · exact ⟨rfl, trivial⟩
  · exact ⟨rfl, trivial⟩
  · have hcurrent : p.sources = current := not_not.1 (not_or.1 hfails).2
    refine ⟨?_, trivial⟩
    show current + 1 + t.sources = p.sources + (t.sources + 1)
    omega

theorem balanced_sourceReleasing (p : Stop) (spurious : Bool) (current : Nat) (hheld : 0 < t.sources) :
    Balanced p t (sourceReleasing p t true current spurious).1
      (sourceReleasing p t true current spurious).2 := by
  rw [sourceReleasing]
  split_ifs with hnone hfails
  · exact ⟨rfl, trivial⟩
  · exact ⟨rfl, rfl⟩
  · have hcurrent : p.sources = current := not_not.1 (not_or.1 hfails).2
    refine ⟨?_, trivial⟩
    show current - 1 + t.sources = p.sources + (t.sources - 1)
    omega

theorem released_matched (t : Thread) (owner : Owner) :
    (t.released owner).sources = t.sources ∧ PointMatched (t.released owner).point := by
  cases owner <;> exact ⟨rfl, trivial⟩

theorem balanced_releasing (p : Stop) (t : Thread) (spurious : Bool) (current : Nat)
    (howner : OwnerMatched owner) :
    Balanced p t (releasing p t owner current spurious).1 (releasing p t owner current spurious).2 := by
  by_cases hnone : current = 0
  · rw [releasing, if_pos hnone]
    cases owner <;> exact ⟨rfl, trivial⟩
  by_cases hfails : spurious = true ∨ p.references ≠ current
  · rw [releasing, if_neg hnone, if_pos hfails]
    exact ⟨rfl, howner⟩
  · have hsources : (giveBack t owner).sources = t.sources := by
      cases owner with
      | held source =>
        obtain rfl : source = false := howner
        rfl
      | sourceRelease | rollback => rfl
    rw [releasing_exchange (Nat.pos_of_ne_zero hnone) hfails]
    split_ifs
    · exact ⟨congrArg (p.sources + ·) hsources.symm, howner⟩
    · obtain ⟨hsame, hmatched⟩ := released_matched (giveBack t owner) owner
      exact ⟨congrArg (p.sources + ·) (hsame.trans hsources).symm, hmatched⟩

theorem balanced_next (hsound : Sound t) (hmatched : PointMatched t.point)
    (h : next p t spurious = some (p', t')) : Balanced p t p' t' := by
  rw [next] at h
  cases hpoint : t.point with
  | outside last =>
    rw [hpoint] at h
    cases h
  | retaining source current =>
    rw [hpoint] at h
    have hbalanced := balanced_retaining p t source spurious current
    rwa [some.inj h] at hbalanced
  | sourceLoading =>
    rw [hpoint] at h
    cases h
    exact ⟨rfl, trivial⟩
  | sourceRetaining current =>
    rw [hpoint] at h
    have hbalanced := balanced_sourceRetaining p t spurious current
    rwa [some.inj h] at hbalanced
  | sourceReleasing source current =>
    rw [Sound, hpoint] at hsound
    rw [hpoint] at h hmatched
    obtain rfl : source = true := hmatched
    have hbalanced := balanced_sourceReleasing p spurious current hsound
    rwa [some.inj h] at hbalanced
  | releaseLoading owner =>
    rw [hpoint] at h hmatched
    cases h
    exact ⟨rfl, hmatched⟩
  | releasing owner current =>
    rw [hpoint] at h hmatched
    have hbalanced := balanced_releasing p t spurious current hmatched
    rwa [some.inj h] at hbalanced
  | freeing owner =>
    rw [hpoint] at h
    cases h
    obtain ⟨hsame, hmatched⟩ := released_matched t owner
    exact ⟨congrArg (p.sources + ·) hsame.symm, hmatched⟩

theorem balanced_enter (hmatched : Matched (.turn i b) s) (h : enter p t b = some (p', t')) :
    Balanced p t p' t' := by
  cases b with
  | next spurious => cases h
  | release source | sourceRelease source =>
    obtain ⟨-, h⟩ := ite_none_right_eq_some.1 h
    cases h
    exact ⟨rfl, hmatched⟩
  | _ =>
    obtain ⟨-, h⟩ := ite_none_right_eq_some.1 h
    cases h
    exact ⟨rfl, trivial⟩

structure SourcesCounted (s : State) : Prop where
  counted : Counted s
  sources : s.stop.sources = tally Thread.sources s.threads
  matched : ∀ t ∈ s.threads, PointMatched t.point

theorem sources_give {j : Nat} {ts : List Thread} (ht : ts[i]? = some t) (hu : ts[j]? = some u) (hij : i ≠ j)
    (hheld : 0 < t.held source) : tally Thread.sources ((ts.set i (t.lose source)).set j (u.gain source)) =
    tally Thread.sources ts := by
  have hu' : (ts.set i (t.lose source))[j]? = some u := by rwa [List.getElem?_set_ne hij]
  have hlose := tally_set Thread.sources (t.lose source) ht
  have hgain := tally_set Thread.sources (u.gain source) hu'
  cases source with
  | false =>
    have htokens : (t.lose false).sources = t.sources ∧ (u.gain false).sources = u.sources := ⟨rfl, rfl⟩
    omega
  | true =>
    have hsources : (t.lose true).sources = t.sources - 1 ∧ (u.gain true).sources = u.sources + 1 :=
      ⟨rfl, rfl⟩
    have hpositive : 0 < t.sources := hheld
    omega

theorem SourcesCounted.step (h : SourcesCounted s) (hmatched : Matched a s)
    (hstep : StopStates.step a s = some s') : SourcesCounted s' := by
  have hcounted := h.counted.step hstep
  rcases step_cases hstep with ⟨i, b, t, p', t', rfl, ht, hturn, rfl⟩ |
    ⟨i, j, source, t, u, last, -, ht, hu, hpoint, hij, hheld, rfl⟩
  · have hmem := List.mem_of_getElem? ht
    have hbalanced : Balanced s.stop t p' t' := by
      rcases turn_cases hturn with ⟨spurious, -, hnext⟩ | ⟨-, henter⟩
      · exact balanced_next (h.counted.sound t hmem) (h.matched t hmem) hnext
      · exact balanced_enter hmatched henter
    refine ⟨hcounted, ?_, fun u hu => ?_⟩
    · have htally := tally_set Thread.sources t' ht
      have hsources := h.sources
      have hchange := hbalanced.sources
      show p'.sources = tally Thread.sources (s.threads.set i t')
      omega
    · exact (List.mem_or_eq_of_mem_set hu).elim (h.matched u) fun heq => heq ▸ hbalanced.matched
  · refine ⟨hcounted, h.sources.trans (sources_give ht hu hij hheld).symm, fun v hv => ?_⟩
    have hlose : (t.lose source).point = t.point := by cases source <;> rfl
    have hgain : (u.gain source).point = u.point := by cases source <;> rfl
    rcases List.mem_or_eq_of_mem_set hv with hv | rfl
    · rcases List.mem_or_eq_of_mem_set hv with hv | rfl
      · exact h.matched v hv
      · rw [hlose]
        exact h.matched t (List.mem_of_getElem? ht)
    · rw [hgain]
      exact h.matched u (List.mem_of_getElem? hu)

theorem sourcesCounted_stopNew : SourcesCounted (stopNew others) := by
  have hnone : ∀ t ∈ List.replicate others ({} : Thread), t = {} := fun t => List.eq_of_mem_replicate
  refine ⟨counted_stopNew, ?_, fun t ht => ?_⟩
  · rw [stopNew, tally_cons, tally_eq_zero.2 fun t ht => hnone t ht ▸ rfl]
  · rcases List.mem_cons.1 ht with rfl | ht
    · trivial
    · rw [hnone t ht]
      trivial

theorem SourcesCounted.le (h : SourcesCounted s) : s.stop.sources ≤ s.stop.references := by
  rw [h.sources, h.counted.references]
  refine tally_mono fun t _ => ?_
  rw [references]
  omega

theorem stop_state_lifetime (hs : Reachable step (stopNew others) s) : s.stop.freed ≤ 1 ∧
    (s.stop.freed = 1 ↔ ∀ t ∈ s.threads, Gone t) ∧ (s.stop.freed = 1 → ∀ a, step a s = none) ∧
    (s.stop.sources = 0 → ∀ s', Reachable step s s' → s'.stop.sources = 0) ∧
    (∀ t ∈ s.threads, ∀ call, call = .retain ∨ call = .sourceRetain →
      t.point = .outside (some (call, -1)) → t.addedReferences = 0 ∧ t.addedSources = 0) ∧
    (s.stop.answers = [] ∨ ∃ n, s.stop.answers = 1 :: List.replicate n 0) ∧
    (Reached step Matched (stopNew others) s → s.stop.sources ≤ s.stop.references) := by
  have h : Counted s := hs.invariant counted_stopNew fun _ _ _ h _ hstep => h.step hstep
  refine ⟨?_, h.freed_iff, h.stuck, fun hzero s' hs' => ?_, fun t ht call hcall hpoint => ?_, ?_,
    fun hmatched => ?_⟩
  · have hfreed := h.freed
    split_ifs at hfreed <;> omega
  · exact hs'.invariant (P := fun s => s.stop.sources = 0) hzero
      fun _ _ _ hzero _ hstep => (step_stop hstep).1 hzero
  · have hsound := h.sound t ht
    rw [Sound, hpoint] at hsound
    exact hsound call hcall rfl
  · have hstart : Answered (stopNew others).stop := (if_neg Bool.false_ne_true).mpr rfl
    have hanswered : Answered s.stop := hs.invariant (P := fun s => Answered s.stop) hstart
      fun _ _ _ hanswered _ hstep => (step_stop hstep).2 hanswered
    rw [Answered] at hanswered
    split_ifs at hanswered with hrequested
    · exact .inr hanswered
    · exact .inl hanswered
  · exact (hmatched.invariant sourcesCounted_stopNew fun _ _ _ h hmatched hstep => h.step hmatched hstep).le

/-- A token goes to another thread, which asks for a stop and gives it back last. -/
theorem stop_state_lifetime_handed :
    let actions : List Action := [.turn 0 .retain, .turn 0 (.next false), .give 0 1 false,
      .turn 0 (.sourceRelease true), .turn 1 .request, .turn 0 (.next true), .turn 0 (.next false),
      .turn 0 (.next false), .turn 0 (.next false), .turn 1 (.release false), .turn 1 (.next false),
      .turn 1 (.next false)]
    ∃ s, run step actions (stopNew 1) = some s ∧ s.stop.freed = 1 ∧ s.stop.answers = [1] ∧
      (s.stop.answers = [] ∨ ∃ n, s.stop.answers = 1 :: List.replicate n 0) := by
  intro actions
  have hrun : run step actions (stopNew 1) = some
      { stop := { references := 0, sources := 0, requested := true, freed := 1, answers := [1] }
        threads := [
          { point := .outside (some (.sourceRelease, 0)), addedReferences := -1, addedSources := -1 },
          { point := .outside (some (.release, 0)), addedReferences := -1 }] } := by decide
  exact ⟨_, hrun, rfl, rfl, (stop_state_lifetime (reachable_of_run hrun)).2.2.2.2.2.1⟩

/-- A source that is given back as a token leaves the second counter behind. -/
theorem source_released_as_token :
    ∃ s, run step [.turn 0 (.release true), .turn 0 (.next false)] (stopNew 0) = some s ∧
      ¬s.stop.sources ≤ s.stop.references :=
  ⟨{ stop := { references := 0, sources := 1 }
     threads := [{ sources := 0, point := .freeing (.held true), addedReferences := -1 }] },
    by decide, by decide⟩

end Mlang.StopLifetimes
