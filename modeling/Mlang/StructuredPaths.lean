import Mathlib.Data.Option.Basic

namespace Mlang.StructuredPaths

/-- How a piece of structured code can be left: by falling through with a result, by `break`,
`continue` or `return`, or at a fault. -/
inductive Exit (S α : Type)
  | normal (s : S) (a : α)
  | broke (s : S)
  | continued (s : S)
  | returned (s : S)
  | fault

/-- The paths through a piece of code, as a relation between the state they start in and the
way they leave it. -/
def Paths (S α : Type) := S → Exit S α → Prop

variable {S α β : Type}

def Exit.skip : Exit S α → Option (Exit S β)
  | .normal _ _ => none
  | .broke s => some (.broke s)
  | .continued s => some (.continued s)
  | .returned s => some (.returned s)
  | .fault => some .fault

namespace Paths

def pure (a : α) : Paths S α := fun s e => e = .normal s a

def bind (p : Paths S α) (q : α → Paths S β) : Paths S β := fun s e =>
  (∃ s' a, p s (.normal s' a) ∧ q a s' e) ∨ ∃ e', p s e' ∧ e'.skip = some e

instance : Monad (Paths S) where
  pure := Paths.pure
  bind := Paths.bind

def get : Paths S S := fun s e => e = .normal s s

/-- A state change that faults where `f` is not defined. -/
def attempt (f : S → Option S) : Paths S Unit := fun s e =>
  match f s with
  | some s' => e = .normal s' ()
  | none => e = .fault

def modify (f : S → S) : Paths S Unit := attempt (fun s => some (f s))

def exitBy (f : S → Exit S α) : Paths S α := fun s e => e = f s

/-- Only the paths on which `h` holds. -/
def require (h : S → Prop) : Paths S Unit := fun s e => h s ∧ e = .normal s ()

/-- A step that is left out of the restricted paths, unless `h` holds. -/
def provided (restricted : Bool) (h : S → Prop) : Paths S Unit :=
  require (fun s => restricted → h s)

def choose (p q : Paths S α) : Paths S α := fun s e => p s e ∨ q s e

/-- One iteration after the other. -/
inductive Loop (head : Nat → Paths S Bool) (body : Paths S Unit) : Nat → S → Exit S Unit → Prop
  | leave {n s s'} : head n s (.normal s' false) → Loop head body n s (.normal s' ())
  | interrupt {n s e' e} : head n s e' → e'.skip = some e → Loop head body n s e
  | again {n s s₁ s₂ e} : head n s (.normal s₁ true) →
      body s₁ (.normal s₂ ()) ∨ body s₁ (.continued s₂) → Loop head body (n + 1) s₂ e →
        Loop head body n s e
  | stop {n s s₁ s₂} : head n s (.normal s₁ true) → body s₁ (.broke s₂) →
      Loop head body n s (.normal s₂ ())
  | returns {n s s₁ s₂} : head n s (.normal s₁ true) → body s₁ (.returned s₂) →
      Loop head body n s (.returned s₂)
  | faults {n s s₁} : head n s (.normal s₁ true) → body s₁ .fault → Loop head body n s .fault

def loop (head : Nat → Paths S Bool) (body : Paths S Unit) : Paths S Unit := Loop head body 0

/-- What a scope does to the state it is left in: `close` relates the state inside to the state
outside, for falling through and for the two jumps of a loop. -/
def leaving (normal jump : S → S → Prop) (p : Paths S α) : Paths S α := fun s e =>
  match e with
  | .normal s' a => ∃ t, p s (.normal t a) ∧ normal t s'
  | .broke s' => ∃ t, p s (.broke t) ∧ jump t s'
  | .continued s' => ∃ t, p s (.continued t) ∧ jump t s'
  | .returned s' => p s (.returned s')
  | .fault => p s .fault

end Paths

theorem Paths.pure_bind (a : α) (q : α → Paths S β) : (pure a >>= q : Paths S β) = q a := by
  funext s e
  apply propext
  constructor
  · rintro (⟨s', a', hp, hq⟩ | ⟨e', hp, hskip⟩)
    · obtain ⟨rfl, rfl⟩ : s' = s ∧ a' = a := by
        have hnormal : Exit.normal s' a' = Exit.normal s a := hp
        exact ⟨(Exit.normal.inj hnormal).1, (Exit.normal.inj hnormal).2⟩
      exact hq
    · obtain rfl : e' = Exit.normal s a := hp
      cases hskip
  · intro hq
    exact Or.inl ⟨s, a, rfl, hq⟩

theorem Paths.bind_assoc {γ : Type} (p : Paths S α) (q : α → Paths S β) (r : β → Paths S γ) :
    (p >>= q >>= r : Paths S γ) = p >>= fun a => q a >>= r := by
  funext s e
  apply propext
  constructor
  · rintro (⟨s', b, ⟨t, a, hp, hq⟩ | ⟨e', hp, hskip⟩, hr⟩ | ⟨e', ⟨t, a, hp, hq⟩ | ⟨e'', hp, hskip⟩, hr⟩)
    · exact Or.inl ⟨t, a, hp, Or.inl ⟨s', b, hq, hr⟩⟩
    · cases e' <;> cases hskip
    · exact Or.inl ⟨t, a, hp, Or.inr ⟨e', hq, hr⟩⟩
    · refine Or.inr ⟨e'', hp, ?_⟩
      cases e'' <;> cases hskip <;> exact hr
  · rintro (⟨t, a, hp, ⟨s', b, hq, hr⟩ | ⟨e', hq, hskip⟩⟩ | ⟨e', hp, hskip⟩)
    · exact Or.inl ⟨s', b, Or.inl ⟨t, a, hp, hq⟩, hr⟩
    · exact Or.inr ⟨e', Or.inl ⟨t, a, hp, hq⟩, hskip⟩
    · cases e' with
      | normal s' a => cases hskip
      | broke s' => exact Or.inr ⟨.broke s', Or.inr ⟨.broke s', hp, rfl⟩, hskip⟩
      | continued s' => exact Or.inr ⟨.continued s', Or.inr ⟨.continued s', hp, rfl⟩, hskip⟩
      | returned s' => exact Or.inr ⟨.returned s', Or.inr ⟨.returned s', hp, rfl⟩, hskip⟩
      | fault => exact Or.inr ⟨.fault, Or.inr ⟨.fault, hp, rfl⟩, hskip⟩

theorem rel_or {α β : Type} {R : α → β → Prop} {a a' : Option α} {b b' : Option β}
    (h : Option.Rel R a b) (h' : Option.Rel R a' b') : Option.Rel R (a.or a') (b.or b') := by
  cases h with
  | some h => exact Option.Rel.some h
  | none => exact h'

structure Post (S α : Type) where
  normal : S → α → Prop
  broke : S → Prop
  continued : S → Prop
  returned : S → Prop

def Post.Holds (Q : Post S α) : Exit S α → Prop
  | .normal s a => Q.normal s a
  | .broke s => Q.broke s
  | .continued s => Q.continued s
  | .returned s => Q.returned s
  | .fault => False

def Post.only (normal : S → α → Prop) : Post S α :=
  ⟨normal, fun _ => False, fun _ => False, fun _ => False⟩

def Meets (P : S → Prop) (p : Paths S α) (Q : Post S α) : Prop :=
  ∀ s, P s → ∀ e, p s e → Q.Holds e

variable {P P' : S → Prop}
variable {p : Paths S α} {Q : Post S α} {q : α → Paths S β} {R : S → α → Prop} {h : S → Prop}

theorem Meets.weaken {Q' : Post S α} (h : Meets P p Q) (hpre : ∀ s, P' s → P s)
    (hnormal : ∀ s a, Q.normal s a → Q'.normal s a) (hbroke : ∀ s, Q.broke s → Q'.broke s)
    (hcontinued : ∀ s, Q.continued s → Q'.continued s) (hreturned : ∀ s, Q.returned s → Q'.returned s) :
    Meets P' p Q' := by
  intro s hs e he
  have hQ := h s (hpre s hs) e he
  cases e with
  | normal s a => exact hnormal s a hQ
  | broke s => exact hbroke s hQ
  | continued s => exact hcontinued s hQ
  | returned s => exact hreturned s hQ
  | fault => exact hQ

theorem Meets.of_state (h : ∀ s, P s → Meets (fun t => t = s) p Q) : Meets P p Q := by
  intro s hs e he
  exact h s hs s rfl e he

theorem Meets.pure {a : α} (h : ∀ s, P s → Q.normal s a) : Meets P (Pure.pure a : Paths S α) Q := by
  rintro s hs e rfl
  exact h s hs

theorem Meets.bind {Q : Post S β} (hp : Meets P p ⟨R, Q.broke, Q.continued, Q.returned⟩)
    (hq : ∀ a, Meets (fun s => R s a) (q a) Q) : Meets P (p >>= q) Q := by
  rintro s hs e (⟨s', a, hp', hq'⟩ | ⟨e', hp', hskip⟩)
  · exact hq a s' (hp s hs _ hp') e hq'
  · have hQ := hp s hs _ hp'
    cases e' with
    | normal s' a => cases hskip
    | broke s' | continued s' | returned s' =>
      cases hskip
      exact hQ
    | fault => exact hQ.elim

theorem Meets.only (h : Meets P p (Post.only R)) (hpre : ∀ s, P' s → P s)
    (hpost : ∀ s a, R s a → Q.normal s a) : Meets P' p Q :=
  h.weaken hpre hpost (fun _ => False.elim) (fun _ => False.elim) fun _ => False.elim

theorem Meets.seq {Q : Post S β} (hp : Meets P p (Post.only R)) (hq : ∀ a, Meets (fun s => R s a) (q a) Q) :
    Meets P (p >>= q) Q :=
  Meets.bind (hp.only (fun _ => id) fun _ _ => id) hq

theorem Meets.getThen {q : S → Paths S β} {Q : Post S β}
    (h : ∀ s, P s → Meets (fun t => t = s) (q s) Q) : Meets P (Paths.get >>= q) Q := by
  rintro s hs e (⟨s', a, hget, hq⟩ | ⟨e', hget, hskip⟩)
  · obtain ⟨rfl, rfl⟩ := Exit.normal.inj hget
    exact h _ hs _ rfl e hq
  · obtain rfl : e' = Exit.normal s s := hget
    cases hskip

theorem Meets.attempt {f : S → Option S} {Q : Post S Unit}
    (h : ∀ s, P s → ∃ s', f s = some s' ∧ Q.normal s' ()) : Meets P (Paths.attempt f) Q := by
  intro s hs e he
  obtain ⟨s', hf, hQ⟩ := h s hs
  simp only [Paths.attempt, hf] at he
  exact he ▸ hQ

theorem Meets.modify {f : S → S} {Q : Post S Unit} (h : ∀ s, P s → Q.normal (f s) ()) :
    Meets P (Paths.modify f) Q :=
  Meets.attempt fun s hs => ⟨f s, rfl, h s hs⟩

theorem Meets.exitBy {f : S → Exit S α} (h : ∀ s, P s → Q.Holds (f s)) : Meets P (Paths.exitBy f) Q := by
  rintro s hs e rfl
  exact h s hs

theorem Meets.require {Q : Post S Unit} (hQ : ∀ s, P s → h s → Q.normal s ()) :
    Meets P (Paths.require h) Q := by
  rintro s hs e ⟨hh, rfl⟩
  exact hQ s hs hh

theorem Meets.provided : Meets P (Paths.provided true h) (Post.only fun s _ => P s ∧ h s) :=
  Meets.require fun _ hs hh => ⟨hs, hh rfl⟩

theorem Meets.choose {q : Paths S α} (hp : Meets P p Q) (hq : Meets P q Q) :
    Meets P (Paths.choose p q) Q := by
  rintro s hs e (he | he)
  · exact hp s hs e he
  · exact hq s hs e he

/-- The loop rule: `I n` holds whenever the head is reached after `n` iterations, `J` whenever
the body is entered. -/
theorem Meets.loop {I : Nat → S → Prop} {J : Nat → S → Prop} {head : Nat → Paths S Bool}
    {body : Paths S Unit} {Q : Post S Unit}
    (hhead : ∀ n, Meets (I n) (head n)
      ⟨fun s b => if b then J n s else Q.normal s (), Q.broke, Q.continued, Q.returned⟩)
    (hbody : ∀ n, Meets (J n) body
      ⟨fun s _ => I (n + 1) s, fun s => Q.normal s (), I (n + 1), Q.returned⟩) :
    Meets (I 0) (Paths.loop head body) Q := by
  intro s hs e he
  have hrun : ∀ {n s e}, Paths.Loop head body n s e → I n s → Q.Holds e := by
    intro n s e he
    induction he with
    | leave hleave =>
      intro hs
      exact hhead _ _ hs _ hleave
    | @interrupt n s e' e hstop hskip =>
      intro hs
      have hQ := hhead _ _ hs _ hstop
      cases e' with
      | normal s' a => cases hskip
      | broke s' | continued s' | returned s' =>
        cases hskip
        exact hQ
      | fault => exact hQ.elim
    | again henter hnext _ ih =>
      intro hs
      have hJ := hhead _ _ hs _ henter
      rcases hnext with hnext | hnext
      · exact ih (hbody _ _ hJ _ hnext)
      · exact ih (hbody _ _ hJ _ hnext)
    | stop henter hstop =>
      intro hs
      exact hbody _ _ (hhead _ _ hs _ henter) _ hstop
    | returns henter hreturn =>
      intro hs
      exact hbody _ _ (hhead _ _ hs _ henter) _ hreturn
    | faults henter hfault =>
      intro hs
      exact hbody _ _ (hhead _ _ hs _ henter) _ hfault
  exact hrun he hs

theorem Meets.leaving {normal jump : S → S → Prop}
    (h : Meets P p ⟨fun t a => ∀ s, normal t s → Q.normal s a, fun t => ∀ s, jump t s → Q.broke s, fun t => ∀
      s, jump t s → Q.continued s, Q.returned⟩) : Meets P (Paths.leaving normal jump p) Q := by
  intro s hs e he
  cases e with
  | normal s' a | broke s' | continued s' =>
    obtain ⟨t, ht, hclose⟩ := he
    exact h s hs _ ht s' hclose
  | returned s' => exact h s hs _ he
  | fault => exact (h s hs _ he).elim

end Mlang.StructuredPaths
