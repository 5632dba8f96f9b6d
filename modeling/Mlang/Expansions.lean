import Mathlib.Data.List.Zip
import Mathlib.Logic.Relation

namespace Mlang.Expansions

open List Option

/-! Computations that may not return and that report what they find wrong, and expansions which
stop at a name that is being expanded. -/

variable {R A B : Type}

/-- `none` stands for a computation that does not return. -/
def Reporting (R A : Type) : Type := Option (A × List R)

namespace Reporting

def done (a : A) : Reporting R A := some (a, [])

def andThen (p : Reporting R A) (f : A → Reporting R B) : Reporting R B :=
  match p with
  | none => none
  | some (a, reports) =>
    match f a with
    | none => none
    | some (b, reports') => some (b, reports ++ reports')

instance : Monad (Reporting R) where
  pure := done
  bind := andThen

def report (r : R) : Reporting R Unit := some ((), [r])

def each (f : A → Reporting R B) : List A → Reporting R (List B)
  | [] => pure []
  | a :: as => do
    let b ← f a
    let bs ← each f as
    pure (b :: bs)

def Returns (p : Reporting R A) (a : A) (reports : List R) : Prop := p = some (a, reports)

def Below (p q : Reporting R A) : Prop := ∀ a reports, p.Returns a reports → q.Returns a reports

variable {p q : Reporting R A} {f g : A → Reporting R B} {a a' : A} {b : B}
  {as : List A} {bs : List B} {reports reports' : List R} {r : R}

theorem Returns.unique (h : p.Returns a reports) (h' : p.Returns a' reports') :
    a = a' ∧ reports = reports' := by
  rw [Returns] at h h'
  rw [h] at h'
  exact Prod.mk.inj (some.inj h')

@[simp] theorem returns_pure : (pure a : Reporting R A).Returns a' reports ↔ a' = a ∧ reports = [] := by
  constructor
  · intro h
    obtain ⟨ha, hreports⟩ := Prod.mk.inj (some.inj h)
    exact ⟨ha.symm, hreports.symm⟩
  · rintro ⟨rfl, rfl⟩
    rfl

@[simp] theorem returns_report {u : Unit} :
    (report r : Reporting R Unit).Returns u reports ↔ reports = [r] := by
  constructor
  · intro h
    exact (Prod.mk.inj (some.inj h)).2.symm
  · rintro rfl
    rfl

theorem returns_bind : (p >>= f).Returns b reports ↔
    ∃ a r₁ r₂, p.Returns a r₁ ∧ (f a).Returns b r₂ ∧ reports = r₁ ++ r₂ := by
  constructor
  · intro h
    rcases hp : p with _ | ⟨a, r₁⟩
    · rw [hp] at h
      exact nomatch h
    · rcases hf : f a with _ | ⟨b', r₂⟩
      · have : (p >>= f) = none := by
          rw [hp]
          change andThen _ _ = _
          simp only [andThen, hf]
          rfl
        exact nomatch this.symm.trans h
      · have : (p >>= f) = some (b', r₁ ++ r₂) := by
          rw [hp]
          change andThen _ _ = _
          simp only [andThen, hf]
          rfl
        obtain ⟨rfl, rfl⟩ := Prod.mk.inj (some.inj (this.symm.trans h))
        exact ⟨a, r₁, r₂, rfl, hf, rfl⟩
  · rintro ⟨a, r₁, r₂, hp, hf, rfl⟩
    rw [Returns] at hp hf
    subst hp
    change andThen _ _ = _
    simp only [andThen, hf]
    rfl

theorem Returns.bind {r₁ r₂ : List R} (hp : p.Returns a r₁) (hf : (f a).Returns b r₂) :
    (p >>= f).Returns b (r₁ ++ r₂) :=
  returns_bind.2 ⟨a, r₁, r₂, hp, hf, rfl⟩

theorem returns_reported : (report r >>= fun _ => (pure a : Reporting R A)).Returns a' reports ↔
    a' = a ∧ reports = [r] := by
  constructor
  · intro h
    obtain ⟨u, r₁, r₂, hr₁, hr₂, rfl⟩ := returns_bind.1 h
    obtain ⟨rfl, rfl⟩ := returns_pure.1 hr₂
    obtain rfl := returns_report.1 hr₁
    exact ⟨rfl, rfl⟩
  · rintro ⟨rfl, rfl⟩
    exact Returns.bind (a := ()) (returns_report.2 rfl) (returns_pure.2 ⟨rfl, rfl⟩)

theorem Below.refl (p : Reporting R A) : p.Below p := fun _ _ h => h

theorem Below.bind (hp : p.Below q) (hf : ∀ a, (f a).Below (g a)) : (p >>= f).Below (q >>= g) := by
  intro b reports h
  obtain ⟨a, r₁, r₂, hp', hf', rfl⟩ := returns_bind.1 h
  exact (hp a r₁ hp').bind (hf a b r₂ hf')

instance : LawfulMonad (Reporting R) := by
  refine LawfulMonad.mk' (Reporting R) ?_ ?_ ?_
  · intro A p
    rcases p with _ | ⟨a, reports⟩
    · rfl
    · exact congrArg (fun reports => some (a, reports)) (append_nil reports)
  · intro A B a f
    change andThen (done a) f = f a
    rcases hf : f a with _ | ⟨b, reports⟩ <;> simp only [andThen, done, hf, nil_append] <;> rfl
  · intro A B C p f g
    change andThen (andThen p f) g = andThen p fun a => andThen (f a) g
    rcases p with _ | ⟨a, r₁⟩
    · rfl
    · rcases hf : f a with _ | ⟨b, r₂⟩
      · simp only [andThen, hf]
        rfl
      · rcases hg : g b with _ | ⟨c, r₃⟩ <;> simp only [andThen, hf, hg, append_assoc] <;> rfl

theorem each_append (f : A → Reporting R B) (as as' : List A) :
    each f (as ++ as') = each f as >>= fun bs => each f as' >>= fun bs' => pure (bs ++ bs') := by
  induction as with
  | nil => simp [each]
  | cons a as ih => simp [each, ih]

theorem each_below (h : ∀ a ∈ as, ∀ b reports, (f a).Returns b reports → (g a).Returns b reports) :
    (each f as).Below (each g as) := by
  induction as with
  | nil => exact .refl _
  | cons a as ih =>
    obtain ⟨ha, hrest⟩ := List.forall_mem_cons.1 h
    exact Below.bind ha fun b => (ih hrest).bind fun bs => .refl _

variable (h : (each f as).Returns bs reports)
include h

theorem each_length : bs.length = as.length := by
  induction as generalizing bs reports with
  | nil => exact congrArg List.length (returns_pure.1 h).1
  | cons a as ih =>
    obtain ⟨b, _, _, -, h, -⟩ := returns_bind.1 h
    obtain ⟨cs, _, _, hcs, h, -⟩ := returns_bind.1 h
    rw [(returns_pure.1 h).1, length_cons, length_cons, ih hcs]

theorem each_returns :
    ∀ p ∈ as.zip bs, ∃ r, (f p.1).Returns p.2 r ∧ r ⊆ reports := by
  induction as generalizing bs reports with
  | nil => exact fun p hp => nomatch hp
  | cons a as ih =>
    obtain ⟨b, r₁, _, ha, hrest, rfl⟩ := returns_bind.1 h
    obtain ⟨cs, r₂, _, hcs, hdone, rfl⟩ := returns_bind.1 hrest
    obtain ⟨rfl, rfl⟩ := returns_pure.1 hdone
    rw [zip_cons_cons, forall_mem_cons]
    refine ⟨⟨r₁, ha, subset_append_left _ _⟩, fun p hp => ?_⟩
    obtain ⟨r, hr, hsub⟩ := ih hcs p hp
    exact ⟨r, hr, fun x hx => mem_append_right _ (mem_append_left _ (hsub hx))⟩

end Reporting

variable {uses : A → A → Prop} {path path' : List A} {a b : A}

open Relation (ReflTransGen TransGen)

/-- From `a`, with the path that leads there, an expansion comes to what is on its path. -/
inductive Repeats (uses : A → A → Prop) : List A → A → Prop
  | here {path : List A} {a : A} : a ∈ path → Repeats uses path a
  | there {path : List A} {a b : A} : a ∉ path → uses a b → Repeats uses (a :: path) b →
      Repeats uses path a

def Cycles (uses : A → A → Prop) (a : A) : Prop := ∃ b, ReflTransGen uses a b ∧ TransGen uses b b

theorem Repeats.mono (h : Repeats uses path a) (hsub : path ⊆ path') : Repeats uses path' a := by
  induction h generalizing path' with
  | here hmem => exact .here (hsub hmem)
  | @there path a b hnot huses _ ih =>
    by_cases ha : a ∈ path'
    · exact .here ha
    · exact .there ha huses (ih (cons_subset_cons a hsub))

theorem Repeats.head (huses : uses a b) (h : Repeats uses path b) : Repeats uses path a := by
  by_cases ha : a ∈ path
  · exact .here ha
  · exact .there ha huses (h.mono (subset_cons_self a path))

theorem Repeats.of_reaches (hreach : ReflTransGen uses a b) (h : Repeats uses path b) :
    Repeats uses path a := by
  induction hreach using ReflTransGen.head_induction_on with
  | refl => exact h
  | head huses _ ih => exact ih.head huses

theorem Repeats.cycles_or (h : Repeats uses path a) :
    (∃ b ∈ path, ReflTransGen uses a b) ∨ Cycles uses a := by
  induction h with
  | here hmem => exact .inl ⟨_, hmem, .refl⟩
  | @there path a b hnot huses _ ih =>
    rcases ih with ⟨c, hc, hreach⟩ | ⟨c, hreach, hcycle⟩
    · rcases List.mem_cons.1 hc with rfl | hc
      · exact .inr ⟨c, .refl, TransGen.head' huses hreach⟩
      · exact .inl ⟨c, hc, .head huses hreach⟩
    · exact .inr ⟨c, .head huses hreach, hcycle⟩

theorem repeats_nil_iff : Repeats uses [] a ↔ Cycles uses a := by
  constructor
  · intro h
    exact h.cycles_or.resolve_left fun ⟨_, hb, _⟩ => nomatch hb
  · rintro ⟨b, hreach, hcycle⟩
    obtain ⟨c, huses, hback⟩ := TransGen.head'_iff.1 hcycle
    have hb : Repeats uses [b] b := .here mem_cons_self
    exact .of_reaches hreach (.there not_mem_nil huses (.of_reaches hback hb))

end Mlang.Expansions
