import Mathlib
import Mlang.NarrowAtomics

namespace Mlang.AtomicCells

open Transitions NarrowAtomics List Option

variable {α β : Type} {call : Call α} {f : α → β} {g : β → α}

section Casts

theorem Answer.map_map (hback : ∀ x, g (f x) = x) (answer : Answer α) : (answer.map f).map g = answer := by
  cases answer with
  | value result => cases result <;> simp [Answer.map, Except.map, hback]
  | stored result => rfl
  | exchanged result => cases result <;> simp [Answer.map, Except.map, hback]

variable [AndOp α] [OrOp α] [XorOp α] [AndOp β] [OrOp β] [XorOp β]

structure Embeds (f : α → β) (g : β → α) : Prop where
  back : ∀ x, g (f x) = x
  and : ∀ x y, f (x &&& y) = f x &&& f y
  or : ∀ x y, f (x ||| y) = f x ||| f y
  xor : ∀ x y, f (x ^^^ y) = f x ^^^ f y

theorem Embeds.inj (h : Embeds f g) {x y : α} : f x = f y ↔ x = y := by
  constructor
  · intro heq
    rw [← h.back x, heq, h.back]
  · exact congrArg f

variable [Add α] [Sub α] [DecidableEq α] [Add β] [Sub β] [DecidableEq β]

theorem perform_map (h : Embeds f g) (v : α)
    (hadd : ∀ value order, call = .fetchAdd value order → f (v + value) = f v + f value)
    (hsub : ∀ value order, call = .fetchSub value order → f (v - value) = f v - f value) :
    perform (call.map f) (f v) = (f (perform call v).1, (perform call v).2.map f) := by
  cases call with
  | load order =>
    simp only [Call.map, perform]
    split_ifs <;> rfl
  | store value order =>
    simp only [Call.map, perform]
    split_ifs <;> rfl
  | exchange value order => rfl
  | fetchAdd value order => simp only [Call.map, perform, hadd value order rfl]; rfl
  | fetchSub value order => simp only [Call.map, perform, hsub value order rfl]; rfl
  | fetchAnd value order => simp only [Call.map, perform, h.and]; rfl
  | fetchOr value order => simp only [Call.map, perform, h.or]; rfl
  | fetchXor value order => simp only [Call.map, perform, h.xor]; rfl
  | compareExchange expected desired order =>
    simp only [Call.map, perform, h.inj]
    split_ifs <;> rfl

end Casts

variable {answer : Answer UInt32} {answer' : Answer β} {storage : Machine β}

section Delegates

variable {run : storage.Run}

theorem delegating_inl (unsigned : α → β) (signed : β → α) {run' : storage.Run}
    (h : storage.resume run answer = .inl run') :
    (delegating storage unsigned signed).resume run answer = .inl run' := by
  dsimp only [delegating]
  rw [h]

theorem delegating_inr (unsigned : α → β) (signed : β → α) (h : storage.resume run answer = .inr answer') :
    (delegating storage unsigned signed).resume run answer = .inr (answer'.map signed) := by
  dsimp only [delegating]
  rw [h]

end Delegates

variable {order : AtomicOrder} {next : α → α} {widen : α → β} {narrow mask : β → α}

section Loops

variable [Add β] [Sub β]

/-- The calls that loop, with the value that they try to put in the place of the one that was seen. -/
inductive Loops (widen : α → β) (narrow : β → α) : Call α → (α → α) → AtomicOrder → Prop
  | add (value : α) (order : AtomicOrder) :
      Loops widen narrow (.fetchAdd value order) (fun previous => narrow (widen previous + widen value)) order
  | sub (value : α) (order : AtomicOrder) :
      Loops widen narrow (.fetchSub value order) (fun previous => narrow (widen previous - widen value)) order

theorem Loops.storageCall_eq (h : Loops widen narrow call next order) :
    storageCall widen call = .load .relaxed := by
  cases h <;> rfl

def narrowRuns (widen : α → β) (mask narrow : β → α) (runs : Call β → storage.Run → Prop) (call : Call α)
    (run : Looping α β storage.Run) : Prop :=
  run.call = call ∧
    match run.observed with
    | none => runs (storageCall widen call) run.inner
    | some observed => ∃ next order, Loops widen narrow call next order ∧
        runs (.compareExchange observed (widen (next (mask observed))) order) run.inner

variable {run : Looping α β storage.Run}

theorem resume_inl {inner : storage.Run}
    (h : storage.resume run.inner answer = .inl inner) :
    (narrowing storage widen mask narrow).resume run answer = .inl { run with inner := inner } := by
  dsimp only [narrowing]
  rw [h]

theorem Loops.resume_inr (h : Loops widen narrow call next order)
    (hcall : run.call = call) (hinner : storage.resume run.inner answer = .inr answer') :
    (narrowing storage widen mask narrow).resume run answer =
    retry storage widen mask next order run answer' := by
  dsimp only [narrowing]
  rw [hinner]
  dsimp only
  rw [hcall]
  cases h <;> rfl

theorem resume_inr (hadd : ∀ value order, run.call ≠ .fetchAdd value order)
    (hsub : ∀ value order, run.call ≠ .fetchSub value order)
    (hinner : storage.resume run.inner answer = .inr answer') :
    (narrowing storage widen mask narrow).resume run answer = .inr (answer'.map mask) := by
  dsimp only [narrowing]
  rw [hinner]
  cases hcall : run.call with
  | fetchAdd value order => exact absurd hcall (hadd value order)
  | fetchSub value order => exact absurd hcall (hsub value order)
  | _ => rfl

theorem loops_or (widen : α → β) (narrow : β → α) (call : Call α) :
    (∃ next order, Loops widen narrow call next order) ∨
    (storageCall widen call = call.map widen ∧ (∀ value order, call ≠ .fetchAdd value order) ∧
      ∀ value order, call ≠ .fetchSub value order) := by
  cases call with
  | fetchAdd value order => exact .inl ⟨_, _, .add value order⟩
  | fetchSub value order => exact .inl ⟨_, _, .sub value order⟩
  | _ => exact .inr ⟨rfl, nofun, nofun⟩

end Loops

variable [Add α] [Sub α] [AndOp α] [OrOp α] [XorOp α] [DecidableEq α]

section Simulation

/-- The operations that a machine makes on the word leave a cell as it is until the last one, which is
the method that was called. -/
structure Simulates (m : Machine α) (runs : Call α → m.Run → Prop) : Prop where
  begins : ∀ call, runs call (m.begin call)
  continues : ∀ {call run v run'}, runs call run →
    m.resume run (perform (m.word run) (m.new v)).2 = .inl run' →
      (perform (m.word run) (m.new v)).1 = m.new v ∧ runs call run'
  ends : ∀ {call run v answer}, runs call run →
    m.resume run (perform (m.word run) (m.new v)).2 = .inr answer →
      (perform (m.word run) (m.new v)).1 = m.new (perform call v).1 ∧ answer = (perform call v).2

theorem simulates_atomicU32 : Simulates atomicU32 fun call run => run = call where
  begins _ := rfl
  continues _ h := nomatch h
  ends h heq := by
    cases h
    exact ⟨rfl, (Sum.inr.inj heq).symm⟩

variable [Add β] [Sub β] [AndOp β] [OrOp β] [XorOp β] [DecidableEq β] {runs : Call β → storage.Run → Prop}

theorem Simulates.delegating {unsigned : α → β} {signed : β → α} (h : Simulates storage runs)
    (hembeds : Embeds unsigned signed) (hadd : ∀ x y, unsigned (x + y) = unsigned x + unsigned y)
    (hsub : ∀ x y, unsigned (x - y) = unsigned x - unsigned y) :
    Simulates (delegating storage unsigned signed) fun call run => runs (call.map unsigned) run where
  begins call := h.begins (call.map unsigned)
  continues {call run v run'} hruns hresume := by
    rcases hinner : storage.resume run (perform (storage.word run) (storage.new (unsigned v))).2 with
      inner | answer'
    · obtain rfl := Sum.inl.inj ((delegating_inl unsigned signed hinner).symm.trans hresume)
      exact h.continues hruns hinner
    · cases (delegating_inr unsigned signed hinner).symm.trans hresume
  ends {call run v answer} hruns hresume := by
    rcases hinner : storage.resume run (perform (storage.word run) (storage.new (unsigned v))).2 with
      inner | answer'
    · cases (delegating_inl unsigned signed hinner).symm.trans hresume
    · have hanswer := Sum.inr.inj ((delegating_inr unsigned signed hinner).symm.trans hresume)
      obtain ⟨hword, rfl⟩ := h.ends hruns hinner
      rw [perform_map hembeds v (fun value _ _ => hadd v value) fun value _ _ => hsub v value] at hword hanswer
      refine ⟨hword, ?_⟩
      rw [← hanswer]
      exact Answer.map_map hembeds.back _

structure Narrows (widen : α → β) (mask narrow : β → α) : Prop where
  embeds : Embeds widen mask
  add : ∀ x y, narrow (widen x + widen y) = x + y
  sub : ∀ x y, narrow (widen x - widen y) = x - y

omit [DecidableEq β] in
theorem Loops.perform_eq (h : Loops widen narrow call next order) (hnarrows : Narrows widen mask narrow)
    (v : α) : perform call v = (next v, .value (.ok v)) := by
  cases h with
  | add value order =>
    show _ = (narrow (widen v + widen value), _)
    rw [hnarrows.add]
    rfl
  | sub value order =>
    show _ = (narrow (widen v - widen value), _)
    rw [hnarrows.sub]
    rfl

inductive Resumes (m : Machine α) (runs : Call α → m.Run → Prop) (call : Call α) (v : α)
    (word : UInt32) : m.Run ⊕ Answer α → Prop
  | continues {run' : m.Run} (hword : word = m.new v) (hruns : runs call run') :
      Resumes m runs call v word (.inl run')
  | ends (hword : word = m.new (perform call v).1) : Resumes m runs call v word (.inr (perform call v).2)

variable (h : Simulates storage runs)
include h

/-- A loop has seen the word: it tries to put the next value there. -/
theorem Simulates.attempts {word : UInt32} {v : α} {observed : β}
    (run : Looping α β storage.Run) (hloops : Loops widen narrow call next order)
    (hword : word = storage.new (widen v)) (hcall : run.call = call) :
    Resumes (narrowing storage widen mask narrow) (narrowRuns widen mask narrow runs) call v word
      (.inl { run with
        observed := some observed
        inner := storage.begin (.compareExchange observed (widen (next (mask observed))) order) }) :=
  .continues hword ⟨hcall, next, order, hloops, h.begins _⟩

theorem Simulates.resumes (hnarrows : Narrows widen mask narrow)
    {run : Looping α β storage.Run} (hruns : narrowRuns widen mask narrow runs call run) (v : α) :
    Resumes (narrowing storage widen mask narrow) (narrowRuns widen mask narrow runs) call v
      (perform (storage.word run.inner) (storage.new (widen v))).1
      ((narrowing storage widen mask narrow).resume run
        (perform (storage.word run.inner) (storage.new (widen v))).2) := by
  obtain ⟨call', seen, inner⟩ := run
  obtain ⟨hcall, hruns⟩ := hruns
  cases hinner : storage.resume inner (perform (storage.word inner) (storage.new (widen v))).2 with
  | inl inner' =>
    rw [resume_inl hinner]
    cases seen with
    | none =>
      obtain ⟨hword, hrest⟩ := h.continues hruns hinner
      exact .continues hword ⟨hcall, hrest⟩
    | some observed =>
      obtain ⟨next, order, hloops, hruns⟩ := hruns
      obtain ⟨hword, hrest⟩ := h.continues hruns hinner
      exact .continues hword ⟨hcall, next, order, hloops, hrest⟩
  | inr answer =>
    cases seen with
    | none =>
      obtain ⟨hword, hanswer⟩ := h.ends hruns hinner
      rcases loops_or widen narrow call with ⟨next, order, hloops⟩ | ⟨hstorage, hadd, hsub⟩
      · rw [hloops.storageCall_eq] at hword hanswer
        rw [hloops.resume_inr hcall hinner, hanswer]
        exact h.attempts ⟨call', none, inner⟩ hloops hword hcall
      · rw [resume_inr (hcall ▸ hadd) (hcall ▸ hsub) hinner]
        rw [hstorage, perform_map hnarrows.embeds v (fun value order heq => absurd heq (hadd value order))
          fun value order heq => absurd heq (hsub value order)] at hword hanswer
        rw [hanswer, Answer.map_map hnarrows.embeds.back]
        exact .ends hword
    | some observed =>
      obtain ⟨next, order, hloops, hruns⟩ := hruns
      obtain ⟨hword, hanswer⟩ := h.ends hruns hinner
      rw [hloops.resume_inr hcall hinner]
      rw [perform] at hword hanswer
      by_cases hseen : widen v = observed
      · -- the exchange succeeds: the word was what the loop has seen
        rw [if_pos hseen] at hword hanswer
        have hmask : mask observed = v := by rw [← hseen, hnarrows.embeds.back]
        have hperform := hloops.perform_eq hnarrows v
        have hdone : retry storage widen mask next order ⟨call', some observed, inner⟩ answer =
            .inr (perform call v).2 := by
          rw [hanswer, hperform, ← hmask]
          rfl
        rw [hdone]
        refine .ends ?_
        rw [hword, hperform, hmask]
        rfl
      · rw [if_neg hseen] at hword hanswer
        rw [hanswer]
        exact h.attempts ⟨call', some observed, inner⟩ hloops hword hcall

theorem Simulates.narrowing (hnarrows : Narrows widen mask narrow) :
    Simulates (narrowing storage widen mask narrow) (narrowRuns widen mask narrow runs) where
  begins call := ⟨rfl, h.begins (storageCall widen call)⟩
  continues {call run v run'} hruns hresume := by
    have hresumes := h.resumes hnarrows hruns v
    change (NarrowAtomics.narrowing storage widen mask narrow).resume run
      (perform (storage.word run.inner) (storage.new (widen v))).2 = _ at hresume
    rw [hresume] at hresumes
    cases hresumes with
    | continues hword hrest => exact ⟨hword, hrest⟩
  ends {call run v answer} hruns hresume := by
    have hresumes := h.resumes hnarrows hruns v
    change (NarrowAtomics.narrowing storage widen mask narrow).resume run
      (perform (storage.word run.inner) (storage.new (widen v))).2 = _ at hresume
    rw [hresume] at hresumes
    cases hresumes with
    | ends hword => exact ⟨hword, rfl⟩

end Simulation

variable {m : Machine α}

section Runs

def Sequential : α → List (Nat × Call α × Answer α) → α → Prop
  | v, [], last => v = last
  | v, (_, call, answer) :: effects, last =>
    answer = (perform call v).2 ∧ Sequential (perform call v).1 effects last

variable {runs : Call α → m.Run → Prop} {s s' : State m} {value v w : α}
  {effects later : List (Nat × Call α × Answer α)} {a : Action α} {i : Nat} {point : Point m}

theorem sequential_append : Sequential v (effects ++ later) w ↔
    ∃ u, Sequential v effects u ∧ Sequential u later w := by
  induction effects generalizing v with
  | nil => exact ⟨fun h => ⟨v, rfl, h⟩, fun ⟨u, hu, h⟩ => hu ▸ h⟩
  | cons effect effects ih =>
    constructor
    · rintro ⟨hanswer, h⟩
      obtain ⟨u, hu, h⟩ := ih.1 h
      exact ⟨u, ⟨hanswer, hu⟩, h⟩
    · rintro ⟨u, ⟨hanswer, hu⟩, h⟩
      exact ⟨hanswer, ih.2 ⟨u, hu, h⟩⟩

theorem Sequential.unique (h : Sequential v effects w) {u : α} (h' : Sequential v effects u) : w = u := by
  induction effects generalizing v with
  | nil => exact h.symm.trans h'
  | cons effect effects ih => exact ih h.2 h'.2

/-- The word stands for the value of a cell on which the calls took effect in their order. -/
structure Linearized (m : Machine α) (runs : Call α → m.Run → Prop) (value : α) (s : State m) : Prop where
  cell : ∃ v, s.word = m.new v ∧ Sequential value s.effects v
  running : ∀ (i : Nat) (call : Call α) (run : m.Run), s.threads[i]? = some (.inside call run) → runs call run
  answered : ∀ (i : Nat) (call : Call α) (answer : Answer α), s.threads[i]? = some (.returning call answer) ∨
    s.threads[i]? = some (.outside (some (call, answer))) → (i, call, answer) ∈ s.effects

def Instant (s : State m) (a : Action α) (s' : State m) : Prop :=
  (s'.word = s.word ∧ s'.effects = s.effects) ∨
  ∃ (i : Nat) (call : Call α) (run : m.Run) (answer : Answer α), a = .word i ∧ s.threads[i]? = some (.inside call run) ∧
    s'.threads[i]? = some (.returning call answer) ∧ s'.effects = s.effects ++ [(i, call, answer)]

theorem getElem?_set_cases {γ : Type} {ts : List γ} {t u : γ} {j : Nat} (h : (ts.set i t)[j]? = some u) :
    j = i ∧ u = t ∨ j ≠ i ∧ ts[j]? = some u := by
  by_cases hij : i = j
  · subst hij
    rw [getElem?_set_self'] at h
    obtain ⟨_, _, rfl⟩ := map_eq_some_iff.1 h
    exact .inl ⟨rfl, rfl⟩
  · rw [getElem?_set_ne hij] at h
    exact .inr ⟨fun heq => hij heq.symm, h⟩

theorem Linearized.move {word : UInt32}
    (later : List (Nat × Call α × Answer α)) (h : Linearized m runs value s)
    (hcell : ∃ v, word = m.new v ∧ Sequential value (s.effects ++ later) v)
    (hrunning : ∀ call run, point = .inside call run → runs call run)
    (hanswered : ∀ call answer, point = .returning call answer ∨ point = .outside (some (call, answer)) →
      (i, call, answer) ∈ s.effects ++ later) :
    Linearized m runs value
      { word := word, threads := s.threads.set i point, effects := s.effects ++ later } := by
  refine ⟨hcell, fun j call run ht => ?_, fun j call answer ht => ?_⟩
  · rcases getElem?_set_cases ht with ⟨-, hpoint⟩ | ⟨-, ht⟩
    · exact hrunning call run hpoint.symm
    · exact h.running j call run ht
  · rcases ht with ht | ht
    · rcases getElem?_set_cases ht with ⟨rfl, hpoint⟩ | ⟨-, ht⟩
      · exact hanswered call answer (.inl hpoint.symm)
      · exact mem_append_left _ (h.answered j call answer (.inl ht))
    · rcases getElem?_set_cases ht with ⟨rfl, hpoint⟩ | ⟨-, ht⟩
      · exact hanswered call answer (.inr hpoint.symm)
      · exact mem_append_left _ (h.answered j call answer (.inr ht))

theorem Linearized.moved (h : Linearized m runs value s)
    (hrunning : ∀ call run, point = .inside call run → runs call run)
    (hanswered : ∀ call answer, point = .returning call answer ∨ point = .outside (some (call, answer)) →
      (i, call, answer) ∈ s.effects) : Linearized m runs value (s.move i point) := by
  have hmoved := h.move (i := i) [] (by rw [append_nil]; exact h.cell) hrunning
    (by rw [append_nil]; exact hanswered)
  rwa [append_nil] at hmoved

theorem Linearized.step (hsimulates : Simulates m runs) (h : Linearized m runs value s)
    (hstep : step m a s = some s') : Linearized m runs value s' ∧ Instant s a s' := by
  cases a with
  | invoke i call =>
    dsimp only [NarrowAtomics.step] at hstep
    split at hstep
    · rw [← some.inj hstep]
      refine ⟨h.moved ?_ ?_, .inl ⟨rfl, rfl⟩⟩
      · rintro _ _ ⟨⟩
        exact hsimulates.begins call
      · rintro _ _ (⟨⟨⟩⟩ | ⟨⟨⟩⟩)
    · cases hstep
  | word i =>
    dsimp only [NarrowAtomics.step] at hstep
    split at hstep
    · rename_i call run hinside
      have hruns := h.running i call run hinside
      obtain ⟨v, hword, hsequential⟩ := h.cell
      rw [hword] at hstep
      split at hstep
      · rename_i run' hresume
        obtain ⟨hsame, hruns'⟩ := hsimulates.continues hruns hresume
        rw [← some.inj hstep, hsame, ← hword]
        refine ⟨h.moved ?_ ?_, .inl ⟨rfl, rfl⟩⟩
        · rintro _ _ ⟨⟩
          exact hruns'
        · rintro _ _ (⟨⟨⟩⟩ | ⟨⟨⟩⟩)
      · rename_i answer hresume
        obtain ⟨hdone, hanswer⟩ := hsimulates.ends hruns hresume
        rw [← some.inj hstep]
        refine ⟨h.move _ ⟨(perform call v).1, hdone, ?_⟩ nofun ?_, .inr ⟨i, call, run, answer, rfl, hinside, ?_, rfl⟩⟩
        · exact sequential_append.2 ⟨v, hsequential, hanswer, rfl⟩
        · rintro _ _ (⟨⟨⟩⟩ | ⟨⟨⟩⟩)
          exact mem_append_right _ mem_cons_self
        · have hlt : i < s.threads.length := (List.getElem?_eq_some_iff.1 hinside).1
          exact getElem?_set_self hlt
    · cases hstep
  | «return» i =>
    dsimp only [NarrowAtomics.step] at hstep
    split at hstep
    · rename_i call answer hreturning
      rw [← some.inj hstep]
      refine ⟨h.moved nofun ?_, .inl ⟨rfl, rfl⟩⟩
      rintro _ _ (⟨⟨⟩⟩ | ⟨⟨⟩⟩)
      exact h.answered i call answer (.inl hreturning)
    · cases hstep

theorem linearized_initial (value : α) (threads : Nat) :
    Linearized m runs value (initial m value threads) := by
  have houtside : ∀ {i : Nat} {point : Point m},
      (initial m value threads).threads[i]? = some point → point = .outside none := fun h =>
    eq_of_mem_replicate (mem_of_getElem? h)
  refine ⟨⟨value, rfl, rfl⟩, fun i call run h => ?_, fun i call answer h => ?_⟩
  · cases houtside h
  · rcases h with h | h <;> cases houtside h

end Runs

/-- Along every run the word has `width` bits, the calls take effect one after the other on a cell, each
in a step between its start and its return, and an exchange whose expected value is the one of the cell
succeeds. -/
def Linearizable (m : Machine α) (width : Nat) : Prop :=
  ∀ (value : α) (threads : Nat) (s : State m), Reachable (step m) (initial m value threads) s →
    s.word.toNat < 2 ^ width ∧
    (∃ v, s.word = m.new v ∧ Sequential value s.effects v) ∧
    (∀ a s', step m a s = some s' → Instant s a s') ∧
    (∀ (i : Nat) (call : Call α) (answer : Answer α), s.threads[i]? = some (.returning call answer) ∨
      s.threads[i]? = some (.outside (some (call, answer))) → (i, call, answer) ∈ s.effects) ∧
    ∀ earlier i expected desired order answer later,
      s.effects = earlier ++ (i, .compareExchange expected desired order, answer) :: later →
        Sequential value earlier expected → answer = .exchanged (.ok (true, expected))

theorem linearizable {runs : Call α → m.Run → Prop} {width : Nat} (hsimulates : Simulates m runs)
    (hwidth : ∀ v, (m.new v).toNat < 2 ^ width) : Linearizable m width := by
  intro value threads s hs
  have h : Linearized m runs value s := hs.invariant (linearized_initial value threads)
    fun _ _ _ h _ hstep => (h.step hsimulates hstep).1
  obtain ⟨v, hword, hsequential⟩ := h.cell
  refine ⟨hword ▸ hwidth v, h.cell, fun a s' hstep => (h.step hsimulates hstep).2, h.answered, ?_⟩
  intro earlier i expected desired order answer later heffects hexpected
  rw [heffects] at hsequential
  obtain ⟨u, hu, hanswer, -⟩ := sequential_append.1 hsequential
  obtain rfl := hu.unique hexpected
  rw [hanswer, perform, if_pos rfl]

theorem narrows_uInt16 : Narrows UInt16.toUInt32 (fun x => (x &&& 65535).toUInt16) UInt32.toUInt16 where
  embeds := {
    back := fun x => by
      have hall : (65535 : UInt32).toUInt16 = -1 := rfl
      rw [UInt32.toUInt16_and, UInt16.toUInt16_toUInt32, hall, UInt16.and_neg_one]
    and := UInt16.toUInt32_and
    or := UInt16.toUInt32_or
    xor := UInt16.toUInt32_xor }
  add x y := by rw [UInt32.toUInt16_add, UInt16.toUInt16_toUInt32, UInt16.toUInt16_toUInt32]
  sub x y := by rw [UInt32.toUInt16_sub, UInt16.toUInt16_toUInt32, UInt16.toUInt16_toUInt32]

theorem narrows_uInt8 : Narrows UInt8.toUInt16 (fun x => (x &&& 255).toUInt8) UInt16.toUInt8 where
  embeds := {
    back := fun x => by
      have hall : (255 : UInt16).toUInt8 = -1 := rfl
      rw [UInt16.toUInt8_and, UInt8.toUInt8_toUInt16, hall, UInt8.and_neg_one]
    and := UInt8.toUInt16_and
    or := UInt8.toUInt16_or
    xor := UInt8.toUInt16_xor }
  add x y := by rw [UInt16.toUInt8_add, UInt8.toUInt8_toUInt16, UInt8.toUInt8_toUInt16]
  sub x y := by rw [UInt16.toUInt8_sub, UInt8.toUInt8_toUInt16, UInt8.toUInt8_toUInt16]

theorem embeds_int8 : Embeds Int8.toUInt8 UInt8.toInt8 where
  back := Int8.toInt8_toUInt8
  and := Int8.toUInt8_and
  or := Int8.toUInt8_or
  xor := Int8.toUInt8_xor

theorem embeds_int16 : Embeds Int16.toUInt16 UInt16.toInt16 where
  back := Int16.toInt16_toUInt16
  and := Int16.toUInt16_and
  or := Int16.toUInt16_or
  xor := Int16.toUInt16_xor

theorem new_uInt16 (v : UInt16) : (atomicU16.new v).toNat < 2 ^ 16 := by
  show v.toUInt32.toNat < _
  rw [UInt16.toNat_toUInt32]
  exact v.toNat_lt

theorem new_uInt8 (v : UInt8) : (atomicU8.new v).toNat < 2 ^ 8 := by
  show v.toUInt16.toUInt32.toNat < _
  rw [UInt16.toNat_toUInt32, UInt8.toNat_toUInt16]
  exact v.toNat_lt

/-- The narrow atomics are cells of their widths. -/
theorem narrow_atomics_linearizable : Linearizable atomicU16 16 ∧ Linearizable atomicU8 8 ∧
    Linearizable atomicI16 16 ∧ Linearizable atomicI8 8 := by
  have hU16 := simulates_atomicU32.narrowing narrows_uInt16
  have hU8 := hU16.narrowing narrows_uInt8
  have hI16 := hU16.delegating embeds_int16 Int16.toUInt16_add Int16.toUInt16_sub
  have hI8 := hU8.delegating embeds_int8 Int8.toUInt8_add Int8.toUInt8_sub
  exact ⟨linearizable hU16 new_uInt16, linearizable hU8 new_uInt8,
    linearizable hI16 fun v => new_uInt16 v.toUInt16, linearizable hI8 fun v => new_uInt8 v.toUInt8⟩

/-- Two threads add to a signed byte. -/
example :
    let actions : List (Action Int8) := [.invoke 0 (.fetchAdd 100 .seqCst), .word 0,
      .invoke 1 (.fetchAdd 100 .seqCst), .word 1, .word 1, .word 0, .word 0]
    (run (step atomicI8) actions (initial atomicI8 100 2)).map (fun s => (s.word, s.effects.length)) =
      some (44, 2) := by
  decide

end Mlang.AtomicCells
