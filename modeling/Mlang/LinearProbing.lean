import Mathlib.Data.Nat.Find
import Mlang.RingSlots

namespace Mlang.LinearProbing

/-! Tables whose keys are looked for from a home slot on, one slot after the other and round the end
of the table. -/

open RingSlots

variable {σ ρ : Type} {body : σ → ρ ⊕ σ} {x : Nat → σ} {r : ρ} {d : Nat}

def forever (body : σ → ρ ⊕ σ) : Nat → σ → Option ρ
  | 0, _ => none
  | fuel + 1, s =>
    match body s with
    | .inl r => some r
    | .inr s' => forever body fuel s'

theorem forever_succ_of_inr {s s' : σ} {fuel : Nat} (h : body s = .inr s') :
    forever body (fuel + 1) s = forever body fuel s' := by
  rw [forever, h]

theorem forever_of_ends (hpass : ∀ e < d, body (x e) = .inr (x (e + 1)))
    (hend : body (x d) = .inl r) {fuel : Nat} (hfuel : d < fuel) : forever body fuel (x 0) = some r := by
  induction d generalizing x fuel with
  | zero =>
    obtain ⟨rest, rfl⟩ := Nat.exists_eq_succ_of_ne_zero hfuel.ne'
    rw [forever, hend]
  | succ d ih =>
    obtain ⟨rest, rfl⟩ := Nat.exists_eq_succ_of_ne_zero (Nat.ne_zero_of_lt hfuel)
    rw [forever_succ_of_inr (hpass 0 (Nat.succ_pos d))]
    exact ih (x := fun e => x (e + 1)) (fun e he => hpass (e + 1) (by omega)) hend
      (by omega)

theorem forever_of_passes (hpass : ∀ e, body (x e) = .inr (x (e + 1))) (fuel : Nat) :
    forever body fuel (x 0) = none := by
  induction fuel generalizing x with
  | zero => rfl
  | succ fuel ih =>
    rw [forever_succ_of_inr (hpass 0)]
    exact ih (x := fun e => x (e + 1)) fun e => hpass (e + 1)

variable {n h i j e : Nat}

def place (n h d : Nat) : Nat := (h + d) % n

def distance (n h i : Nat) : Nat := (i + n - h) % n

theorem place_zero (h : Nat) (hh : h < n) : place n h 0 = h := Nat.mod_eq_of_lt hh

theorem place_succ (n h d : Nat) : (place n h d + 1) % n = place n h (d + 1) := by
  rw [place, Nat.mod_add_mod, Nat.add_assoc, place]

theorem place_lt (hn : 0 < n) : place n h d < n := Nat.mod_lt _ hn

theorem distance_lt (hn : 0 < n) : distance n h i < n := Nat.mod_lt _ hn

theorem place_distance (hh : h < n) (hi : i < n) : place n h (distance n h i) = i := by
  have hsum : h + (i + n - h) = i + n := by omega
  rw [place, distance, Nat.add_mod_mod, hsum, Nat.add_mod_right, Nat.mod_eq_of_lt hi]

theorem place_inj (hd : d < n) (he : e < n) (heq : place n h d = place n h e) : d = e := by
  rcases Nat.lt_trichotomy d e with hlt | heq' | hlt
  · exact absurd heq (mod_ne_mod (by omega) (by omega))
  · exact heq'
  · exact absurd heq.symm (mod_ne_mod (by omega) (by omega))

theorem distance_place (hn : 0 < n) (hh : h < n) (hd : d < n) : distance n h (place n h d) = d :=
  place_inj (distance_lt hn) hd (place_distance hh (place_lt hn))

structure First (n h : Nat) (p : Nat → Prop) (d : Nat) : Prop where
  here : p (place n h d)
  before : ∀ e < d, ¬ p (place n h e)

theorem exists_first {p : Nat → Prop} (hh : h < n) (hi : i < n) (hp : p i) : ∃ d < n, First n h p d := by
  classical
  have hex : ∃ d, p (place n h d) := ⟨distance n h i, by rwa [place_distance hh hi]⟩
  refine ⟨Nat.find hex, ?_, Nat.find_spec hex, fun e he => Nat.find_min hex he⟩
  have hle : Nat.find hex ≤ distance n h i :=
    Nat.find_min' hex (by rwa [place_distance hh hi])
  exact lt_of_le_of_lt hle (distance_lt (Nat.zero_lt_of_lt hh))

variable {K : Type} {home : K → Nat} {owner owner' : Nat → Option K} {unused unused' : Nat → Prop}
  {k : K}

def Chained (n : Nat) (home : K → Nat) (owner : Nat → Option K) (unused : Nat → Prop) : Prop :=
  ∀ i < n, ∀ k, owner i = some k → ∀ d < distance n (home k) i, ¬ unused (place n (home k) d)

theorem Chained.mono (h : Chained n home owner unused)
    (howner : ∀ i < n, ∀ k, owner' i = some k → owner i = some k)
    (hunused : ∀ i < n, unused' i → unused i) : Chained n home owner' unused' := by
  intro i hi k hk d hd hfree
  have hn := Nat.zero_lt_of_lt hi
  exact h i hi k (howner i hi k hk) d hd (hunused _ (place_lt hn) hfree)

theorem Chained.put (h : Chained n home owner unused) (hhome : home k < n) (hd : d < n)
    (hbefore : ∀ e < d, ¬ unused (place n (home k) e))
    (howner : ∀ i < n, ∀ l, owner' i = some l → (i = place n (home k) d ∧ l = k) ∨ owner i = some l)
    (hunused : ∀ i < n, unused' i → unused i) : Chained n home owner' unused' := by
  intro i hi l hl e he hfree
  have hn := Nat.zero_lt_of_lt hi
  have hfree := hunused _ (place_lt hn) hfree
  obtain ⟨rfl, rfl⟩ | hold := howner i hi l hl
  · rw [distance_place hn hhome hd] at he
    exact hbefore e he hfree
  · exact h i hi l hold e he hfree

theorem Chained.first (h : Chained n home owner unused) (hhome : home k < n) (hi : i < n)
    (hk : owner i = some k) (hunique : ∀ j < n, owner j = some k → j = i) :
    First n (home k) (fun j => unused j ∨ owner j = some k) (distance n (home k) i) where
  here := .inr (by rw [place_distance hhome hi, hk])
  before := by
    have hn := Nat.zero_lt_of_lt hi
    rintro e he (hfree | howner)
    · exact h i hi k hk e he hfree
    · have heq := hunique _ (place_lt hn) howner
      rw [← heq, distance_place hn hhome (he.trans (distance_lt hn))] at he
      exact lt_irrefl e he

end Mlang.LinearProbing
