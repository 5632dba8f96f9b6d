import Mathlib
import Mlang.EmittedIntegers

namespace Mlang.RangeLoops

open TypeKinds EmittedIntegers List

structure Bound extends EmittedInteger where
  integer : isIntegerInferKind kind = true

structure RangeExpressionNode where
  start : Bound
  stop : Bound
  inclusive : Bool

/-- `CreateSExt`, of any type that is not already `i64`. -/
def Bound.extended (b : Bound) : BitVec 64 := b.bits.signExtend 64

/-- The blocks that `generateForStatement` emits for a range. -/
inductive Block
  | forCond | forBody | forInc | forEnd
  deriving DecidableEq

structure LoopState (S : Type) where
  block : Block
  loopVar : BitVec 64
  env : S

variable {S : Type}

def loopcond (range : RangeExpressionNode) (currentVal : BitVec 64) : Bool :=
  if range.inclusive then currentVal.sle range.stop.extended
  else currentVal.slt range.stop.extended

/-- One block is run. The body does not assign the variable of the loop, which it sees as the `i64`
that it is declared to be, and runs to its end. -/
def runBlock (range : RangeExpressionNode) (body : Int → S → S) (s : LoopState S) : LoopState S :=
  match s.block with
  | .forCond => { s with block := if loopcond range s.loopVar then .forBody else .forEnd }
  | .forBody => { s with block := .forInc, env := body s.loopVar.toInt s.env }
  | .forInc => { s with block := .forCond, loopVar := s.loopVar + 1 }
  | .forEnd => s

def entry (range : RangeExpressionNode) (env : S) : LoopState S :=
  ⟨.forCond, range.start.extended, env⟩

def size (inclusive : Bool) (start stop : Int) : Nat :=
  if inclusive then (stop + 1 - start).toNat else (stop - start).toNat

def interval (inclusive : Bool) (start stop : Int) : List Int :=
  (List.range (size inclusive start stop)).map fun k : Nat => start + k

def RunsOverRange (range : RangeExpressionNode) : Prop :=
  ∀ (S : Type) (body : Int → S → S) (env : S), ∃ n,
    ((runBlock range body)^[n] (entry range env)).block = .forEnd ∧
    ((runBlock range body)^[n] (entry range env)).env =
      (interval range.inclusive range.start.number range.stop.number).foldl
        (fun env i => body i env) env

def Meets (range : RangeExpressionNode) : Prop :=
  (size range.inclusive range.start.number range.stop.number = 0 ∧
      size range.inclusive range.start.bits.toInt range.stop.bits.toInt = 0) ∨
    (range.start.Plain ∧ range.stop.Plain ∧ (range.inclusive = true → range.stop.number ≠ 2 ^ 63 - 1))

variable {inclusive : Bool} {start stop : Int} {n : Nat}

theorem size_next (h : size inclusive start stop = n + 1) : size inclusive (start + 1) stop = n := by
  cases inclusive with
  | true =>
    have hn : (stop + 1 - start).toNat = n + 1 := h
    show (stop + 1 - (start + 1)).toNat = n
    omega
  | false =>
    have hn : (stop - start).toNat = n + 1 := h
    show (stop - (start + 1)).toNat = n
    omega

theorem interval_cons (h : size inclusive start stop = n + 1) :
    interval inclusive start stop = start :: interval inclusive (start + 1) stop := by
  rw [interval, interval, h, size_next h, range_succ_eq_map, map_cons, map_map]
  congr 1
  · exact Int.add_zero start
  · refine map_congr_left fun k _ => ?_
    show start + ((k + 1 : Nat) : Int) = start + 1 + k
    push_cast
    ring

theorem length_interval (inclusive : Bool) (start stop : Int) :
    (interval inclusive start stop).length = size inclusive start stop := by
  rw [interval, length_map, length_range]

theorem interval_eq_iff {start' stop' : Int} :
    interval inclusive start stop = interval inclusive start' stop' ↔
    (size inclusive start stop = 0 ∧ size inclusive start' stop' = 0) ∨ (start = start' ∧ stop = stop') := by
  constructor
  · intro h
    have hsize : size inclusive start stop = size inclusive start' stop' := by
      rw [← length_interval, h, length_interval]
    cases hn : size inclusive start stop with
    | zero => exact Or.inl ⟨rfl, hsize ▸ hn⟩
    | succ n =>
      have hn' : size inclusive start' stop' = n + 1 := hsize ▸ hn
      rw [interval_cons hn, interval_cons hn'] at h
      obtain rfl := (List.cons.inj h).1
      refine Or.inr ⟨rfl, ?_⟩
      cases inclusive with
      | true =>
        have h₁ : (stop + 1 - start).toNat = n + 1 := hn
        have h₂ : (stop' + 1 - start).toNat = n + 1 := hn'
        omega
      | false =>
        have h₁ : (stop - start).toNat = n + 1 := hn
        have h₂ : (stop' - start).toNat = n + 1 := hn'
        omega
  · rintro (⟨h, h'⟩ | ⟨rfl, rfl⟩)
    · rw [interval, interval, h, h']
      rfl
    · rfl

variable (range : RangeExpressionNode) (body : Int → S → S)

def limit : Int :=
  if range.inclusive then range.stop.extended.toInt + 1 else range.stop.extended.toInt

theorem loopcond_iff (c : BitVec 64) : loopcond range c = true ↔ c.toInt < limit range := by
  unfold loopcond limit
  split
  · rw [BitVec.sle_iff_toInt_le, Int.lt_add_one_iff]
  · exact BitVec.slt_iff_toInt_lt

theorem toInt_succ {c : BitVec 64} (h : c.toInt < 2 ^ 63 - 1) : (c + 1).toInt = c.toInt + 1 := by
  have hlow := c.le_toInt
  rw [BitVec.toInt_add]
  have hone : (1 : BitVec 64).toInt = 1 := rfl
  rw [hone]
  apply Int.bmod_eq_of_le <;> omega

theorem run_from_cond (hlimit : limit range ≤ 2 ^ 63 - 1) (n : Nat) (c : BitVec 64) (env : S)
    (hn : size range.inclusive c.toInt range.stop.extended.toInt = n) :
    ((runBlock range body)^[3 * n + 1] ⟨.forCond, c, env⟩).block = .forEnd ∧
      ((runBlock range body)^[3 * n + 1] ⟨.forCond, c, env⟩).env =
        (interval range.inclusive c.toInt range.stop.extended.toInt).foldl
          (fun env i => body i env) env := by
  have hsize : n = (limit range - c.toInt).toNat := by
    rw [← hn]
    unfold size limit
    split <;> rfl
  induction n generalizing c env with
  | zero =>
    have hcond : loopcond range c = false := by
      rw [← Bool.not_eq_true, loopcond_iff]
      omega
    rw [interval, hn]
    simp [runBlock, hcond]
  | succ n ih =>
    have hlt : c.toInt < limit range := by omega
    have hnext := toInt_succ (c := c) (by omega)
    have hcond := (loopcond_iff range c).2 hlt
    have hturn : (runBlock range body)^[3] ⟨.forCond, c, env⟩ =
        ⟨.forCond, c + 1, body c.toInt env⟩ := by
      simp [runBlock, hcond]
    have hrest : size range.inclusive (c + 1).toInt range.stop.extended.toInt = n :=
      hnext.symm ▸ size_next hn
    rw [show 3 * (n + 1) + 1 = 3 * n + 1 + 3 by ring, Function.iterate_add_apply, hturn,
      interval_cons hn, foldl_cons, ← hnext]
    exact ih (c + 1) (body c.toInt env) hrest (by omega)

theorem never_ends (hinclusive : range.inclusive = true)
    (hstop : range.stop.extended.toInt = 2 ^ 63 - 1) (n : Nat) (s : LoopState S)
    (hs : s.block ≠ .forEnd) : ((runBlock range body)^[n] s).block ≠ .forEnd := by
  induction n generalizing s with
  | zero => exact hs
  | succ n ih =>
    refine ih _ ?_
    have hcond : loopcond range s.loopVar = true := by
      rw [loopcond_iff, limit, if_pos hinclusive, hstop]
      exact Int.lt_add_one_of_le (Int.le_sub_one_of_lt s.loopVar.toInt_lt)
    unfold runBlock
    split
    · simp [hcond]
    · simp
    · simp
    · next hend => exact absurd hend hs

theorem forEnd_stays {s : LoopState S} (h : s.block = .forEnd) (n : Nat) :
    (runBlock range body)^[n] s = s := by
  refine Function.iterate_fixed ?_ n
  unfold runBlock
  rw [h]

theorem env_unique {n n' : Nat} {s : LoopState S} (h : ((runBlock range body)^[n] s).block = .forEnd)
    (h' : ((runBlock range body)^[n'] s).block = .forEnd) :
    ((runBlock range body)^[n] s).env = ((runBlock range body)^[n'] s).env := by
  rcases Nat.le_total n n' with hle | hle
  · obtain ⟨k, rfl⟩ := Nat.exists_eq_add_of_le' hle
    rw [Function.iterate_add_apply, forEnd_stays range body h]
  · obtain ⟨k, rfl⟩ := Nat.exists_eq_add_of_le' hle
    rw [Function.iterate_add_apply, forEnd_stays range body h']

theorem Bound.toInt_extended (b : Bound) : b.extended.toInt = b.bits.toInt :=
  BitVec.toInt_signExtend_of_le b.width_le

def ReachesTop : Prop := range.inclusive = true ∧ range.stop.bits.toInt = 2 ^ 63 - 1

theorem limit_le (h : ¬ ReachesTop range) : limit range ≤ 2 ^ 63 - 1 := by
  have hlt := range.stop.extended.toInt_lt
  unfold limit
  split
  · next hinclusive =>
    have hne : range.stop.extended.toInt ≠ 2 ^ 63 - 1 := fun htop =>
      h ⟨hinclusive, range.stop.toInt_extended ▸ htop⟩
    omega
  · omega

theorem runs_signed (h : ¬ ReachesTop range) {S : Type} (body : Int → S → S) (env : S) :
    ∃ n, ((runBlock range body)^[n] (entry range env)).block = .forEnd ∧
      ((runBlock range body)^[n] (entry range env)).env =
        (interval range.inclusive range.start.bits.toInt range.stop.bits.toInt).foldl
          (fun env i => body i env) env := by
  obtain ⟨hend, henv⟩ := run_from_cond range body (limit_le range h) _ range.start.extended env rfl
  rw [range.start.toInt_extended, range.stop.toInt_extended] at hend henv
  exact ⟨_, hend, henv⟩

theorem not_runs_of_reachesTop (h : ReachesTop range) : ¬ RunsOverRange range := by
  intro hruns
  obtain ⟨n, hend, -⟩ := hruns Unit (fun _ env => env) ()
  refine never_ends range _ h.1 (range.stop.toInt_extended.trans h.2) n _ ?_ hend
  exact fun hcond => Block.noConfusion hcond

theorem runs_iff_interval (h : ¬ ReachesTop range) :
    RunsOverRange range ↔
      interval range.inclusive range.start.number range.stop.number =
        interval range.inclusive range.start.bits.toInt range.stop.bits.toInt := by
  constructor
  · intro hruns
    -- a body that writes down what it sees tells two ranges apart
    obtain ⟨n, hend, henv⟩ := hruns (List Int) List.cons []
    obtain ⟨n', hend', henv'⟩ := runs_signed range h List.cons []
    have hsame := env_unique range List.cons hend hend'
    rw [henv, henv', foldl_flip_cons_eq_append', foldl_flip_cons_eq_append'] at hsame
    simpa using hsame
  · intro hsame S body env
    rw [hsame]
    exact runs_signed range h body env

/-- A loop runs over exactly its range if and only if signed bits say what the bounds mean, or the
range is empty either way, and a closed range ends below the largest number of `i64`. -/
theorem runsOverRange_iff : RunsOverRange range ↔ Meets range := by
  by_cases htop : ReachesTop range
  · refine iff_of_false (not_runs_of_reachesTop range htop) ?_
    obtain ⟨hinclusive, hstop⟩ := htop
    rintro (⟨-, hempty⟩ | ⟨-, hplain, hne⟩)
    · have hlt := range.start.extended.toInt_lt
      rw [range.start.toInt_extended] at hlt
      rw [hstop, size, if_pos hinclusive] at hempty
      omega
    · exact hne hinclusive ((EmittedInteger.plain_iff.1 hplain).trans hstop)
  · rw [runs_iff_interval range htop, interval_eq_iff, Meets, EmittedInteger.plain_iff, EmittedInteger.plain_iff]
    refine or_congr_right ⟨fun ⟨hstart, hstop⟩ => ⟨hstart, hstop, fun hinclusive hlast => ?_⟩,
      fun ⟨hstart, hstop, _⟩ => ⟨hstart, hstop⟩⟩
    exact htop ⟨hinclusive, hstop.symm.trans hlast⟩

/-- From 100 up to 203, in variables of `u8`. -/
def topBits : RangeExpressionNode :=
  ⟨⟨.ofVariable .u8 100#8 getLLVMIntWidth_u8 (u8_fits 100#8), rfl⟩,
    ⟨.ofVariable .u8 203#8 getLLVMIntWidth_u8 (u8_fits 203#8), rfl⟩, false⟩

/-- The same range between literals, which are of 64 bits, runs. -/
example : Meets ⟨⟨⟨.u8, 8, 64, 100, rfl, .inr ⟨rfl, rfl⟩, by decide⟩, rfl⟩,
    ⟨⟨.u8, 8, 64, 203, rfl, .inr ⟨rfl, rfl⟩, by decide⟩, rfl⟩, false⟩ :=
  .inr ⟨fun _ => rfl, fun _ => rfl, nofun⟩

theorem not_runsOverRange_topBits : ¬ RunsOverRange topBits := by
  intro hruns
  have hempty : interval false 100 203 = interval false 100 (-53) :=
    (runs_iff_interval topBits fun h => Bool.noConfusion h.1).1 hruns
  rcases interval_eq_iff.1 hempty with ⟨h, -⟩ | ⟨-, h⟩
  · exact absurd h (by decide)
  · exact absurd h (by decide)

end Mlang.RangeLoops
