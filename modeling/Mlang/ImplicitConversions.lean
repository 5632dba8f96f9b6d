import Mlang.EmittedIntegers
import Mlang.IntegerIR
import Mlang.IntegerRounding

namespace Mlang.ImplicitConversions

open IntegerIR IntegerRounding TypeKinds EmittedIntegers

inductive IRType
  | int (width : Nat)
  | floatType
  | doubleType
  deriving DecidableEq

inductive IRValue
  | int (v : IRInt)
  | floating (n : Int)

def getLLVMType (k : TypeKind) : Option IRType :=
  match k with
  | .float => some .floatType
  | .double => some .doubleType
  | _ => (getLLVMIntWidth k).map .int

def precision : IRType → Nat
  | .doubleType => 53
  | _ => 24

structure Destination where
  kind : TypeKind
  type : IRType
  lowered : getLLVMType kind = some type

def irValue (v : EmittedInteger) : IRInt := ⟨v.width, v.bits⟩

def deliveredNumber (k : TypeKind) : IRValue → Int
  | .int v => numberOf k v.bits
  | .floating n => n

def Destination.Represents (d : Destination) (n : Int) : Prop :=
  match d.type with
  | .int width =>
    if withoutSign d.kind then 0 ≤ n ∧ n < 2 ^ width
    else -2 ^ (width - 1) ≤ n ∧ n < 2 ^ (width - 1)
  | t => Exact (precision t) n.natAbs

/-- `CreateTrunc` and `CreateSExt`, chosen by the widths. -/
def byWidths (expectedBits : Nat) (v : IRInt) : IRInt :=
  if v.width > expectedBits then ⟨expectedBits, v.bits.setWidth expectedBits⟩
  else if v.width < expectedBits then ⟨expectedBits, v.bits.signExtend expectedBits⟩
  else v

def sitofp (t : IRType) (v : IRInt) : IRValue := .floating (roundInt (precision t) v.bits.toInt)

/-! One conversion for each form of a call and for a return; without a value an error is reported. -/

def functionArgument (expectedType : IRType) (argVal : IRInt) : Option IRValue :=
  match expectedType with
  | .int expectedBits => some (.int (byWidths expectedBits argVal))
  | t => some (sitofp t argVal)

def staticMethodArgument (expectedType : IRType) (argVal : IRInt) : Option IRValue :=
  match expectedType with
  | .int expectedBits => some (.int (argVal.intCast true expectedBits))
  | t => some (sitofp t argVal)

def callableArgument (parameterType : IRType) (argument : IRInt) : Option IRValue :=
  match parameterType with
  | .int expectedBits => some (.int (argument.intCast true expectedBits))
  | _ => none

def runtimeClosureArgument (parameterType : IRType) (argument : IRInt) : Option IRValue :=
  match parameterType with
  | .int expectedBits => some (.int (argument.intCast true expectedBits))
  | _ => none

def inlineLambdaArgument (expectedType : IRType) (argVal : IRInt) : Option IRValue :=
  match expectedType with
  | .int dstBits => some (.int (byWidths dstBits argVal))
  | t => some (sitofp t argVal)

def returnedValue (expectedRetType : IRType) (returnValue : IRInt) : Option IRValue :=
  match expectedRetType with
  | .int expectedBits => some (.int (byWidths expectedBits returnValue))
  | t => some (sitofp t returnValue)

inductive Form
  | functionCall | staticMethodCall | callableInvocation | runtimeClosureCall | inlineLambdaCall
  | returnStatement
  deriving DecidableEq

def deliver (form : Form) (expectedType : IRType) (v : IRInt) : Option IRValue :=
  if IRType.int v.width = expectedType then some (.int v)
  else
    match form with
    | .functionCall => functionArgument expectedType v
    | .staticMethodCall => staticMethodArgument expectedType v
    | .callableInvocation => callableArgument expectedType v
    | .runtimeClosureCall => runtimeClosureArgument expectedType v
    | .inlineLambdaCall => inlineLambdaArgument expectedType v
    | .returnStatement => returnedValue expectedType v

theorem byWidths_eq (w : Nat) (v : IRInt) : byWidths w v = v.intCast true w := by
  obtain ⟨width, bits⟩ := v
  unfold byWidths IRInt.intCast
  split
  · next hgt => rw [if_pos rfl, BitVec.signExtend_eq_setWidth_of_le bits (Nat.le_of_lt hgt)]
  split
  · rfl
  · next hge hle =>
    obtain rfl : width = w := Nat.le_antisymm (Nat.not_lt.1 hge) (Nat.not_lt.1 hle)
    rw [if_pos rfl, BitVec.signExtend_eq]

/-- Every form converts integers in one way: as if they had a sign. -/
theorem deliver_int (form : Form) (w : Nat) (v : IRInt) :
    deliver form (.int w) v = some (.int (v.intCast true w)) := by
  unfold deliver
  split
  · next hsame =>
    obtain rfl := IRType.int.inj hsame
    rw [IRInt.intCast_self]
  · cases form <;> simp only [functionArgument, staticMethodArgument, callableArgument,
      runtimeClosureArgument, inlineLambdaArgument, returnedValue, byWidths_eq]

theorem deliver_floating {form : Form} {t : IRType} (ht : ∀ w, t ≠ .int w) {v : IRInt} {r : IRValue}
    (h : deliver form t v = some r) : r = sitofp t v := by
  unfold deliver at h
  rw [if_neg fun hsame => ht _ hsame.symm] at h
  cases t with
  | int w => exact absurd rfl (ht w)
  | floatType =>
    cases form <;> first | exact (Option.some.inj h).symm | exact nomatch h
  | doubleType =>
    cases form <;> first | exact (Option.some.inj h).symm | exact nomatch h

variable {w : Nat} {n m : Int}

theorem ofInt_eq_of_dvd (h : (2 : Int) ^ w ∣ n - m) : BitVec.ofInt w n = BitVec.ofInt w m := by
  apply BitVec.eq_of_toNat_eq
  rw [BitVec.toNat_ofInt, BitVec.toNat_ofInt]
  push_cast
  rw [Int.emod_eq_emod_iff_emod_sub_eq_zero.2 (Int.emod_eq_zero_of_dvd h)]

theorem numberOf_ofInt (d : Destination) (htype : d.type = .int w) (hw : 0 < w)
    (h : d.Represents n) : deliveredNumber d.kind (.int ⟨w, BitVec.ofInt w n⟩) = n := by
  simp only [Destination.Represents, htype] at h
  rw [deliveredNumber, numberOf]
  split at h
  · next hunsigned =>
    obtain ⟨hlow, hhigh⟩ := h
    rw [if_pos hunsigned, BitVec.toNat_ofInt]
    push_cast
    rw [Int.emod_eq_of_lt hlow hhigh, Int.toNat_of_nonneg hlow]
  · next hsigned =>
    rw [if_neg hsigned]
    exact BitVec.toInt_ofInt_eq_self hw h.1 h.2

theorem dvd_numberOf_sub (k : TypeKind) (w : Nat) (m : Int) :
    (2 : Int) ^ w ∣ deliveredNumber k (.int ⟨w, BitVec.ofInt w m⟩) - m := by
  have hpow : ((2 ^ w : Nat) : Int) = 2 ^ w := by push_cast; rfl
  rw [deliveredNumber, numberOf]
  split
  · rw [BitVec.toNat_ofInt, hpow, Int.toNat_of_nonneg (Int.emod_nonneg _ (hpow ▸ by
      exact_mod_cast (Nat.two_pow_pos w).ne'))]
    exact Int.dvd_emod_sub_self
  · rw [BitVec.toInt_ofInt, ← hpow]
    exact Int.dvd_bmod_sub_self

variable {v : EmittedInteger} {d : Destination}

/-- The number that an integer destination reads. -/
theorem numberOf_intCast :
    deliveredNumber d.kind (.int ((irValue v).intCast true w)) =
      deliveredNumber d.kind (.int ⟨w, BitVec.ofInt w v.bits.toInt⟩) := rfl

theorem exact_int_iff (htype : d.type = .int w) (h : d.Represents v.number) :
    deliveredNumber d.kind (.int ((irValue v).intCast true w)) = v.number ↔ v.Plain ∨ w ≤ v.width := by
  have hw : 0 < w := by
    have hlowered := d.lowered
    rw [htype] at hlowered
    unfold getLLVMType at hlowered
    split at hlowered
    · exact nomatch hlowered
    · exact nomatch hlowered
    · obtain ⟨w', hw', heq⟩ := Option.map_eq_some_iff.1 hlowered
      obtain rfl := IRType.int.inj heq
      exact (getLLVMIntWidth_le hw').1
  rw [numberOf_intCast]
  by_cases hplain : v.Plain
  · rw [EmittedInteger.toInt_of_plain hplain]
    exact iff_of_true (numberOf_ofInt d htype hw h) (Or.inl hplain)
  obtain ⟨hint, hpos, hlt⟩ := EmittedInteger.toInt_of_not_plain hplain
  by_cases hle : w ≤ v.width
  · refine iff_of_true ?_ (Or.inr hle)
    have hdvd : (2 : Int) ^ w ∣ v.bits.toInt - v.number := by
      rw [hint, sub_sub_cancel_left]
      exact (Int.dvd_neg).2 (pow_dvd_pow 2 hle)
    rw [ofInt_eq_of_dvd hdvd]
    exact numberOf_ofInt d htype hw h
  · refine iff_of_false (fun hexact => ?_) (not_or.2 ⟨hplain, hle⟩)
    -- the two numbers differ by less than the destination carries
    have hdvd := dvd_numberOf_sub d.kind w v.bits.toInt
    rw [hexact, hint, sub_sub_cancel] at hdvd
    have hsmall : (2 : Int) ^ v.width < 2 ^ w := by
      exact_mod_cast Nat.pow_lt_pow_right (by decide) (Nat.lt_of_not_le hle)
    have hge := Int.le_of_dvd (Int.pow_pos (by decide)) hdvd
    omega

theorem exact_floating_iff (ht : ∀ w, d.type ≠ .int w) (h : d.Represents v.number) :
    deliveredNumber d.kind (sitofp d.type (irValue v)) = v.number ↔ v.Plain := by
  have hexact : Exact (precision d.type) v.number.natAbs := by
    unfold Destination.Represents at h
    split at h
    · next w htype => exact absurd htype (ht w)
    · exact h
  show roundInt (precision d.type) v.bits.toInt = v.number ↔ v.Plain
  by_cases hplain : v.Plain
  · rw [EmittedInteger.toInt_of_plain hplain]
    exact iff_of_true (roundInt_of_exact hexact) hplain
  · obtain ⟨hint, hpos, hlt⟩ := EmittedInteger.toInt_of_not_plain hplain
    refine iff_of_false (fun hsame => ?_) hplain
    have hnonpos := roundInt_nonpos (p := precision d.type) (show v.bits.toInt < 0 by omega)
    omega

/-- A conversion is refused: a callable takes no integer for a floating parameter. -/
def Refused (form : Form) (expectedType : IRType) : Prop :=
  (form = .callableInvocation ∨ form = .runtimeClosureCall) ∧ ∀ w, expectedType ≠ .int w

theorem deliver_eq_none_iff (form : Form) (t : IRType) (x : IRInt) :
    deliver form t x = none ↔ Refused form t := by
  cases t with
  | int w =>
    rw [deliver_int]
    exact iff_of_false (fun h => (nomatch h)) fun h => h.2 w rfl
  | floatType =>
    cases form <;> simp [deliver, Refused, functionArgument, staticMethodArgument, callableArgument,
      runtimeClosureArgument, inlineLambdaArgument, returnedValue]
  | doubleType =>
    cases form <;> simp [deliver, Refused, functionArgument, staticMethodArgument, callableArgument,
      runtimeClosureArgument, inlineLambdaArgument, returnedValue]

/-- A number that the destination represents is delivered if and only if the sign bit of the source
is not taken for a sign, or is not extended. -/
theorem deliver_exact_iff (form : Form) (v : EmittedInteger) (d : Destination) (h : d.Represents v.number) :
    (∀ r, deliver form d.type (irValue v) = some r → deliveredNumber d.kind r = v.number) ↔
      v.Plain ∨ (∃ w, d.type = .int w ∧ w ≤ v.width) ∨ Refused form d.type := by
  by_cases ht : ∃ w, d.type = .int w
  · obtain ⟨w, htype⟩ := ht
    have hrefused : ¬ Refused form d.type := fun hrefused => hrefused.2 w htype
    have hwidth : (∃ w, d.type = .int w ∧ w ≤ v.width) ↔ w ≤ v.width := by
      constructor
      · rintro ⟨w', htype', hle⟩
        obtain rfl := IRType.int.inj (htype.symm.trans htype')
        exact hle
      · exact fun hle => ⟨w, htype, hle⟩
    rw [htype, deliver_int, ← htype, hwidth, or_iff_left hrefused]
    constructor
    · exact fun hall => (exact_int_iff htype h).1 (hall _ rfl)
    · intro hok r hr
      cases hr
      exact (exact_int_iff htype h).2 hok
  · have hfloating : ∀ w, d.type ≠ .int w := fun w htype => ht ⟨w, htype⟩
    have hwidth : ¬ ∃ w, d.type = .int w ∧ w ≤ v.width := fun ⟨w, htype, _⟩ => ht ⟨w, htype⟩
    rw [or_iff_right hwidth, ← deliver_eq_none_iff form d.type (irValue v)]
    cases hr : deliver form d.type (irValue v) with
    | none => exact iff_of_true (fun _ h => (nomatch h)) (Or.inr rfl)
    | some r =>
      obtain rfl := deliver_floating hfloating hr
      constructor
      · exact fun hall => Or.inl ((exact_floating_iff hfloating h).1 (hall _ rfl))
      · rintro (hplain | hnone) r hr
        · cases hr
          exact (exact_floating_iff hfloating h).2 hplain
        · exact nomatch hnone

/-- 200 in a variable of `u8`. -/
def byte200 : EmittedInteger := .ofVariable .u8 200#8 getLLVMIntWidth_u8 (u8_fits 200#8)

def trueValue : EmittedInteger := .ofVariable .bool 1#1 rfl (by decide)

theorem byte200_returned :
    deliver .returnStatement (.int 8) (irValue byte200) = some (.int (irValue byte200)) ∧
      deliveredNumber .u8 (.int (irValue byte200)) = 200 :=
  have hrepresents : (⟨.u8, .int 8, rfl⟩ : Destination).Represents byte200.number :=
    show (0 : Int) ≤ 200 ∧ (200 : Int) < 2 ^ 8 by decide
  ⟨rfl, (deliver_exact_iff .returnStatement byte200 ⟨.u8, .int 8, rfl⟩ hrepresents).2
    (Or.inr (Or.inl ⟨8, rfl, Nat.le_refl 8⟩)) _ rfl⟩

/-- A byte with its top bit set arrives as -56, and `true` as -1. -/
theorem not_deliver_exact :
    deliver .functionCall (.int 32) (irValue byte200) = some (.int ⟨32, -56⟩) ∧
    deliver .functionCall (.int 32) (irValue trueValue) = some (.int ⟨32, -1⟩) ∧
    ¬ ∀ (form : Form) (v : EmittedInteger) (d : Destination), d.Represents v.number →
      ∀ r, deliver form d.type (irValue v) = some r → deliveredNumber d.kind r = v.number := by
  refine ⟨rfl, rfl, fun hclaim => ?_⟩
  have hrepresents : (⟨.i32, .int 32, rfl⟩ : Destination).Represents trueValue.number :=
    show -2 ^ 31 ≤ (1 : Int) ∧ (1 : Int) < 2 ^ 31 by decide
  have hexact := hclaim .functionCall trueValue ⟨.i32, .int 32, rfl⟩ hrepresents _ rfl
  exact absurd hexact (by decide)

end Mlang.ImplicitConversions
