import Mathlib.Data.Nat.Bitwise
import Mathlib.Tactic.Ring

namespace Mlang.LittleEndian

/-! Numbers as bytes, the least significant byte first. -/

def bytesOf : Nat → Nat → List UInt8
  | 0, _ => []
  | width + 1, v => .ofNat (v % 256) :: bytesOf width (v / 256)

def valueOf : List UInt8 → Nat
  | [] => 0
  | b :: bytes => valueOf bytes * 256 + b.toNat

theorem valueOf_append (bytes following : List UInt8) :
    valueOf (bytes ++ following) = valueOf following * 256 ^ bytes.length + valueOf bytes := by
  induction bytes with
  | nil => rw [List.nil_append, List.length_nil, pow_zero, Nat.mul_one]; rfl
  | cons b bytes ih =>
    rw [List.cons_append, valueOf, valueOf, ih, List.length_cons]
    ring

theorem length_bytesOf (width v : Nat) : (bytesOf width v).length = width := by
  induction width generalizing v with
  | zero => rfl
  | succ width ih => exact congrArg Nat.succ (ih (v / 256))

theorem valueOf_lt (bytes : List UInt8) : valueOf bytes < 256 ^ bytes.length := by
  induction bytes with
  | nil => exact Nat.one_pos
  | cons b bytes ih =>
    have hb : b.toNat < 256 := b.toNat_lt
    rw [valueOf, List.length_cons, pow_succ]
    omega

theorem valueOf_bytesOf {width v : Nat} (h : v < 256 ^ width) : valueOf (bytesOf width v) = v := by
  induction width generalizing v with
  | zero =>
    rw [pow_zero] at h
    exact (Nat.lt_one_iff.1 h).symm
  | succ width ih =>
    have hhead : (UInt8.ofNat (v % 256)).toNat = v % 256 :=
      UInt8.toNat_ofNat_of_lt' (Nat.mod_lt v (by decide))
    have htail : v / 256 < 256 ^ width := by
      rw [pow_succ] at h
      exact Nat.div_lt_of_lt_mul (Nat.mul_comm _ _ ▸ h)
    rw [bytesOf, valueOf, hhead, ih htail]
    omega

theorem or_shifted {x y k : Nat} (h : x < 2 ^ k) : x ||| y <<< k = y * 2 ^ k + x := by
  rw [Nat.or_comm, ← Nat.shiftLeft_add_eq_or_of_lt h, Nat.shiftLeft_eq]

theorem low_byte (v : Nat) : v &&& 0xFF = v % 256 := Nat.and_two_pow_sub_one_eq_mod v 8

theorem masked (v k : Nat) : v >>> k &&& 0xFF = v / 2 ^ k % 256 := by
  rw [Nat.shiftRight_eq_div_pow]
  exact low_byte _

theorem bytesOf_four (v : Nat) :
    [UInt8.ofNat (v &&& 0xFF), .ofNat (v >>> 8 &&& 0xFF), .ofNat (v >>> 16 &&& 0xFF),
      .ofNat (v >>> 24 &&& 0xFF)] = bytesOf 4 v := by
  rw [low_byte, masked, masked, masked]
  simp only [bytesOf, Nat.div_div_eq_div_mul]
  rfl

theorem valueOf_four (b0 b1 b2 b3 : UInt8) :
    b0.toNat ||| b1.toNat <<< 8 ||| b2.toNat <<< 16 ||| b3.toNat <<< 24 = valueOf [b0, b1, b2, b3] := by
  have h0 : b0.toNat < 256 := b0.toNat_lt
  have h1 : b1.toNat < 256 := b1.toNat_lt
  have h2 : b2.toNat < 256 := b2.toNat_lt
  rw [or_shifted (k := 8) h0, or_shifted (k := 16) (by omega), or_shifted (k := 24) (by omega)]
  simp only [valueOf]
  omega

end Mlang.LittleEndian
