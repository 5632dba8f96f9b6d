import Mathlib.Logic.Basic

namespace Mlang.IntegerIR

structure IRInt where
  width : Nat
  bits : BitVec width
  deriving DecidableEq

inductive Opcode
  | add | sub | mul | udiv | sdiv | urem | srem | and | or | xor | shl | lshr | ashr
  deriving DecidableEq

inductive Predicate
  | eq | ne | ult | ugt | ule | uge | slt | sgt | sle | sge
  deriving DecidableEq

def Opcode.exec {w : Nat} (op : Opcode) (x y : BitVec w) : Option (BitVec w) :=
  match op with
  | .add => some (x + y)
  | .sub => some (x - y)
  | .mul => some (x * y)
  | .udiv => if y = 0 then none else some (x / y)
  | .sdiv =>
    if y = 0 ∨ (x = BitVec.intMin w ∧ y = BitVec.allOnes w) then none else some (x.sdiv y)
  | .urem => if y = 0 then none else some (x % y)
  | .srem =>
    if y = 0 ∨ (x = BitVec.intMin w ∧ y = BitVec.allOnes w) then none else some (x.srem y)
  | .and => some (x &&& y)
  | .or => some (x ||| y)
  | .xor => some (x ^^^ y)
  | .shl => if y.toNat < w then some (x <<< y.toNat) else none
  | .lshr => if y.toNat < w then some (x >>> y.toNat) else none
  | .ashr => if y.toNat < w then some (x.sshiftRight y.toNat) else none

def Predicate.test {w : Nat} (p : Predicate) (x y : BitVec w) : Bool :=
  match p with
  | .eq => x == y
  | .ne => x != y
  | .ult => x.ult y
  | .ugt => y.ult x
  | .ule => x.ule y
  | .uge => y.ule x
  | .slt => x.slt y
  | .sgt => y.slt x
  | .sle => x.sle y
  | .sge => y.sle x

namespace IRInt

def ofBool (b : Bool) : IRInt := ⟨1, BitVec.ofBool b⟩

def isNonzero (v : IRInt) : Bool := v.bits != 0

def intCast (signed : Bool) (w : Nat) (v : IRInt) : IRInt :=
  ⟨w, if signed then v.bits.signExtend w else v.bits.setWidth w⟩

def binary (op : Opcode) (l r : IRInt) : Option IRInt :=
  (op.exec l.bits (r.bits.setWidth l.width)).map (IRInt.mk l.width)

def compare (p : Predicate) (l r : IRInt) : IRInt :=
  ofBool (p.test l.bits (r.bits.setWidth l.width))

theorem intCast_self (s : Bool) (v : IRInt) : v.intCast s v.width = v := by
  cases s <;> simp [intCast]

theorem binary_mk {w : Nat} (op : Opcode) (x y : BitVec w) :
    binary op ⟨w, x⟩ ⟨w, y⟩ = (op.exec x y).map (IRInt.mk w) := by
  simp [binary]

theorem compare_mk {w : Nat} (p : Predicate) (x y : BitVec w) :
    compare p ⟨w, x⟩ ⟨w, y⟩ = ofBool (p.test x y) := by
  simp [compare]

end IRInt

end Mlang.IntegerIR
