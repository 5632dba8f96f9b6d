import Mathlib.Data.List.Basic

namespace Mlang.UnicodeForms

open List

/-! The scalar values of Unicode and their forms in bytes and in units of 16 bits. -/

variable {c : Nat}

def Scalar (c : Nat) : Prop := c < 0xD800 ∨ 0xE000 ≤ c ∧ c < 0x110000

instance (c : Nat) : Decidable (Scalar c) := inferInstanceAs (Decidable (_ ∨ _))

def utf8Of (c : Nat) : List UInt8 :=
  if c < 0x80 then [.ofNat c]
  else if c < 0x800 then [.ofNat (0xC0 + c / 64), .ofNat (0x80 + c % 64)]
  else if c < 0x10000 then
    [.ofNat (0xE0 + c / 4096), .ofNat (0x80 + c / 64 % 64), .ofNat (0x80 + c % 64)]
  else
    [.ofNat (0xF0 + c / 262144), .ofNat (0x80 + c / 4096 % 64), .ofNat (0x80 + c / 64 % 64),
      .ofNat (0x80 + c % 64)]

def utf16Of (c : Nat) : List UInt16 :=
  if c < 0x10000 then [.ofNat c]
  else [.ofNat (0xD800 + (c - 0x10000) / 1024), .ofNat (0xDC00 + (c - 0x10000) % 1024)]

structure Scalars (cs : List Nat) : Prop where
  scalar : ∀ c ∈ cs, Scalar c
  nonzero : ∀ c ∈ cs, c ≠ 0

theorem Scalars.cons {cs : List Nat} (hc : Scalar c) (hzero : c ≠ 0) (h : Scalars cs) :
    Scalars (c :: cs) where
  scalar := forall_mem_cons.2 ⟨hc, h.scalar⟩
  nonzero := forall_mem_cons.2 ⟨hzero, h.nonzero⟩

theorem Scalars.tail {cs : List Nat} (h : Scalars (c :: cs)) : Scalars cs where
  scalar := (forall_mem_cons.1 h.scalar).2
  nonzero := (forall_mem_cons.1 h.nonzero).2

theorem scalars_nil : Scalars [] where
  scalar := fun _ h => absurd h not_mem_nil
  nonzero := fun _ h => absurd h not_mem_nil

theorem toNat_byte {n : Nat} (h : n < 256) : (UInt8.ofNat n).toNat = n := UInt8.toNat_ofNat_of_lt' h

theorem toNat_unit {n : Nat} (h : n < 65536) : (UInt16.ofNat n).toNat = n := UInt16.toNat_ofNat_of_lt' h

theorem byte_of_toNat {b : UInt8} {n : Nat} (h : b.toNat = n) : b = .ofNat n := by
  rw [← h]
  exact UInt8.ofNat_toNat.symm

theorem byte_ne_zero {n : Nat} (h : n < 256) (hzero : n ≠ 0) : UInt8.ofNat n ≠ 0 := by
  intro heq
  have hvalue := congrArg UInt8.toNat heq
  rw [toNat_byte h] at hvalue
  exact hzero hvalue

theorem unit_ne_zero {n : Nat} (h : n < 65536) (hzero : n ≠ 0) : UInt16.ofNat n ≠ 0 := by
  intro heq
  have hvalue := congrArg UInt16.toNat heq
  rw [toNat_unit h] at hvalue
  exact hzero hvalue

theorem zero_notMem_utf8Of (hc : Scalar c) (hzero : c ≠ 0) : (0 : UInt8) ∉ utf8Of c := by
  have hlimit : c < 0x110000 := by
    unfold Scalar at hc
    omega
  unfold utf8Of
  split_ifs with h1 h2 h3 <;> simp only [mem_cons, not_mem_nil, or_false, not_or]
  · exact (byte_ne_zero (by omega) hzero).symm
  · exact ⟨(byte_ne_zero (by omega) (by omega)).symm, (byte_ne_zero (by omega) (by omega)).symm⟩
  · exact ⟨(byte_ne_zero (by omega) (by omega)).symm, (byte_ne_zero (by omega) (by omega)).symm,
      (byte_ne_zero (by omega) (by omega)).symm⟩
  · exact ⟨(byte_ne_zero (by omega) (by omega)).symm, (byte_ne_zero (by omega) (by omega)).symm,
      (byte_ne_zero (by omega) (by omega)).symm, (byte_ne_zero (by omega) (by omega)).symm⟩

variable {α : Type} {zero : α} {text form rest behind : List α}

theorem exists_of_append (hform : zero ∉ form) (h : text ++ zero :: behind = form ++ rest) :
    ∃ tail, text = form ++ tail ∧ rest = tail ++ zero :: behind := by
  induction form generalizing text with
  | nil => exact ⟨text, rfl, h.symm⟩
  | cons x form ih =>
    obtain ⟨hx, hfollowing⟩ := not_or.1 (mt mem_cons.2 hform)
    cases text with
    | nil => exact absurd (List.cons.inj h).1 hx
    | cons y text =>
      obtain ⟨rfl, hmemory⟩ := List.cons.inj h
      obtain ⟨tail, rfl, hrest⟩ := ih hfollowing hmemory
      exact ⟨tail, rfl, hrest⟩

theorem exists_of_getD (hform : zero ∉ form)
    (h : ∀ i < form.length, text.getD i zero = form.getD i zero) : ∃ rest, text = form ++ rest := by
  induction form generalizing text with
  | nil => exact ⟨text, rfl⟩
  | cons x form ih =>
    obtain ⟨hx, hfollowing⟩ := not_or.1 (mt mem_cons.2 hform)
    have hhead := h 0 (Nat.succ_pos _)
    cases text with
    | nil => exact absurd hhead hx
    | cons y text =>
      have htail : ∀ i < form.length, text.getD i zero = form.getD i zero :=
        fun i hi => h (i + 1) (Nat.succ_lt_succ hi)
      obtain ⟨rest, rfl⟩ := ih hfollowing htail
      exact ⟨rest, congrArg (· :: (form ++ rest)) hhead⟩

end Mlang.UnicodeForms
