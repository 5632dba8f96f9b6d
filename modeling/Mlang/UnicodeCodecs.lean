import Mathlib.Data.Nat.Bitwise
import Mlang.UnicodeForms

namespace Mlang.TextTranscoding

open UnicodeForms List

/-! A text is the memory at its start: its bytes or units, the zero behind them, and whatever follows. -/

def byteAt (s : List UInt8) (i : Nat) : Nat := (s.getD i 0).toNat

def decodeTwo (b0 b1 : Nat) : Option Nat :=
  if b1 &&& 0xC0 ≠ 0x80 then none
  else
    let v := (b0 &&& 0x1F) <<< 6 ||| (b1 &&& 0x3F)
    if v < 0x80 then none else some v

def decodeThree (b0 b1 b2 : Nat) : Option Nat :=
  if b1 &&& 0xC0 ≠ 0x80 ∨ b2 &&& 0xC0 ≠ 0x80 then none
  else
    let v := (b0 &&& 0x0F) <<< 12 ||| (b1 &&& 0x3F) <<< 6 ||| (b2 &&& 0x3F)
    if v < 0x800 ∨ 0xD800 ≤ v ∧ v ≤ 0xDFFF then none else some v

def decodeFour (b0 b1 b2 b3 : Nat) : Option Nat :=
  if b1 &&& 0xC0 ≠ 0x80 ∨ b2 &&& 0xC0 ≠ 0x80 ∨ b3 &&& 0xC0 ≠ 0x80 then none
  else
    let v := (b0 &&& 0x07) <<< 18 ||| (b1 &&& 0x3F) <<< 12 ||| (b2 &&& 0x3F) <<< 6 ||| (b3 &&& 0x3F)
    if v < 0x10000 ∨ 0x10FFFF < v then none else some v

/-- The bytes read and the code point they give, or nothing where the source jumps to `invalid`. -/
def decoded (s : List UInt8) : Option (Nat × Nat) :=
  let b0 := byteAt s 0
  if b0 < 0x80 then some (1, b0)
  else if b0 &&& 0xE0 = 0xC0 then (decodeTwo b0 (byteAt s 1)).map (2, ·)
  else if b0 &&& 0xF0 = 0xE0 then (decodeThree b0 (byteAt s 1) (byteAt s 2)).map (3, ·)
  else if b0 &&& 0xF8 = 0xF0 then (decodeFour b0 (byteAt s 1) (byteAt s 2) (byteAt s 3)).map (4, ·)
  else none

def replacement : Nat := 0xFFFD

def utf8DecodeOne (s : List UInt8) : Nat × Nat := (decoded s).getD (1, replacement)

def utf16EncodeOne (cp : Nat) : List UInt16 :=
  if cp ≤ 0xFFFF then
    if 0xD800 ≤ cp ∧ cp ≤ 0xDFFF then [.ofNat replacement] else [.ofNat cp]
  else
    let cp := cp - 0x10000
    [.ofNat (0xD800 + (cp >>> 10 &&& 0x3FF)), .ofNat (0xDC00 + (cp &&& 0x3FF))]

def utf8EncodeOne (cp : Nat) : List UInt8 :=
  if cp ≤ 0x7F then [.ofNat cp]
  else if cp ≤ 0x7FF then [.ofNat (0xC0 ||| (cp >>> 6 &&& 0x1F)), .ofNat (0x80 ||| (cp &&& 0x3F))]
  else if cp ≤ 0xFFFF then
    let cp := if 0xD800 ≤ cp ∧ cp ≤ 0xDFFF then replacement else cp
    [.ofNat (0xE0 ||| (cp >>> 12 &&& 0x0F)), .ofNat (0x80 ||| (cp >>> 6 &&& 0x3F)),
      .ofNat (0x80 ||| (cp &&& 0x3F))]
  else
    let cp := if 0x10FFFF < cp then replacement else cp
    [.ofNat (0xF0 ||| (cp >>> 18 &&& 0x07)), .ofNat (0x80 ||| (cp >>> 12 &&& 0x3F)),
      .ofNat (0x80 ||| (cp >>> 6 &&& 0x3F)), .ofNat (0x80 ||| (cp &&& 0x3F))]

theorem ne_nil_of_byteAt {s : List UInt8} {i : Nat} (h : byteAt s i ≠ 0) : i < s.length := by
  by_contra hi
  apply h
  rw [byteAt, getD_eq_default _ _ (Nat.le_of_not_lt hi)]
  rfl

/-- The units that the first pass of `utf8_to_utf16` counts. -/
def countUnits (p : List UInt8) (units : Nat) : Nat :=
  if byteAt p 0 = 0 then units
  else
    let n := (utf8DecodeOne p).1
    let cp := (utf8DecodeOne p).2
    if n = 0 then units
    else countUnits (p.drop n) (units + if cp ≤ 0xFFFF then 1 else 2)
termination_by p.length
decreasing_by
  rename_i hbyte hn
  have hlength := ne_nil_of_byteAt hbyte
  rw [length_drop]
  omega

def writeUnits (p : List UInt8) (out : List UInt16) : List UInt16 :=
  if byteAt p 0 = 0 then out
  else
    let n := (utf8DecodeOne p).1
    let cp := (utf8DecodeOne p).2
    if n = 0 then out
    else writeUnits (p.drop n) (out ++ utf16EncodeOne cp)
termination_by p.length
decreasing_by
  rename_i hbyte hn
  have hlength := ne_nil_of_byteAt hbyte
  rw [length_drop]
  omega

def utf8ToUtf16 (s : List UInt8) : List UInt16 := writeUnits s []

def unitAt (s : List UInt16) (i : Nat) : Nat := (s.getD i 0).toNat

theorem ne_nil_of_unitAt {s : List UInt16} {i : Nat} (h : unitAt s i ≠ 0) : i < s.length := by
  by_contra hi
  apply h
  rw [unitAt, getD_eq_default _ _ (Nat.le_of_not_lt hi)]
  rfl

/-- The units consumed by a round of either loop of `utf16_to_utf8`, and its code point. -/
def readUnits (s : List UInt16) : Nat × Nat :=
  let cp := unitAt s 0
  if 0xD800 ≤ cp ∧ cp ≤ 0xDBFF ∧ unitAt s 1 ≠ 0 then
    let lo := unitAt s 1
    if 0xDC00 ≤ lo ∧ lo ≤ 0xDFFF then (2, 0x10000 + ((cp - 0xD800) <<< 10 ||| (lo - 0xDC00)))
    else (1, replacement)
  else if 0xDC00 ≤ cp ∧ cp ≤ 0xDFFF then (1, replacement)
  else (1, cp)

theorem readUnits_pos (s : List UInt16) : 0 < (readUnits s).1 := by
  unfold readUnits
  dsimp only
  split_ifs <;> exact Nat.succ_pos _

def countBytes (s : List UInt16) (bytes : Nat) : Nat :=
  if unitAt s 0 = 0 then bytes
  else
    let n := (readUnits s).1
    let cp := (readUnits s).2
    countBytes (s.drop n)
      (bytes + if cp ≤ 0x7F then 1 else if cp ≤ 0x7FF then 2 else if cp ≤ 0xFFFF then 3 else 4)
termination_by s.length
decreasing_by
  rename_i hunit
  have hlength := ne_nil_of_unitAt hunit
  have hread := readUnits_pos s
  rw [length_drop]
  omega

def writeBytes (s : List UInt16) (out : List UInt8) : List UInt8 :=
  if unitAt s 0 = 0 then out
  else
    let n := (readUnits s).1
    let cp := (readUnits s).2
    writeBytes (s.drop n) (out ++ utf8EncodeOne cp)
termination_by s.length
decreasing_by
  rename_i hunit
  have hlength := ne_nil_of_unitAt hunit
  have hread := readUnits_pos s
  rw [length_drop]
  omega

def utf16ToUtf8 (s : List UInt16) : List UInt8 := writeBytes s []

end Mlang.TextTranscoding

namespace Mlang.UnicodeCodecs

open UnicodeForms TextTranscoding List

/-! The decoder accepts the forms of the scalar values, and the encoders write them. -/

variable {b : Nat}

theorem continuation_iff (h : b < 256) : b &&& 0xC0 = 0x80 ↔ 0x80 ≤ b ∧ b < 0xC0 := by
  revert b
  decide +kernel

theorem leadTwo_iff (h : b < 256) : b &&& 0xE0 = 0xC0 ↔ 0xC0 ≤ b ∧ b < 0xE0 := by
  revert b
  decide +kernel

theorem leadThree_iff (h : b < 256) : b &&& 0xF0 = 0xE0 ↔ 0xE0 ≤ b ∧ b < 0xF0 := by
  revert b
  decide +kernel

theorem leadFour_iff (h : b < 256) : b &&& 0xF8 = 0xF0 ↔ 0xF0 ≤ b ∧ b < 0xF8 := by
  revert b
  decide +kernel

theorem three_bits (x : Nat) : x &&& 0x07 = x % 8 := Nat.and_two_pow_sub_one_eq_mod x 3

theorem four_bits (x : Nat) : x &&& 0x0F = x % 16 := Nat.and_two_pow_sub_one_eq_mod x 4

theorem five_bits (x : Nat) : x &&& 0x1F = x % 32 := Nat.and_two_pow_sub_one_eq_mod x 5

theorem six_bits (x : Nat) : x &&& 0x3F = x % 64 := Nat.and_two_pow_sub_one_eq_mod x 6

theorem ten_bits (x : Nat) : x &&& 0x3FF = x % 1024 := Nat.and_two_pow_sub_one_eq_mod x 10

theorem shifted_or {x y k : Nat} (h : y < 2 ^ k) : x <<< k ||| y = x * 2 ^ k + y := by
  rw [← Nat.shiftLeft_add_eq_or_of_lt h, Nat.shiftLeft_eq]

theorem shifted_or_six (x y : Nat) : x <<< 6 ||| y % 64 = x * 64 + y % 64 :=
  shifted_or (k := 6) (Nat.mod_lt y (by decide))

theorem shifted_or_twelve {y : Nat} (x : Nat) (h : y < 4096) : x <<< 12 ||| y = x * 4096 + y :=
  shifted_or (k := 12) h

theorem shifted_or_eighteen {y : Nat} (x : Nat) (h : y < 262144) : x <<< 18 ||| y = x * 262144 + y :=
  shifted_or (k := 18) h

theorem marked {mark x y k : Nat} (hmark : mark = 2 ^ k * x) (h : y < 2 ^ k) : mark ||| y = mark + y := by
  rw [hmark, Nat.two_pow_add_eq_or_of_lt h]

variable {b0 b1 b2 b3 c : Nat}

theorem decodeTwo_iff (h0 : 0xC0 ≤ b0) (h0' : b0 < 0xE0) (h1 : b1 < 256) :
    decodeTwo b0 b1 = some c ↔ 0x80 ≤ c ∧ c < 0x800 ∧ b0 = 0xC0 + c / 64 ∧ b1 = 0x80 + c % 64 := by
  have hv : (b0 &&& 0x1F) <<< 6 ||| (b1 &&& 0x3F) = b0 % 32 * 64 + b1 % 64 := by
    rw [five_bits, six_bits, shifted_or_six]
  simp only [decodeTwo, ne_eq, continuation_iff h1, hv]
  split_ifs with hb hlow <;> simp only [Option.some.injEq, false_iff]
  · omega
  · omega
  · omega

theorem decodeThree_iff (h0 : 0xE0 ≤ b0) (h0' : b0 < 0xF0) (h1 : b1 < 256) (h2 : b2 < 256) :
    decodeThree b0 b1 b2 = some c ↔
      0x800 ≤ c ∧ c < 0x10000 ∧ Scalar c ∧
        b0 = 0xE0 + c / 4096 ∧ b1 = 0x80 + c / 64 % 64 ∧ b2 = 0x80 + c % 64 := by
  have hv : (b0 &&& 0x0F) <<< 12 ||| (b1 &&& 0x3F) <<< 6 ||| (b2 &&& 0x3F) =
      b0 % 16 * 4096 + (b1 % 64 * 64 + b2 % 64) := by
    have hlow : b1 % 64 * 64 + b2 % 64 < 4096 := by omega
    rw [Nat.or_assoc, four_bits, six_bits, six_bits, shifted_or_six, shifted_or_twelve _ hlow]
  simp only [decodeThree, ne_eq, continuation_iff h1, continuation_iff h2, hv, Scalar]
  split_ifs with hb hlow <;> simp only [Option.some.injEq, false_iff]
  · omega
  · omega
  · omega

theorem decodeFour_iff (h0 : 0xF0 ≤ b0) (h0' : b0 < 0xF8) (h1 : b1 < 256) (h2 : b2 < 256)
    (h3 : b3 < 256) :
    decodeFour b0 b1 b2 b3 = some c ↔
      0x10000 ≤ c ∧ c < 0x110000 ∧
        b0 = 0xF0 + c / 262144 ∧ b1 = 0x80 + c / 4096 % 64 ∧ b2 = 0x80 + c / 64 % 64 ∧
          b3 = 0x80 + c % 64 := by
  have hv : (b0 &&& 0x07) <<< 18 ||| (b1 &&& 0x3F) <<< 12 ||| (b2 &&& 0x3F) <<< 6 ||| (b3 &&& 0x3F) =
      b0 % 8 * 262144 + (b1 % 64 * 4096 + (b2 % 64 * 64 + b3 % 64)) := by
    have hlow : b2 % 64 * 64 + b3 % 64 < 4096 := by omega
    have hmiddle : b1 % 64 * 4096 + (b2 % 64 * 64 + b3 % 64) < 262144 := by omega
    rw [Nat.or_assoc, Nat.or_assoc, three_bits, six_bits, six_bits, six_bits,
      shifted_or_six, shifted_or_twelve _ hlow, shifted_or_eighteen _ hmiddle]
  simp only [decodeFour, ne_eq, continuation_iff h1, continuation_iff h2, continuation_iff h3, hv]
  split_ifs with hb hlow <;> simp only [Option.some.injEq, false_iff]
  · omega
  · omega
  · omega

theorem byteAt_lt (s : List UInt8) (i : Nat) : byteAt s i < 256 := (s.getD i 0).toNat_lt

variable {s : List UInt8}

theorem byteAt_iff {i x : Nat} (h : x < 256) : s.getD i 0 = .ofNat x ↔ byteAt s i = x := by
  constructor
  · intro hbyte
    rw [byteAt, hbyte, toNat_byte h]
  · exact byte_of_toNat

theorem starts_iff (hc : Scalar c) (hzero : c ≠ 0) :
    (∃ rest, s = utf8Of c ++ rest) ↔ ∀ i < (utf8Of c).length, s.getD i 0 = (utf8Of c).getD i 0 := by
  constructor
  · rintro ⟨rest, rfl⟩ i hi
    exact getD_append (utf8Of c) rest 0 i hi
  · exact exists_of_getD (zero_notMem_utf8Of hc hzero)

theorem starts_one (hzero : c ≠ 0) (hc : c < 0x80) : (∃ rest, s = utf8Of c ++ rest) ↔ byteAt s 0 = c := by
  have hform : utf8Of c = [.ofNat c] := by rw [utf8Of, if_pos hc]
  rw [starts_iff (.inl (by omega)) hzero, hform, ← byteAt_iff (by omega)]
  simp

theorem starts_two (hlow : 0x80 ≤ c) (hc : c < 0x800) :
    (∃ rest, s = utf8Of c ++ rest) ↔ byteAt s 0 = 0xC0 + c / 64 ∧ byteAt s 1 = 0x80 + c % 64 := by
  have hform : utf8Of c = [.ofNat (0xC0 + c / 64), .ofNat (0x80 + c % 64)] := by
    rw [utf8Of, if_neg (by omega), if_pos hc]
  rw [starts_iff (.inl (by omega)) (by omega), hform, ← byteAt_iff (by omega), ← byteAt_iff (by omega)]
  simp only [length_cons, length_nil, Nat.forall_lt_succ_left, Nat.zero_add, Nat.not_lt_zero,
    false_implies, implies_true, and_true, getD_cons_zero, getD_cons_succ]

theorem starts_three (hlow : 0x800 ≤ c) (hc : c < 0x10000) (hscalar : Scalar c) :
    (∃ rest, s = utf8Of c ++ rest) ↔ byteAt s 0 = 0xE0 + c / 4096 ∧ byteAt s 1 = 0x80 + c / 64 % 64 ∧
    byteAt s 2 = 0x80 + c % 64 := by
  have hform : utf8Of c =
      [.ofNat (0xE0 + c / 4096), .ofNat (0x80 + c / 64 % 64), .ofNat (0x80 + c % 64)] := by
    rw [utf8Of, if_neg (by omega), if_neg (by omega), if_pos hc]
  rw [starts_iff hscalar (by omega), hform, ← byteAt_iff (by omega), ← byteAt_iff (by omega),
    ← byteAt_iff (by omega)]
  simp only [length_cons, length_nil, Nat.forall_lt_succ_left, Nat.zero_add, Nat.not_lt_zero,
    false_implies, implies_true, and_true, getD_cons_zero, getD_cons_succ]

theorem starts_four (hlow : 0x10000 ≤ c) (hc : c < 0x110000) : (∃ rest, s = utf8Of c ++ rest) ↔
    byteAt s 0 = 0xF0 + c / 262144 ∧ byteAt s 1 = 0x80 + c / 4096 % 64 ∧ byteAt s 2 = 0x80 + c / 64 % 64 ∧
    byteAt s 3 = 0x80 + c % 64 := by
  have hform : utf8Of c = [.ofNat (0xF0 + c / 262144), .ofNat (0x80 + c / 4096 % 64),
      .ofNat (0x80 + c / 64 % 64), .ofNat (0x80 + c % 64)] := by
    rw [utf8Of, if_neg (by omega), if_neg (by omega), if_neg (by omega)]
  rw [starts_iff (.inr ⟨by omega, hc⟩) (by omega), hform, ← byteAt_iff (by omega),
    ← byteAt_iff (by omega), ← byteAt_iff (by omega), ← byteAt_iff (by omega)]
  simp only [length_cons, length_nil, Nat.forall_lt_succ_left, Nat.zero_add, Nat.not_lt_zero,
    false_implies, implies_true, and_true, getD_cons_zero, getD_cons_succ]

theorem length_utf8Of (c : Nat) :
    (utf8Of c).length = if c ≤ 0x7F then 1 else if c ≤ 0x7FF then 2 else if c ≤ 0xFFFF then 3 else 4 := by
  unfold utf8Of
  split_ifs <;> first | rfl | omega

theorem decoded_utf8Of {rest : List UInt8} (hc : Scalar c) (hzero : c ≠ 0) :
    decoded (utf8Of c ++ rest) = some ((utf8Of c).length, c) := by
  have hstarts : ∃ rest', utf8Of c ++ rest = utf8Of c ++ rest' := ⟨rest, rfl⟩
  generalize utf8Of c ++ rest = s at hstarts
  have hlimit : c < 0x110000 := by
    unfold Scalar at hc
    omega
  have h0 := byteAt_lt s 0
  have h1 := byteAt_lt s 1
  have h2 := byteAt_lt s 2
  have h3 := byteAt_lt s 3
  rw [length_utf8Of]
  simp only [decoded, leadTwo_iff h0, leadThree_iff h0, leadFour_iff h0]
  by_cases hone : c < 0x80
  · have hbyte := (starts_one hzero hone).1 hstarts
    rw [if_pos (by omega), if_pos (by omega), hbyte]
  by_cases htwo : c < 0x800
  · obtain ⟨hlead, hnext⟩ := (starts_two (by omega) htwo).1 hstarts
    have hvalue := (decodeTwo_iff (by omega) (by omega) h1).2 ⟨by omega, htwo, hlead, hnext⟩
    rw [if_neg (by omega), if_pos (by omega), hvalue, if_neg (by omega), if_pos (by omega)]
    rfl
  by_cases hthree : c < 0x10000
  · obtain ⟨hlead, hnext, hlast⟩ := (starts_three (by omega) hthree hc).1 hstarts
    have hvalue := (decodeThree_iff (by omega) (by omega) h1 h2).2
      ⟨by omega, hthree, hc, hlead, hnext, hlast⟩
    rw [if_neg (by omega), if_neg (by omega), if_pos (by omega), hvalue, if_neg (by omega),
      if_neg (by omega), if_pos (by omega)]
    rfl
  · obtain ⟨hlead, hnext, hthird, hlast⟩ := (starts_four (by omega) hlimit).1 hstarts
    have hvalue := (decodeFour_iff (by omega) (by omega) h1 h2 h3).2
      ⟨by omega, hlimit, hlead, hnext, hthird, hlast⟩
    rw [if_neg (by omega), if_neg (by omega), if_neg (by omega), if_pos (by omega), hvalue,
      if_neg (by omega), if_neg (by omega), if_neg (by omega)]
    rfl

theorem form_of_decoded {n : Nat} (hstart : byteAt s 0 ≠ 0) (h : decoded s = some (n, c)) :
    Scalar c ∧ c ≠ 0 ∧ n = (utf8Of c).length ∧ ∃ rest, s = utf8Of c ++ rest := by
  have h0 := byteAt_lt s 0
  have h1 := byteAt_lt s 1
  have h2 := byteAt_lt s 2
  have h3 := byteAt_lt s 3
  rw [length_utf8Of]
  simp only [decoded, leadTwo_iff h0, leadThree_iff h0, leadFour_iff h0] at h
  split_ifs at h with hone htwo hthree hfour
  · cases h
    refine ⟨.inl (by omega), hstart, (if_pos (by omega)).symm, (starts_one hstart hone).2 rfl⟩
  · obtain ⟨v, hv, heq⟩ := Option.map_eq_some_iff.1 h
    cases heq
    obtain ⟨hlow, hhigh, hbytes⟩ := (decodeTwo_iff htwo.1 htwo.2 h1).1 hv
    refine ⟨.inl (by omega), by omega, ?_, (starts_two hlow hhigh).2 hbytes⟩
    rw [if_neg (by omega), if_pos (by omega)]
  · obtain ⟨v, hv, heq⟩ := Option.map_eq_some_iff.1 h
    cases heq
    obtain ⟨hlow, hhigh, hscalar, hbytes⟩ := (decodeThree_iff hthree.1 hthree.2 h1 h2).1 hv
    refine ⟨hscalar, by omega, ?_, (starts_three hlow hhigh hscalar).2 hbytes⟩
    rw [if_neg (by omega), if_neg (by omega), if_pos (by omega)]
  · obtain ⟨v, hv, heq⟩ := Option.map_eq_some_iff.1 h
    cases heq
    obtain ⟨hlow, hhigh, hbytes⟩ := (decodeFour_iff hfour.1 hfour.2 h1 h2 h3).1 hv
    refine ⟨.inr ⟨by omega, hhigh⟩, by omega, ?_, (starts_four hlow hhigh).2 hbytes⟩
    rw [if_neg (by omega), if_neg (by omega), if_neg (by omega)]

theorem shifted_mod (x k m : Nat) : (x >>> k) % m = x / 2 ^ k % m := by rw [Nat.shiftRight_eq_div_pow]

theorem utf16EncodeOne_scalar (hc : Scalar c) : utf16EncodeOne c = utf16Of c := by
  unfold Scalar at hc
  unfold utf16EncodeOne utf16Of
  by_cases hsmall : c < 0x10000
  · rw [if_pos (Nat.le_of_lt_succ hsmall), if_neg (by omega), if_pos hsmall]
  · have hhigh : (c - 0x10000) / 2 ^ 10 % 1024 = (c - 0x10000) / 1024 := by omega
    rw [if_neg (by omega), if_neg hsmall]
    simp only [ten_bits, shifted_mod, hhigh]

theorem utf8EncodeOne_scalar (hc : Scalar c) : utf8EncodeOne c = utf8Of c := by
  have htail (x : Nat) : 0x80 ||| x % 64 = 0x80 + x % 64 :=
    marked (x := 2) (k := 6) rfl (Nat.mod_lt x (by decide))
  have htwo (x : Nat) : 0xC0 ||| x % 32 = 0xC0 + x % 32 :=
    marked (x := 6) (k := 5) rfl (Nat.mod_lt x (by decide))
  have hthree (x : Nat) : 0xE0 ||| x % 16 = 0xE0 + x % 16 :=
    marked (x := 14) (k := 4) rfl (Nat.mod_lt x (by decide))
  have hfour (x : Nat) : 0xF0 ||| x % 8 = 0xF0 + x % 8 :=
    marked (x := 30) (k := 3) rfl (Nat.mod_lt x (by decide))
  unfold Scalar at hc
  unfold utf8EncodeOne utf8Of
  simp only [three_bits, four_bits, five_bits, six_bits, shifted_mod, htail, htwo, hthree, hfour]
  by_cases h1 : c < 0x80
  · rw [if_pos (Nat.le_of_lt_succ h1), if_pos h1]
  rw [if_neg (mt Nat.lt_succ_of_le h1), if_neg h1]
  by_cases h2 : c < 0x800
  · rw [if_pos (Nat.le_of_lt_succ h2), if_pos h2]
    have hlead : c / 2 ^ 6 % 32 = c / 64 := by omega
    rw [hlead]
  rw [if_neg (mt Nat.lt_succ_of_le h2), if_neg h2]
  by_cases h3 : c < 0x10000
  · rw [if_pos (Nat.le_of_lt_succ h3), if_pos h3, if_neg (by omega)]
    have hlead : c / 2 ^ 12 % 16 = c / 4096 := by omega
    rw [hlead]
    rfl
  · rw [if_neg (mt Nat.lt_succ_of_le h3), if_neg h3, if_neg (by omega)]
    have hlead : c / 2 ^ 18 % 8 = c / 262144 := by omega
    rw [hlead]
    rfl

end Mlang.UnicodeCodecs
