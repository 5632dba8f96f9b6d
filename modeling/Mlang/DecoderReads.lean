import Mlang.UnicodeCodecs

namespace Mlang.DecoderReads

open TextTranscoding UnicodeCodecs List

/-! A computation over the memory behind a pointer gives its value and the indices that it loads. -/

structure Reading (α : Type) where
  value : α
  reads : List Nat

variable (memory : List UInt8)

/-- `utf8_decode_one`, with the bytes it loads. -/
def utf8DecodeOne (p : Nat) : Reading (Nat × Nat) :=
  let invalid := (1, replacement)
  let b0 := byteAt memory p
  if b0 < 0x80 then ⟨(1, b0), [p]⟩
  else if b0 &&& 0xE0 = 0xC0 then
    let b1 := byteAt memory (p + 1)
    ⟨((decodeTwo b0 b1).map (2, ·)).getD invalid, [p, p + 1]⟩
  else if b0 &&& 0xF0 = 0xE0 then
    let b1 := byteAt memory (p + 1)
    let b2 := byteAt memory (p + 2)
    ⟨((decodeThree b0 b1 b2).map (3, ·)).getD invalid, [p, p + 1, p + 2]⟩
  else if b0 &&& 0xF8 = 0xF0 then
    let b1 := byteAt memory (p + 1)
    let b2 := byteAt memory (p + 2)
    let b3 := byteAt memory (p + 3)
    ⟨((decodeFour b0 b1 b2 b3).map (4, ·)).getD invalid, [p, p + 1, p + 2, p + 3]⟩
  else ⟨invalid, [p]⟩

theorem getD_drop (p i : Nat) : byteAt (memory.drop p) i = byteAt memory (p + i) := by
  simp only [byteAt, getD_eq_getElem?_getD, getElem?_drop]

theorem value_utf8DecodeOne (p : Nat) :
    (utf8DecodeOne memory p).value = TextTranscoding.utf8DecodeOne (memory.drop p) := by
  simp only [utf8DecodeOne, TextTranscoding.utf8DecodeOne, decoded, getD_drop, Nat.add_zero]
  split_ifs <;> rfl

variable {α : Type} (emit : α → Nat → α)

/-- A pass of `utf8_to_utf16` from `p` on: `emit` says what is done with each code point. -/
def decodingPass (p : Nat) (result : α) : Reading α :=
  if byteAt memory p = 0 then ⟨result, [p]⟩
  else
    let step := utf8DecodeOne memory p
    let n := step.value.1
    let cp := step.value.2
    if n = 0 then ⟨result, p :: step.reads⟩
    else
      let behind := decodingPass (p + n) (emit result cp)
      ⟨behind.value, p :: step.reads ++ behind.reads⟩
termination_by memory.length - p
decreasing_by
  rename_i hbyte hn
  have hlength := ne_nil_of_byteAt hbyte
  have hadvance : 0 < (utf8DecodeOne memory p).value.1 := Nat.pos_of_ne_zero hn
  omega

def countingPass : Nat → Nat → Reading Nat :=
  decodingPass memory fun units cp => units + if cp ≤ 0xFFFF then 1 else 2

def writingPass : Nat → List UInt16 → Reading (List UInt16) :=
  decodingPass memory fun out cp => out ++ utf16EncodeOne cp

def utf8ToUtf16 (allocated : Bool) : Reading (Option (List UInt16)) :=
  let counted := countingPass memory 0 0
  if allocated then
    let written := writingPass memory 0 []
    ⟨some written.value, counted.reads ++ written.reads⟩
  else ⟨none, counted.reads⟩

theorem value_countingPass (p units : Nat) :
    (countingPass memory p units).value = countUnits (memory.drop p) units := by
  unfold countingPass
  fun_induction decodingPass memory _ p units with
  | case1 p units hzero =>
    rw [countUnits, getD_drop, Nat.add_zero, if_pos hzero]
  | case2 p units hbyte step n hn =>
    rw [countUnits, getD_drop, Nat.add_zero, if_neg hbyte, ← value_utf8DecodeOne]
    exact (if_pos hn).symm
  | case3 p units hbyte step n cp hn behind ih =>
    rw [countUnits, getD_drop, Nat.add_zero, if_neg hbyte, ← value_utf8DecodeOne]
    dsimp only
    rw [drop_drop]
    exact ih.trans (if_neg hn).symm

theorem value_writingPass (p : Nat) (out : List UInt16) :
    (writingPass memory p out).value = writeUnits (memory.drop p) out := by
  unfold writingPass
  fun_induction decodingPass memory _ p out with
  | case1 p out hzero =>
    rw [writeUnits, getD_drop, Nat.add_zero, if_pos hzero]
  | case2 p out hbyte step n hn =>
    rw [writeUnits, getD_drop, Nat.add_zero, if_neg hbyte, ← value_utf8DecodeOne]
    exact (if_pos hn).symm
  | case3 p out hbyte step n cp hn behind ih =>
    rw [writeUnits, getD_drop, Nat.add_zero, if_neg hbyte, ← value_utf8DecodeOne]
    dsimp only
    rw [drop_drop]
    exact ih.trans (if_neg hn).symm

theorem value_utf8ToUtf16 : (utf8ToUtf16 memory true).value = some (TextTranscoding.utf8ToUtf16 memory) :=
  congrArg some (value_writingPass memory 0 [])

section Reads

variable {b0 b1 b2 b3 v : Nat}

theorem continuation_of_decodeTwo (h : decodeTwo b0 b1 = some v) : b1 &&& 0xC0 = 0x80 := by
  by_contra hb
  rw [decodeTwo, if_pos hb] at h
  cases h

theorem continuation_of_decodeThree (h : decodeThree b0 b1 b2 = some v) :
    b1 &&& 0xC0 = 0x80 ∧ b2 &&& 0xC0 = 0x80 := by
  by_contra hb
  rw [decodeThree, if_pos (not_and_or.1 hb)] at h
  cases h

theorem continuation_of_decodeFour (h : decodeFour b0 b1 b2 b3 = some v) :
    b1 &&& 0xC0 = 0x80 ∧ b2 &&& 0xC0 = 0x80 ∧ b3 &&& 0xC0 = 0x80 := by
  by_contra hb
  rw [decodeFour, if_pos ((not_and_or.1 hb).imp_right not_and_or.1)] at h
  cases h

def lookahead (b0 : Nat) : Nat :=
  if b0 < 0xC0 then 0
  else if b0 < 0xE0 then 1
  else if b0 < 0xF0 then 2
  else if b0 < 0xF8 then 3
  else 0

variable {memory : List UInt8} {p : Nat}

theorem reads_utf8DecodeOne :
    (utf8DecodeOne memory p).reads = List.range' p (lookahead (byteAt memory p) + 1) := by
  have h0 := byteAt_lt memory p
  simp only [utf8DecodeOne, leadTwo_iff h0, leadThree_iff h0, leadFour_iff h0, lookahead]
  split_ifs <;> first | rfl | omega

theorem decoded_advance {n cp : Nat} (h : (utf8DecodeOne memory p).value = (n, cp)) :
    0 < n ∧ ∀ i, p < i → i < p + n → 0x80 ≤ byteAt memory i ∧ byteAt memory i < 0xC0 := by
  have hinvalid (hone : (1, replacement) = (n, cp)) : 0 < n ∧
      ∀ i, p < i → i < p + n → 0x80 ≤ byteAt memory i ∧ byteAt memory i < 0xC0 := by
    cases hone
    exact ⟨Nat.one_pos, fun i hlow hhigh => by omega⟩
  have h1 := byteAt_lt memory (p + 1)
  have h2 := byteAt_lt memory (p + 2)
  have h3 := byteAt_lt memory (p + 3)
  simp only [utf8DecodeOne] at h
  split_ifs at h with hone htwo hthree hfour
  · cases h
    exact ⟨Nat.one_pos, fun i hlow hhigh => by omega⟩
  · cases hv : decodeTwo (byteAt memory p) (byteAt memory (p + 1)) with
    | none =>
      rw [hv] at h
      exact hinvalid h
    | some v =>
      rw [hv] at h
      change (2, v) = (n, cp) at h
      cases h
      have hbytes := (continuation_iff h1).1 (continuation_of_decodeTwo hv)
      refine ⟨Nat.two_pos, fun i hlow hhigh => ?_⟩
      obtain rfl : i = p + 1 := by omega
      exact hbytes
  · cases hv : decodeThree (byteAt memory p) (byteAt memory (p + 1)) (byteAt memory (p + 2)) with
    | none =>
      rw [hv] at h
      exact hinvalid h
    | some v =>
      rw [hv] at h
      change (3, v) = (n, cp) at h
      cases h
      obtain ⟨hsecond, hthird⟩ := continuation_of_decodeThree hv
      refine ⟨Nat.succ_pos 2, fun i hlow hhigh => ?_⟩
      obtain rfl | rfl : i = p + 1 ∨ i = p + 2 := by omega
      · exact (continuation_iff h1).1 hsecond
      · exact (continuation_iff h2).1 hthird
  · cases hv : decodeFour (byteAt memory p) (byteAt memory (p + 1)) (byteAt memory (p + 2))
        (byteAt memory (p + 3)) with
    | none =>
      rw [hv] at h
      exact hinvalid h
    | some v =>
      rw [hv] at h
      change (4, v) = (n, cp) at h
      cases h
      obtain ⟨hsecond, hthird, hlast⟩ := continuation_of_decodeFour hv
      refine ⟨Nat.succ_pos 3, fun i hlow hhigh => ?_⟩
      obtain rfl | rfl | rfl : i = p + 1 ∨ i = p + 2 ∨ i = p + 3 := by omega
      · exact (continuation_iff h1).1 hsecond
      · exact (continuation_iff h2).1 hthird
      · exact (continuation_iff h3).1 hlast
  · exact hinvalid h

end Reads

variable {s rest : List UInt8} {p : Nat}

theorem byteAt_terminator : byteAt (s ++ 0 :: rest) s.length = 0 := by
  rw [byteAt, getD_append_right _ _ _ _ (Nat.le_refl _), Nat.sub_self]
  rfl

theorem byteAt_text (h : p < s.length) : byteAt (s ++ 0 :: rest) p = byteAt s p :=
  congrArg UInt8.toNat (getD_append s _ 0 p h)

theorem byteAt_ne_zero (hs : 0 ∉ s) (h : p < s.length) : byteAt s p ≠ 0 := by
  intro hzero
  apply hs
  rw [byteAt, getD_eq_getElem s 0 h] at hzero
  have hbyte : s[p] = 0 := UInt8.toNat_inj.1 hzero
  rw [← hbyte]
  exact getElem_mem h

/-- The decoder does not step over the terminator. -/
theorem advance_le {n cp : Nat} (h : p < s.length)
    (hstep : (utf8DecodeOne (s ++ 0 :: rest) p).value = (n, cp)) : p + n ≤ s.length := by
  by_contra hover
  have hbyte := (decoded_advance hstep).2 s.length h (Nat.lt_of_not_le hover)
  rw [byteAt_terminator] at hbyte
  exact absurd hbyte.1 (by decide)

/-- Every index from `first` on has the bytes that the decoder would load there inside the text. -/
def LeadsInside (s : List UInt8) (first : Nat) : Prop :=
  ∀ i, first ≤ i → i < s.length → i + lookahead (byteAt s i) ≤ s.length

theorem leadsInside_step {n cp : Nat} (h : p < s.length)
    (hstep : (utf8DecodeOne (s ++ 0 :: rest) p).value = (n, cp)) :
    LeadsInside s p ↔ p + lookahead (byteAt s p) ≤ s.length ∧ LeadsInside s (p + n) := by
  obtain ⟨hpos, hbytes⟩ := decoded_advance hstep
  constructor
  · intro hinside
    exact ⟨hinside p (Nat.le_refl p) h, fun i hi => hinside i (by omega)⟩
  · rintro ⟨hhere, hbehind⟩ i hi hlength
    by_cases hskipped : i < p + n
    · rcases Nat.eq_or_lt_of_le hi with rfl | hlow
      · exact hhere
      · have hbyte := hbytes i hlow hskipped
        rw [byteAt_text hlength] at hbyte
        rw [lookahead, if_pos hbyte.2]
        exact Nat.le_of_lt hlength
    · exact hbehind i (by omega) hlength

theorem decodingPass_inside_iff (emit : α → Nat → α) (result : α) (hs : 0 ∉ s) (hp : p ≤ s.length) :
    (∀ i ∈ (decodingPass (s ++ 0 :: rest) emit p result).reads, i ≤ s.length) ↔ LeadsInside s p := by
  fun_induction decodingPass (s ++ 0 :: rest) emit p result with
  | case1 p result hzero =>
    obtain rfl : p = s.length := by
      by_contra hne
      have hlength : p < s.length := Nat.lt_of_le_of_ne hp hne
      exact byteAt_ne_zero hs hlength ((byteAt_text hlength).symm.trans hzero)
    refine iff_of_true (fun i hi => Nat.le_of_eq (List.mem_singleton.1 hi)) ?_
    exact fun i hlow hhigh => absurd hhigh (Nat.not_lt_of_le hlow)
  | case2 p result hbyte step n hn =>
    exact absurd hn (Nat.pos_iff_ne_zero.1 (decoded_advance rfl).1)
  | case3 p result hbyte step n cp hn behind ih =>
    have hlength : p < s.length := by
      apply Nat.lt_of_le_of_ne hp
      rintro rfl
      exact hbyte byteAt_terminator
    rw [leadsInside_step hlength rfl, ← ih (advance_le hlength rfl)]
    rw [← byteAt_text hlength]
    have hreads : step.reads = List.range' p (lookahead (byteAt (s ++ 0 :: rest) p) + 1) :=
      reads_utf8DecodeOne
    simp only [cons_append, mem_cons, mem_append, or_imp, forall_and, forall_eq, hreads, mem_range'_1]
    constructor
    · rintro ⟨-, hlead, hbehind⟩
      exact ⟨hlead _ ⟨Nat.le_add_right p _, Nat.lt_succ_self _⟩, hbehind⟩
    · rintro ⟨hlead, hbehind⟩
      exact ⟨hp, fun i hi => by omega, hbehind⟩

/-- No lead of three bytes stands at the end of the text, and none of four before its last two bytes. -/
def LeadsWithin (s : List UInt8) : Prop :=
  ∀ i < s.length,
    (0xE0 ≤ byteAt s i ∧ byteAt s i < 0xF0 → i + 2 ≤ s.length) ∧
      (0xF0 ≤ byteAt s i ∧ byteAt s i < 0xF8 → i + 3 ≤ s.length)

theorem leadsInside_zero_iff : LeadsInside s 0 ↔ LeadsWithin s := by
  constructor
  · intro hinside i hi
    have hlead := hinside i (Nat.zero_le i) hi
    unfold lookahead at hlead
    split_ifs at hlead <;> omega
  · intro hwithin i _ hi
    have hlead := hwithin i hi
    unfold lookahead
    split_ifs <;> omega

theorem countingPass_inside_iff (units : Nat) (hs : 0 ∉ s) :
    (∀ i ∈ (countingPass (s ++ 0 :: rest) 0 units).reads, i ≤ s.length) ↔ LeadsWithin s :=
  (decodingPass_inside_iff _ units hs (Nat.zero_le _)).trans leadsInside_zero_iff

theorem writingPass_inside_iff (out : List UInt16) (hs : 0 ∉ s) :
    (∀ i ∈ (writingPass (s ++ 0 :: rest) 0 out).reads, i ≤ s.length) ↔ LeadsWithin s :=
  (decodingPass_inside_iff _ out hs (Nat.zero_le _)).trans leadsInside_zero_iff

/-- The passes of `utf8_to_utf16` stay inside a text exactly where no lead of three or four bytes is cut
off by more than its last byte. -/
theorem passes_inside_iff (s rest : List UInt8) (allocated : Bool) (hs : 0 ∉ s) :
    (∀ i ∈ (utf8ToUtf16 (s ++ 0 :: rest) allocated).reads, i ≤ s.length) ↔ LeadsWithin s := by
  cases allocated with
  | false => exact countingPass_inside_iff 0 hs
  | true =>
    refine Iff.trans forall_mem_append ?_
    exact (and_congr (countingPass_inside_iff 0 hs) (writingPass_inside_iff [] hs)).trans and_self_iff

theorem euro_inside :
    0 ∉ ([0xE2, 0x82, 0xAC] : List UInt8) ∧
      ∀ i ∈ (utf8ToUtf16 ([0xE2, 0x82, 0xAC] ++ 0 :: []) true).reads, i ≤ 3 := by
  have hs : 0 ∉ ([0xE2, 0x82, 0xAC] : List UInt8) := by decide
  have hwithin : LeadsWithin [0xE2, 0x82, 0xAC] := by
    unfold LeadsWithin
    decide
  exact ⟨hs, (passes_inside_iff [0xE2, 0x82, 0xAC] [] true hs).2 hwithin⟩

/-- A text of the lead `E0` alone is read one byte behind its terminator. -/
theorem not_passes_inside :
    ¬ ∀ (s rest : List UInt8) (allocated : Bool), 0 ∉ s →
      ∀ i ∈ (utf8ToUtf16 (s ++ 0 :: rest) allocated).reads, i ≤ s.length := by
  intro h
  have hs : 0 ∉ ([0xE0] : List UInt8) := by decide
  have hwithin := (countingPass_inside_iff 0 hs).1 (h [0xE0] [] false hs)
  exact absurd ((hwithin 0 (by decide)).1 (by decide)) (by decide)

end Mlang.DecoderReads
