import Mlang.UnicodeCodecs

namespace Mlang.TranscodingReadings

open UnicodeForms TextTranscoding UnicodeCodecs List

/-! What either converter reads in a text, as a derivation of the text's code points. -/

theorem scalar_replacement : Scalar replacement := .inr ⟨by decide, by decide⟩

theorem replacement_ne_zero : replacement ≠ 0 := by decide

def repaired : List UInt8 → List UInt8
  | [] => []
  | b :: s =>
    match decoded (b :: s) with
    | none => utf8Of replacement ++ repaired s
    | some (n, _) => (b :: s).take n ++ repaired (s.drop (n - 1))
termination_by s => s.length
decreasing_by
  · exact Nat.lt_succ_self _
  · exact Nat.lt_succ_of_le (length_drop ▸ Nat.sub_le _ _)

def High (u : UInt16) : Prop := 0xD800 ≤ u.toNat ∧ u.toNat ≤ 0xDBFF

def Low (u : UInt16) : Prop := 0xDC00 ≤ u.toNat ∧ u.toNat ≤ 0xDFFF

instance (u : UInt16) : Decidable (High u) := inferInstanceAs (Decidable (_ ∧ _))

instance (u : UInt16) : Decidable (Low u) := inferInstanceAs (Decidable (_ ∧ _))

/-- A surrogate pairs with its neighbour. -/
def Unpaired (before u behind : UInt16) : Prop := High u ∧ ¬ Low behind ∨ Low u ∧ ¬ High before

instance (before u behind : UInt16) : Decidable (Unpaired before u behind) :=
  inferInstanceAs (Decidable (_ ∨ _))

def replacedAfter (before : UInt16) : List UInt16 → List UInt16
  | [] => []
  | u :: s => (if Unpaired before u (s.headD 0) then .ofNat replacement else u) :: replacedAfter u s

def replaced (s : List UInt16) : List UInt16 := replacedAfter 0 s

/-- The code points that the decoder gives for a text, the replacement at each byte it fails at. -/
inductive Decodes : List UInt8 → List Nat → Prop
  | nil : Decodes [] []
  | invalid {b : UInt8} {s : List UInt8} {cs : List Nat} :
      (0 : UInt8) ∉ b :: s → decoded (b :: s) = none → Decodes s cs →
        Decodes (b :: s) (replacement :: cs)
  | form {c : Nat} {s : List UInt8} {cs : List Nat} :
      Scalar c → c ≠ 0 → Decodes s cs → Decodes (utf8Of c ++ s) (c :: cs)

variable {s : List UInt8} {cs : List Nat}
variable {b : UInt8} {c : Nat}

theorem byteAt_head (hs : (0 : UInt8) ∉ b :: s) (rest : List UInt8) : byteAt (b :: rest) 0 ≠ 0 := by
  intro heq
  have hzero : b = 0 := UInt8.toNat_inj.1 heq
  exact hs (hzero ▸ mem_cons_self)

theorem exists_utf8Of (c : Nat) : ∃ b form, utf8Of c = b :: form := by
  have hlength := length_utf8Of c
  cases hbytes : utf8Of c with
  | nil =>
    rw [hbytes, length_nil] at hlength
    split_ifs at hlength
  | cons b form => exact ⟨b, form, rfl⟩

theorem byteAt_utf8Of (hc : Scalar c) (hzero : c ≠ 0) (s : List UInt8) : byteAt (utf8Of c ++ s) 0 ≠ 0 := by
  have hform := zero_notMem_utf8Of hc hzero
  obtain ⟨b, form, hbytes⟩ := exists_utf8Of c
  rw [hbytes] at hform ⊢
  exact byteAt_head hform (form ++ s)

/-- The decoder looks at nothing behind the terminator: a form ends before it. -/
theorem decoded_memory (hs : (0 : UInt8) ∉ b :: s) (behind : List UInt8) :
    decoded (b :: s ++ 0 :: behind) = decoded (b :: s) := by
  apply Option.ext
  rintro ⟨n, c⟩
  constructor
  · intro h
    obtain ⟨hc, hzero, rfl, rest, hrest⟩ := form_of_decoded (byteAt_head hs _) h
    have hmemory : (b :: s) ++ 0 :: behind = utf8Of c ++ rest := hrest
    obtain ⟨tail, htail, -⟩ := exists_of_append (zero_notMem_utf8Of hc hzero) hmemory
    rw [htail]
    exact decoded_utf8Of hc hzero
  · intro h
    obtain ⟨hc, hzero, rfl, rest, hrest⟩ := form_of_decoded (byteAt_head hs _) h
    rw [hrest, append_assoc]
    exact decoded_utf8Of hc hzero

theorem exists_decodes (hs : (0 : UInt8) ∉ s) : ∃ cs, Decodes s cs := by
  induction hn : s.length using Nat.strong_induction_on generalizing s with
  | _ n ih =>
    cases s with
    | nil => exact ⟨[], .nil⟩
    | cons b s =>
      have hlength : s.length < n := by
        rw [← hn]
        exact Nat.lt_succ_self _
      cases hdecoded : decoded (b :: s) with
      | none =>
        obtain ⟨cs, hcs⟩ := ih _ hlength (fun h => hs (mem_cons_of_mem b h)) rfl
        exact ⟨replacement :: cs, .invalid hs hdecoded hcs⟩
      | some r =>
        obtain ⟨hc, hzero, hr, rest, hrest⟩ :=
          form_of_decoded (n := r.1) (c := r.2) (byteAt_head hs s) hdecoded
        have hrestLength : rest.length < n := by
          have hforms := congrArg List.length hrest
          rw [length_append, hn, length_utf8Of] at hforms
          split_ifs at hforms <;> omega
        have hrestZero : (0 : UInt8) ∉ rest := by
          intro h
          rw [hrest] at hs
          exact hs (mem_append_right _ h)
        obtain ⟨cs, hcs⟩ := ih _ hrestLength hrestZero rfl
        rw [hrest]
        exact ⟨r.2 :: cs, .form hc hzero hcs⟩

theorem Decodes.scalars (h : Decodes s cs) : Scalars cs := by
  induction h with
  | nil => exact scalars_nil
  | invalid _ _ _ ih => exact ih.cons scalar_replacement replacement_ne_zero
  | form hc hzero _ ih => exact ih.cons hc hzero

theorem decodes_utf8Of (h : Scalars cs) : Decodes (cs.flatMap utf8Of) cs := by
  induction cs with
  | nil => exact .nil
  | cons c cs ih =>
    exact .form (h.scalar c mem_cons_self) (h.nonzero c mem_cons_self) (ih h.tail)

theorem Decodes.repaired (h : Decodes s cs) : repaired s = cs.flatMap utf8Of := by
  induction h with
  | nil => rw [TranscodingReadings.repaired, flatMap_nil]
  | invalid _ hdecoded _ ih =>
    rw [TranscodingReadings.repaired, hdecoded, flatMap_cons, ← ih]
  | @form c s cs hc hzero _ ih =>
    have hdecoded : decoded (utf8Of c ++ s) = some ((utf8Of c).length, c) := decoded_utf8Of hc hzero
    obtain ⟨b, form, hbytes⟩ := exists_utf8Of c
    rw [flatMap_cons, ← ih, hbytes, cons_append, TranscodingReadings.repaired]
    rw [hbytes, cons_append] at hdecoded
    rw [hdecoded, cons_append]
    have htake : (b :: (form ++ s)).take (b :: form).length = b :: form := take_left
    have hdrop : (form ++ s).drop ((b :: form).length - 1) = s := drop_left
    dsimp only
    rw [htake, hdrop]
    rfl

theorem countUnits_end (behind : List UInt8) (units : Nat) : countUnits (0 :: behind) units = units := by
  rw [countUnits]
  exact if_pos rfl

theorem writeUnits_end (behind : List UInt8) (out : List UInt16) : writeUnits (0 :: behind) out = out := by
  rw [writeUnits]
  exact if_pos rfl

theorem utf8DecodeOne_invalid (hs : (0 : UInt8) ∉ b :: s) (h : decoded (b :: s) = none)
    (behind : List UInt8) : utf8DecodeOne (b :: s ++ 0 :: behind) = (1, replacement) := by
  rw [utf8DecodeOne, decoded_memory hs, h]
  rfl

theorem utf8DecodeOne_form (hc : Scalar c) (hzero : c ≠ 0) (rest : List UInt8) :
    utf8DecodeOne (utf8Of c ++ rest) = ((utf8Of c).length, c) := by
  rw [utf8DecodeOne, decoded_utf8Of hc hzero]
  rfl

theorem length_utf16Of (c : Nat) : (utf16Of c).length = if c ≤ 0xFFFF then 1 else 2 := by
  unfold utf16Of
  split_ifs <;> first | rfl | omega

theorem utf8Of_pos (c : Nat) : (utf8Of c).length ≠ 0 := by
  obtain ⟨b, form, hbytes⟩ := exists_utf8Of c
  rw [hbytes]
  exact Nat.succ_ne_zero _

theorem Decodes.countUnits (h : Decodes s cs) (behind : List UInt8) (units : Nat) :
    countUnits (s ++ 0 :: behind) units = units + (cs.flatMap utf16Of).length := by
  induction h generalizing units with
  | nil => exact countUnits_end behind units
  | @invalid b s cs hs hdecoded _ ih =>
    have hstart : byteAt (b :: s ++ 0 :: behind) 0 ≠ 0 := byteAt_head hs _
    rw [TextTranscoding.countUnits, if_neg hstart]
    dsimp only
    rw [utf8DecodeOne_invalid hs hdecoded, if_neg Nat.one_ne_zero]
    refine (ih _).trans ?_
    rw [flatMap_cons, length_append, length_utf16Of, Nat.add_assoc]
  | @form c s cs hc hzero _ ih =>
    rw [append_assoc, TextTranscoding.countUnits, if_neg (byteAt_utf8Of hc hzero _)]
    dsimp only
    rw [utf8DecodeOne_form hc hzero, if_neg (utf8Of_pos c), drop_left]
    refine (ih _).trans ?_
    rw [flatMap_cons, length_append, length_utf16Of, Nat.add_assoc]

theorem Decodes.writeUnits (h : Decodes s cs) (behind : List UInt8) (out : List UInt16) :
    writeUnits (s ++ 0 :: behind) out = out ++ cs.flatMap utf16Of := by
  induction h generalizing out with
  | nil =>
    rw [flatMap_nil, append_nil]
    exact writeUnits_end behind out
  | @invalid b s cs hs hdecoded _ ih =>
    have hstart : byteAt (b :: s ++ 0 :: behind) 0 ≠ 0 := byteAt_head hs _
    rw [TextTranscoding.writeUnits, if_neg hstart]
    dsimp only
    rw [utf8DecodeOne_invalid hs hdecoded, if_neg Nat.one_ne_zero]
    refine (ih _).trans ?_
    rw [flatMap_cons, utf16EncodeOne_scalar scalar_replacement, append_assoc]
  | @form c s cs hc hzero _ ih =>
    rw [append_assoc, TextTranscoding.writeUnits, if_neg (byteAt_utf8Of hc hzero _)]
    dsimp only
    rw [utf8DecodeOne_form hc hzero, if_neg (utf8Of_pos c), drop_left]
    refine (ih _).trans ?_
    rw [flatMap_cons, utf16EncodeOne_scalar hc, append_assoc]

section Units

/-- The code points of a sequence of units, the replacement for each surrogate without a partner. -/
inductive Reads : List UInt16 → List Nat → Prop
  | nil : Reads [] []
  | single {u : UInt16} {s : List UInt16} {cs : List Nat} :
      u ≠ 0 → ¬ High u → ¬ Low u → Reads s cs → Reads (u :: s) (u.toNat :: cs)
  | highAlone {u : UInt16} {s : List UInt16} {cs : List Nat} :
      High u → ¬ Low (s.headD 0) → Reads s cs → Reads (u :: s) (replacement :: cs)
  | lowAlone {u : UInt16} {s : List UInt16} {cs : List Nat} :
      Low u → Reads s cs → Reads (u :: s) (replacement :: cs)
  | pair {c : Nat} {s : List UInt16} {cs : List Nat} :
      0x10000 ≤ c → c < 0x110000 → Reads s cs → Reads (utf16Of c ++ s) (c :: cs)

variable {s : List UInt16} {cs : List Nat} {u v : UInt16}
variable {c : Nat} {rest : List UInt16}

theorem utf16Of_pair (hc : 0x10000 ≤ c) :
    utf16Of c = [.ofNat (0xD800 + (c - 0x10000) / 1024), .ofNat (0xDC00 + (c - 0x10000) % 1024)] :=
  if_neg (Nat.not_lt.2 hc)

theorem exists_utf16Of (hu : High u) (hv : Low v) :
    ∃ c, 0x10000 ≤ c ∧ c < 0x110000 ∧ utf16Of c = [u, v] := by
  obtain ⟨hu, hu'⟩ := hu
  obtain ⟨hv, hv'⟩ := hv
  refine ⟨0x10000 + ((u.toNat - 0xD800) * 1024 + (v.toNat - 0xDC00)), by omega, by omega, ?_⟩
  rw [utf16Of_pair (by omega)]
  have hhigh : 0xD800 + (0x10000 + ((u.toNat - 0xD800) * 1024 + (v.toNat - 0xDC00)) - 0x10000) / 1024 =
      u.toNat := by omega
  have hlow : 0xDC00 + (0x10000 + ((u.toNat - 0xD800) * 1024 + (v.toNat - 0xDC00)) - 0x10000) % 1024 =
      v.toNat := by omega
  rw [hhigh, hlow, UInt16.ofNat_toNat, UInt16.ofNat_toNat]

theorem exists_reads (hs : (0 : UInt16) ∉ s) : ∃ cs, Reads s cs := by
  induction hn : s.length using Nat.strong_induction_on generalizing s with
  | _ n ih =>
    match s, hs, hn with
    | [], _, _ => exact ⟨[], .nil⟩
    | [u], hs, hn =>
      have hu : u ≠ 0 := fun h => hs (h ▸ mem_cons_self)
      by_cases hhigh : High u
      · exact ⟨[replacement], .highAlone hhigh (by decide) .nil⟩
      by_cases hlow : Low u
      · exact ⟨[replacement], .lowAlone hlow .nil⟩
      · exact ⟨[u.toNat], .single hu hhigh hlow .nil⟩
    | u :: v :: s, hs, hn =>
      have hu : u ≠ 0 := fun h => hs (h ▸ mem_cons_self)
      have hlength : (v :: s).length < n := hn ▸ Nat.lt_succ_self _
      have hlength' : s.length < n := Nat.lt_trans (Nat.lt_succ_self _) hlength
      have htail : (0 : UInt16) ∉ v :: s := fun h => hs (mem_cons_of_mem u h)
      have htail' : (0 : UInt16) ∉ s := fun h => htail (mem_cons_of_mem v h)
      obtain ⟨cs, hcs⟩ := ih _ hlength htail rfl
      by_cases hhigh : High u
      · by_cases hlow : Low v
        · obtain ⟨c, hc, hc', hunits⟩ := exists_utf16Of hhigh hlow
          obtain ⟨cs, hcs⟩ := ih _ hlength' htail' rfl
          have hreads : Reads (utf16Of c ++ s) (c :: cs) := .pair hc hc' hcs
          rw [hunits] at hreads
          exact ⟨c :: cs, hreads⟩
        · exact ⟨replacement :: cs, .highAlone hhigh hlow hcs⟩
      by_cases hlow : Low u
      · exact ⟨replacement :: cs, .lowAlone hlow hcs⟩
      · exact ⟨u.toNat :: cs, .single hu hhigh hlow hcs⟩

theorem scalar_single (hhigh : ¬ High u) (hlow : ¬ Low u) : Scalar u.toNat := by
  have hlimit : u.toNat < 65536 := u.toNat_lt
  unfold High at hhigh
  unfold Low at hlow
  unfold Scalar
  omega

theorem Reads.scalars (h : Reads s cs) : Scalars cs := by
  induction h with
  | nil => exact scalars_nil
  | single hu hhigh hlow _ ih =>
    exact ih.cons (scalar_single hhigh hlow) (fun h => hu (UInt16.toNat_inj.1 h))
  | highAlone _ _ _ ih => exact ih.cons scalar_replacement replacement_ne_zero
  | lowAlone _ _ ih => exact ih.cons scalar_replacement replacement_ne_zero
  | pair hc hc' _ ih => exact ih.cons (.inr ⟨by omega, hc'⟩) (by omega)

theorem reads_utf16Of (h : Scalars cs) : Reads (cs.flatMap utf16Of) cs := by
  induction cs with
  | nil => exact .nil
  | cons c cs ih =>
    have hc := h.scalar c mem_cons_self
    have hzero := h.nonzero c mem_cons_self
    by_cases hsmall : c < 0x10000
    · have hunit : (UInt16.ofNat c).toNat = c := toNat_unit hsmall
      have hreads : Reads (UInt16.ofNat c :: cs.flatMap utf16Of) ((UInt16.ofNat c).toNat :: cs) := by
        apply Reads.single (unit_ne_zero hsmall hzero) _ _ (ih h.tail)
        · unfold High
          unfold Scalar at hc
          omega
        · unfold Low
          unfold Scalar at hc
          omega
      rw [hunit] at hreads
      rw [flatMap_cons, utf16Of, if_pos hsmall]
      exact hreads
    · have hlimit : c < 0x110000 := by
        unfold Scalar at hc
        omega
      exact .pair (Nat.not_lt.1 hsmall) hlimit (ih h.tail)

theorem not_low_of_high (h : High u) : ¬ Low u := by
  unfold High at h
  unfold Low
  omega

theorem not_low_zero : ¬ Low 0 := by decide

theorem high_utf16Of (hc : 0x10000 ≤ c) (hc' : c < 0x110000) :
    High (.ofNat (0xD800 + (c - 0x10000) / 1024)) := by
  unfold High
  rw [toNat_unit (by omega)]
  omega

theorem low_utf16Of (c : Nat) : Low (.ofNat (0xDC00 + (c - 0x10000) % 1024)) := by
  unfold Low
  rw [toNat_unit (by omega)]
  omega

theorem Reads.replacedAfter (h : Reads s cs) {before : UInt16}
    (hbefore : High before → ¬ Low (s.headD 0)) : replacedAfter before s = cs.flatMap utf16Of := by
  induction h generalizing before with
  | nil => rfl
  | @single u s cs _ hhigh hlow _ ih =>
    have hpaired : ¬ Unpaired before u (s.headD 0) := by
      rintro (⟨h, _⟩ | ⟨h, _⟩)
      · exact hhigh h
      · exact hlow h
    have hform : utf16Of u.toNat = [u] := by
      rw [utf16Of, if_pos (show u.toNat < 0x10000 from u.toNat_lt), UInt16.ofNat_toNat]
    rw [TranscodingReadings.replacedAfter, if_neg hpaired, ih (fun h => absurd h hhigh),
      flatMap_cons, hform]
    rfl
  | @highAlone u s cs hhigh hlow _ ih =>
    rw [TranscodingReadings.replacedAfter, if_pos (.inl ⟨hhigh, hlow⟩), ih (fun _ => hlow)]
    rfl
  | @lowAlone u s cs hlow _ ih =>
    have hpaired : Unpaired before u (s.headD 0) := .inr ⟨hlow, fun h => hbefore h hlow⟩
    rw [TranscodingReadings.replacedAfter, if_pos hpaired, ih (fun h => absurd hlow (not_low_of_high h))]
    rfl
  | @pair c s cs hc hc' _ ih =>
    have hhigh := high_utf16Of hc hc'
    have hlow := low_utf16Of c
    rw [flatMap_cons, utf16Of_pair hc]
    generalize UInt16.ofNat (0xD800 + (c - 0x10000) / 1024) = u at hhigh ⊢
    generalize UInt16.ofNat (0xDC00 + (c - 0x10000) % 1024) = v at hlow ⊢
    have hu : ¬ Unpaired before u v := by
      rintro (⟨_, h⟩ | ⟨h, _⟩)
      · exact h hlow
      · exact not_low_of_high hhigh h
    have hv : ¬ Unpaired u v (s.headD 0) := by
      rintro (⟨h, _⟩ | ⟨_, h⟩)
      · exact not_low_of_high h hlow
      · exact h hhigh
    have htail := ih (fun h => absurd hlow (not_low_of_high h))
    change (if Unpaired before u v then _ else u) ::
      (if Unpaired u v (s.headD 0) then _ else v) :: TranscodingReadings.replacedAfter v s = _
    rw [if_neg hu, if_neg hv, htail]
    rfl

/-- What a round of the loops of `utf16_to_utf8` does at the start of its memory. -/
structure Round (memory following : List UInt16) (c : Nat) : Prop where
  starts : unitAt memory 0 ≠ 0
  follows : memory.drop (readUnits memory).1 = following
  encoded : utf8EncodeOne (readUnits memory).2 = utf8Of c
  size : (if (readUnits memory).2 ≤ 0x7F then 1 else if (readUnits memory).2 ≤ 0x7FF then 2
    else if (readUnits memory).2 ≤ 0xFFFF then 3 else 4) = (utf8Of c).length

theorem round_of_read {memory following : List UInt16} {n : Nat} (hc : Scalar c)
    (hstart : unitAt memory 0 ≠ 0) (hfollowing : memory.drop n = following) (h : readUnits memory = (n, c)) :
    Round memory following c where
  starts := hstart
  follows := by
    rw [h]
    exact hfollowing
  encoded := by
    rw [h]
    exact utf8EncodeOne_scalar hc
  size := by
    rw [h]
    exact (length_utf8Of c).symm

theorem unitAt_head (hu : u ≠ 0) : unitAt (u :: rest) 0 ≠ 0 :=
  fun h => hu (UInt16.toNat_inj.1 h)

theorem ne_zero_of_high (h : High u) : u ≠ 0 := by
  rintro rfl
  exact absurd h (by decide)

theorem ne_zero_of_low (h : Low u) : u ≠ 0 := by
  rintro rfl
  exact absurd h (by decide)

theorem readUnits_cons (u : UInt16) (rest : List UInt16) :
    readUnits (u :: rest) =
      if High u ∧ (rest.headD 0).toNat ≠ 0 then
        if Low (rest.headD 0) then
          (2, 0x10000 + ((u.toNat - 0xD800) <<< 10 ||| ((rest.headD 0).toNat - 0xDC00)))
        else (1, replacement) else if Low u then (1, replacement) else (1, u.toNat) := by
  have hcp : unitAt (u :: rest) 0 = u.toNat := rfl
  have hnext : unitAt (u :: rest) 1 = (rest.headD 0).toNat := by cases rest <;> rfl
  rw [readUnits, hcp, hnext]
  exact if_congr and_assoc.symm (if_congr Iff.rfl rfl rfl) (if_congr Iff.rfl rfl rfl)

theorem round_single (hu : u ≠ 0) (hhigh : ¬ High u) (hlow : ¬ Low u) : Round (u :: rest) rest u.toNat := by
  apply round_of_read (scalar_single hhigh hlow) (unitAt_head hu) (n := 1) rfl
  rw [readUnits_cons, if_neg (fun h => hhigh h.1), if_neg hlow]

theorem round_low (hlow : Low u) : Round (u :: rest) rest replacement := by
  apply round_of_read scalar_replacement (unitAt_head (ne_zero_of_low hlow)) (n := 1) rfl
  rw [readUnits_cons, if_neg (fun h => not_low_of_high h.1 hlow), if_pos hlow]

theorem round_high (hhigh : High u) (hlow : ¬ Low (rest.headD 0)) : Round (u :: rest) rest replacement := by
  by_cases hend : (rest.headD 0).toNat = 0
  · have hread : readUnits (u :: rest) = (1, u.toNat) := by
      rw [readUnits_cons, if_neg (fun h => h.2 hend), if_neg (not_low_of_high hhigh)]
    obtain ⟨hlower, hupper⟩ := hhigh
    have hencoded : utf8EncodeOne u.toNat = utf8EncodeOne replacement := by
      unfold utf8EncodeOne
      rw [if_neg (by omega), if_neg (by omega), if_pos (by omega), if_pos (by omega)]
      rfl
    refine ⟨unitAt_head (ne_zero_of_high ⟨hlower, hupper⟩), ?_, ?_, ?_⟩
    · rw [hread]
      rfl
    · rw [hread]
      exact hencoded.trans (utf8EncodeOne_scalar scalar_replacement)
    · rw [hread, length_utf8Of]
      dsimp only
      rw [if_neg (by omega), if_neg (by omega), if_pos (by omega)]
      rfl
  · apply round_of_read scalar_replacement (unitAt_head (ne_zero_of_high hhigh)) (n := 1) rfl
    rw [readUnits_cons, if_pos ⟨hhigh, hend⟩, if_neg hlow]

theorem round_pair (hc : 0x10000 ≤ c) (hc' : c < 0x110000) : Round (utf16Of c ++ rest) rest c := by
  have hhigh := high_utf16Of hc hc'
  have hlow := low_utf16Of c
  have hmemory : utf16Of c ++ rest =
      .ofNat (0xD800 + (c - 0x10000) / 1024) :: .ofNat (0xDC00 + (c - 0x10000) % 1024) :: rest := by
    rw [utf16Of_pair hc]
    rfl
  rw [hmemory]
  apply round_of_read (.inr ⟨by omega, hc'⟩) (unitAt_head (ne_zero_of_high hhigh)) (n := 2) rfl
  have hu : (UInt16.ofNat (0xD800 + (c - 0x10000) / 1024)).toNat = 0xD800 + (c - 0x10000) / 1024 :=
    toNat_unit (by omega)
  have hv : (UInt16.ofNat (0xDC00 + (c - 0x10000) % 1024)).toNat = 0xDC00 + (c - 0x10000) % 1024 :=
    toNat_unit (by omega)
  have hbits : ((c - 0x10000) / 1024) <<< 10 ||| (c - 0x10000) % 1024 = c - 0x10000 := by
    have hlower : (c - 0x10000) % 1024 < 2 ^ 10 := Nat.mod_lt _ (by decide)
    rw [shifted_or hlower]
    omega
  have hnonzero : (UInt16.ofNat (0xDC00 + (c - 0x10000) % 1024)).toNat ≠ 0 := by omega
  rw [readUnits_cons, headD_cons, if_pos ⟨hhigh, hnonzero⟩, if_pos hlow, hu, hv, Nat.add_sub_cancel_left, Nat.add_sub_cancel_left, hbits, Nat.add_sub_cancel' hc]

theorem Reads.round (h : Reads s (c :: cs)) (behind : List UInt16) :
    ∃ following, Reads following cs ∧ Round (s ++ 0 :: behind) (following ++ 0 :: behind) c := by
  cases h with
  | single hu hhigh hlow hreads => exact ⟨_, hreads, round_single hu hhigh hlow⟩
  | @highAlone u s _ hhigh hlow hreads =>
    refine ⟨s, hreads, round_high hhigh ?_⟩
    cases s with
    | nil => exact not_low_zero
    | cons v s => exact hlow
  | lowAlone hlow hreads => exact ⟨_, hreads, round_low hlow⟩
  | pair hc hc' hreads =>
    refine ⟨_, hreads, ?_⟩
    rw [append_assoc]
    exact round_pair hc hc'

theorem Reads.countBytes (h : Reads s cs) (behind : List UInt16) (bytes : Nat) :
    countBytes (s ++ 0 :: behind) bytes = bytes + (cs.flatMap utf8Of).length := by
  induction cs generalizing s bytes with
  | nil =>
    cases h
    rw [TextTranscoding.countBytes]
    exact if_pos rfl
  | cons c cs ih =>
    obtain ⟨following, hreads, hround⟩ := h.round behind
    rw [TextTranscoding.countBytes, if_neg hround.starts]
    dsimp only
    rw [hround.follows, hround.size, ih hreads, flatMap_cons, length_append, Nat.add_assoc]

theorem Reads.writeBytes (h : Reads s cs) (behind : List UInt16) (out : List UInt8) :
    writeBytes (s ++ 0 :: behind) out = out ++ cs.flatMap utf8Of := by
  induction cs generalizing s out with
  | nil =>
    cases h
    rw [TextTranscoding.writeBytes, flatMap_nil, append_nil]
    exact if_pos rfl
  | cons c cs ih =>
    obtain ⟨following, hreads, hround⟩ := h.round behind
    rw [TextTranscoding.writeBytes, if_neg hround.starts]
    dsimp only
    rw [hround.follows, hround.encoded, ih hreads, flatMap_cons, append_assoc]

end Units

variable {u : List UInt16}

/-- A text in UTF-8: the forms of some scalar values, one behind the other. -/
def WellFormed (s : List UInt8) : Prop := ∃ cs, Scalars cs ∧ s = cs.flatMap utf8Of

theorem Decodes.utf8ToUtf16 (h : Decodes s cs) (behind : List UInt8) :
    utf8ToUtf16 (s ++ 0 :: behind) = cs.flatMap utf16Of := h.writeUnits behind []

theorem Reads.utf16ToUtf8 (h : Reads u cs) (behind : List UInt16) :
    utf16ToUtf8 (u ++ 0 :: behind) = cs.flatMap utf8Of := h.writeBytes behind []

theorem repaired_wellFormed (h : WellFormed s) : repaired s = s := by
  obtain ⟨cs, hcs, rfl⟩ := h
  exact (decodes_utf8Of hcs).repaired

theorem utf8_roundTrip (hs : (0 : UInt8) ∉ s) (behind : List UInt8) (behind' : List UInt16) :
    utf16ToUtf8 (utf8ToUtf16 (s ++ 0 :: behind) ++ 0 :: behind') = repaired s := by
  obtain ⟨cs, hcs⟩ := exists_decodes hs
  rw [hcs.utf8ToUtf16, (reads_utf16Of hcs.scalars).utf16ToUtf8, hcs.repaired]

theorem utf16_roundTrip (hu : (0 : UInt16) ∉ u) (behind : List UInt16) (behind' : List UInt8) :
    utf8ToUtf16 (utf16ToUtf8 (u ++ 0 :: behind) ++ 0 :: behind') = replaced u := by
  obtain ⟨cs, hcs⟩ := exists_reads hu
  have hfirst : High 0 → ¬ Low (u.headD 0) := fun h => absurd rfl (ne_zero_of_high h)
  rw [hcs.utf16ToUtf8, (decodes_utf8Of hcs.scalars).utf8ToUtf16, replaced, hcs.replacedAfter hfirst]

theorem countUnits_eq (hs : (0 : UInt8) ∉ s) (behind : List UInt8) :
    countUnits (s ++ 0 :: behind) 0 = (utf8ToUtf16 (s ++ 0 :: behind)).length := by
  obtain ⟨cs, hcs⟩ := exists_decodes hs
  rw [hcs.utf8ToUtf16, hcs.countUnits, Nat.zero_add]

theorem countBytes_eq (hu : (0 : UInt16) ∉ u) (behind : List UInt16) :
    countBytes (u ++ 0 :: behind) 0 = (utf16ToUtf8 (u ++ 0 :: behind)).length := by
  obtain ⟨cs, hcs⟩ := exists_reads hu
  rw [hcs.utf16ToUtf8, hcs.countBytes, Nat.zero_add]

/-- Either converter undoes the other up to replacements, whatever stands behind the texts in memory,
and its passes agree on the size of the result. -/
theorem transcoding_roundTrip (s : List UInt8) (u : List UInt16) (hs : (0 : UInt8) ∉ s)
    (hu : (0 : UInt16) ∉ u) (bytesBehind : List UInt8) (unitsBehind : List UInt16) :
    (utf16ToUtf8 (utf8ToUtf16 (s ++ 0 :: bytesBehind) ++ 0 :: unitsBehind) = repaired s ∧
      (WellFormed s → utf16ToUtf8 (utf8ToUtf16 (s ++ 0 :: bytesBehind) ++ 0 :: unitsBehind) = s)) ∧
    utf8ToUtf16 (utf16ToUtf8 (u ++ 0 :: unitsBehind) ++ 0 :: bytesBehind) = replaced u ∧
    countUnits (s ++ 0 :: bytesBehind) 0 = (utf8ToUtf16 (s ++ 0 :: bytesBehind)).length ∧
    countBytes (u ++ 0 :: unitsBehind) 0 = (utf16ToUtf8 (u ++ 0 :: unitsBehind)).length := by
  have htrip := utf8_roundTrip hs bytesBehind unitsBehind
  refine ⟨⟨htrip, ?_⟩, utf16_roundTrip hu unitsBehind bytesBehind, countUnits_eq hs bytesBehind,
    countBytes_eq hu unitsBehind⟩
  intro hwell
  rw [htrip, repaired_wellFormed hwell]

/-- A lone byte of a form and a lone surrogate are replaced. -/
theorem euroThenLone_roundTrip :
    utf16ToUtf8 (utf8ToUtf16 ([0xE2, 0x82, 0xAC, 0xC3] ++ 0 :: []) ++ 0 :: []) =
        repaired [0xE2, 0x82, 0xAC, 0xC3] ∧
      utf8ToUtf16 (utf16ToUtf8 ([0xD83D, 0xDE00, 0xD83D] ++ 0 :: []) ++ 0 :: []) =
        [0xD83D, 0xDE00, 0xFFFD] := by
  obtain ⟨⟨hbytes, -⟩, hunits, -⟩ :=
    transcoding_roundTrip [0xE2, 0x82, 0xAC, 0xC3] [0xD83D, 0xDE00, 0xD83D] (by decide) (by decide) [] []
  exact ⟨hbytes, hunits⟩

end Mlang.TranscodingReadings
