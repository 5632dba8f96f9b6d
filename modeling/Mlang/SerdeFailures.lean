import Mlang.SerdeRoundTrip

namespace Mlang.SerdeFailures

open LittleEndian SerdeBuffers

structure Placed (r : Reading) : Prop where
  room : r.reader.data.length = r.reader.len
  bounded : r.reader.len < 2 ^ 63
  within : r.reader.pos ≤ r.reader.len

/-- A call that fails leaves the place and the number of the bytes that remain as they are. -/
def ConsumesNothing (r r' : Reading) : Prop :=
  r'.status.lastOk = false → r'.reader.pos = r.reader.pos ∧ (remaining r').1 = (remaining r).1

def lengthPrefix (r : Reading) : Int :=
  (UInt64.ofNat (valueOf ((r.reader.data.drop r.reader.pos).take 8))).toInt64.toInt

structure WholeString (libc : Libc) (r : Reading) : Prop where
  nonneg : 0 ≤ lengthPrefix r
  there : r.reader.pos + 8 + lengthPrefix r ≤ r.reader.len
  memory : libc.grants ((lengthPrefix r).toNat + 1) = true

section Bytes

variable {r : Reading} {n : Nat}

def advanced (r : Reading) (n : Nat) : Reading :=
  { reader := { r.reader with pos := r.reader.pos + n }, status := setOk }

theorem readBytes_some (hplaced : Placed r) (hthere : r.reader.pos + n ≤ r.reader.len) :
    readBytes r n = (some ((r.reader.data.drop r.reader.pos).take n), advanced r n) := by
  have hbounded := hplaced.bounded
  rw [readBytes, Nat.mod_eq_of_lt (by omega), if_neg (by omega)]
  rfl

theorem readBytes_none (hplaced : Placed r) (hsmall : n ≤ 8) (hmissing : r.reader.len < r.reader.pos + n) :
    readBytes r n = (none, r.fail "unexpected end of binary") := by
  have hbounded := hplaced.bounded
  have hwithin := hplaced.within
  rw [readBytes, Nat.mod_eq_of_lt (by omega), if_pos hmissing]

def width : Kind → Nat
  | .u8 | .bool => 1
  | .i32 | .f32 => 4
  | _ => 8

theorem readI64_advanced (hplaced : Placed r) (hthere : r.reader.pos + 8 ≤ r.reader.len) :
    (readI64 r).1.toInt = lengthPrefix r ∧ (readI64 r).2 = advanced r 8 := by
  have hroom := hplaced.room
  have hlength : ((r.reader.data.drop r.reader.pos).take 8).length = 8 := by
    rw [List.length_take, List.length_drop]
    omega
  rw [readI64, readBytes_some hplaced hthere, lengthPrefix]
  generalize (r.reader.data.drop r.reader.pos).take 8 = raw at hlength
  obtain ⟨b0, b1, b2, b3, b4, b5, b6, b7, rfl⟩ : ∃ b0 b1 b2 b3 b4 b5 b6 b7,
      raw = [b0, b1, b2, b3, b4, b5, b6, b7] := by
    rcases raw with _ | ⟨b0, _ | ⟨b1, _ | ⟨b2, _ | ⟨b3, _ | ⟨b4, _ | ⟨b5, _ | ⟨b6, _ | ⟨b7, _ | ⟨_, raw⟩⟩⟩⟩⟩⟩⟩⟩⟩
    case cons.cons.cons.cons.cons.cons.cons.cons.nil =>
      exact ⟨b0, b1, b2, b3, b4, b5, b6, b7, rfl⟩
    all_goals simp at hlength
  rw [← SerdeRoundTrip.valueOf_eight]
  exact ⟨rfl, rfl⟩

theorem readValue_scalar (libc : Libc) (hplaced : Placed r) {kind : Kind} (hkind : kind ≠ .string) :
    (r.reader.pos + width kind ≤ r.reader.len ∧ (readValue libc r kind).2 = advanced r (width kind)) ∨
      (readValue libc r kind).2 = r.fail "unexpected end of binary" := by
  by_cases hthere : r.reader.pos + width kind ≤ r.reader.len
  · have hread : ∀ n, n = width kind →
        readBytes r n = (some ((r.reader.data.drop r.reader.pos).take n), advanced r n) :=
      fun n hn => readBytes_some hplaced (by omega)
    refine .inl ⟨hthere, ?_⟩
    cases kind with
    | string => exact absurd rfl hkind
    | u8 => rw [readValue, readU8, hread 1 rfl]; rfl
    | bool => rw [readValue, readBool, readU8, hread 1 rfl]; rfl
    | i32 => rw [readValue, readI32, hread 4 rfl]; rfl
    | f32 => rw [readValue, readF32, readI32, hread 4 rfl]; rfl
    | i64 => rw [readValue, readI64, hread 8 rfl]; rfl
    | f64 => rw [readValue, readF64, readI64, hread 8 rfl]; rfl
  · have hmissing : ∀ n, n = width kind → n ≤ 8 → readBytes r n = (none, r.fail "unexpected end of binary") :=
      fun n hn hsmall => readBytes_none hplaced hsmall (by omega)
    refine .inr ?_
    cases kind with
    | string => exact absurd rfl hkind
    | u8 => rw [readValue, readU8, hmissing 1 rfl (by decide)]
    | bool => rw [readValue, readBool, readU8, hmissing 1 rfl (by decide)]; rfl
    | i32 => rw [readValue, readI32, hmissing 4 rfl (by decide)]
    | f32 => rw [readValue, readF32, readI32, hmissing 4 rfl (by decide)]; rfl
    | i64 => rw [readValue, readI64, hmissing 8 rfl (by decide)]
    | f64 => rw [readValue, readF64, readI64, hmissing 8 rfl (by decide)]; rfl

end Bytes

section Strings

variable {libc : Libc} {r : Reading}

theorem toUInt64_toNat {n : Int64} (h : ¬ n < 0) : n.toUInt64.toNat = n.toInt.toNat := by
  rw [Int64.lt_iff_toInt_lt] at h
  have hzero : (0 : Int64).toInt = 0 := rfl
  have hint : n.toInt = n.toBitVec.toInt := rfl
  have hnat : n.toUInt64.toNat = n.toBitVec.toNat := rfl
  rw [hzero, hint, BitVec.toInt_eq_toNat_cond] at h
  rw [hnat, hint, BitVec.toInt_eq_toNat_cond]
  have hlt := n.toBitVec.isLt
  split_ifs at h ⊢ <;> omega

/-- The three ways in which a string is read. -/
theorem readString_cases (hplaced : Placed r) :
    (r.reader.len < r.reader.pos + 8 ∧ (readString libc r).2 = r.fail "unexpected end of binary") ∨
      (r.reader.pos + 8 ≤ r.reader.len ∧ ¬ WholeString libc r ∧
        ∃ msg, (readString libc r).2 = (advanced r 8).fail msg) ∨
      (WholeString libc r ∧ (readString libc r).2 = advanced r (8 + (lengthPrefix r).toNat)) := by
  by_cases hthere : r.reader.pos + 8 ≤ r.reader.len
  · obtain ⟨hwritten, hadvanced⟩ := readI64_advanced hplaced hthere
    have hbounded := hplaced.bounded
    have hread : readI64 r = ((readI64 r).1, advanced r 8) := Prod.ext rfl hadvanced
    have hok : (advanced r 8).status.lastOk ≠ false := Bool.noConfusion
    refine .inr ?_
    rw [readString, hread]
    dsimp only
    rw [if_neg hok]
    by_cases hneg : (readI64 r).1 < 0
    · rw [if_pos hneg]
      refine .inl ⟨hthere, fun hwhole => ?_, _, rfl⟩
      rw [Int64.lt_iff_toInt_lt, hwritten] at hneg
      exact absurd hwhole.nonneg (not_le.2 hneg)
    · have hlength := toUInt64_toNat hneg
      rw [Int64.lt_iff_toInt_lt, hwritten] at hneg
      have hnonneg : 0 ≤ lengthPrefix r := not_lt.1 hneg
      rw [hwritten] at hlength
      have hpos : (advanced r 8).reader.pos = r.reader.pos + 8 := rfl
      have hlen : (advanced r 8).reader.len = r.reader.len := rfl
      rw [if_neg (by rw [Int64.lt_iff_toInt_lt, hwritten]; exact hneg), hlength, hpos, hlen]
      by_cases hmissing : (lengthPrefix r).toNat > r.reader.len - (r.reader.pos + 8)
      · rw [if_pos hmissing]
        refine .inl ⟨hthere, fun hwhole => ?_, _, rfl⟩
        have hroom := hwhole.there
        omega
      · rw [if_neg hmissing, Nat.mod_eq_of_lt (by omega)]
        cases hmalloc : malloc libc ((lengthPrefix r).toNat + 1) with
        | none =>
          refine .inl ⟨hthere, fun hwhole => ?_, _, rfl⟩
          rw [malloc, if_pos hwhole.memory] at hmalloc
          cases hmalloc
        | some block =>
          have hgrants := (SerdeRoundTrip.malloc_eq hmalloc).1
          have hsum : advanced r (8 + (lengthPrefix r).toNat) =
              { reader := { r.reader with pos := r.reader.pos + 8 + (lengthPrefix r).toNat },
                status := setOk } := by
            rw [advanced, Nat.add_assoc]
          rw [hsum]
          exact .inr ⟨⟨hnonneg, by omega, hgrants⟩, rfl⟩
  · have hmissing : r.reader.len < r.reader.pos + 8 := by omega
    refine .inl ⟨hmissing, ?_⟩
    rw [readString, readI64, readBytes_none hplaced (le_refl 8) hmissing]
    rfl

theorem readString_consumes_iff (hplaced : Placed r) :
    ConsumesNothing r (readString libc r).2 ↔ r.reader.len < r.reader.pos + 8 ∨ WholeString libc r := by
  rcases @readString_cases libc r hplaced with ⟨hmissing, h⟩ | ⟨hthere, hpart, msg, h⟩ | ⟨hwhole, h⟩
  · rw [h]
    exact iff_of_true (fun _ => ⟨rfl, rfl⟩) (.inl hmissing)
  · rw [h]
    refine iff_of_false (fun hnothing => ?_) (fun hor => hor.elim (by omega) hpart)
    have hsame : r.reader.pos + 8 = r.reader.pos := (hnothing rfl).1
    omega
  · rw [h]
    exact iff_of_true (fun hfailed => nomatch hfailed) (.inr hwhole)

end Strings

variable (libc : Libc) {r : Reading}

theorem readValue_within (hplaced : Placed r) (kind : Kind) :
    (readValue libc r kind).2.reader.pos ≤ (readValue libc r kind).2.reader.len ∧
      (readValue libc r kind).2.reader.len = r.reader.len := by
  have hwithin := hplaced.within
  by_cases hkind : kind = .string
  · rw [hkind]
    have hvalue : (readValue libc r .string).2 = (readString libc r).2 := rfl
    rw [hvalue]
    rcases @readString_cases libc r hplaced with ⟨-, h⟩ | ⟨hthere, -, msg, h⟩ | ⟨hwhole, h⟩
    · rw [h]
      exact ⟨hwithin, rfl⟩
    · rw [h]
      exact ⟨hthere, rfl⟩
    · rw [h]
      have hthere := hwhole.there
      have hnonneg := hwhole.nonneg
      exact ⟨by dsimp only [advanced]; omega, rfl⟩
  · rcases readValue_scalar libc hplaced hkind with ⟨hthere, h⟩ | h
    · rw [h]
      exact ⟨hthere, rfl⟩
    · rw [h]
      exact ⟨hwithin, rfl⟩

/-- A failed call consumes nothing, but for a string of which the length is there and not the rest. -/
theorem readValue_consumes_iff (hplaced : Placed r) (kind : Kind) :
    (ConsumesNothing r (readValue libc r kind).2 ↔
      (kind = .string → r.reader.len < r.reader.pos + 8 ∨ WholeString libc r)) ∧
      (readValue libc r kind).2.reader.pos ≤ (readValue libc r kind).2.reader.len := by
  refine ⟨?_, (readValue_within libc hplaced kind).1⟩
  by_cases hkind : kind = .string
  · have hvalue : (readValue libc r .string).2 = (readString libc r).2 := rfl
    rw [hkind, hvalue, readString_consumes_iff hplaced]
    exact ⟨fun h _ => h, fun h => h rfl⟩
  · refine iff_of_true ?_ fun h => absurd h hkind
    rcases readValue_scalar libc hplaced hkind with ⟨-, h⟩ | h
    · rw [h]
      exact fun hfailed => nomatch hfailed
    · rw [h]
      exact fun _ => ⟨rfl, rfl⟩

def reading (bytes : List UInt8) : Reading :=
  { reader := { data := bytes, len := bytes.length, pos := 0 }, status := setOk }

def plenty : Libc := { grants := fun n => decide (n < 2 ^ 20), fresh := fun _ => 0 }

theorem shortInt_consumes : ConsumesNothing (reading [1, 2]) (readValue plenty (reading [1, 2]) .i32).2 :=
  (readValue_consumes_iff plenty ⟨rfl, by decide, by decide⟩ .i32).1.2 fun h => nomatch h

/-- A string of three bytes of which there is one: its length is consumed. -/
theorem not_readValue_consumes : ¬ ∀ (libc : Libc) (r : Reading) (kind : Kind), Placed r →
    ConsumesNothing r (readValue libc r kind).2 := by
  intro hclaim
  have h := hclaim plenty (reading [3, 0, 0, 0, 0, 0, 0, 0, 65]) .string ⟨rfl, by decide, by decide⟩
  exact absurd (h (by decide)).1 (by decide)

end Mlang.SerdeFailures
