import Mlang.LittleEndian
import Mlang.SerdeBuffers
import Mlang.BitsetBits

namespace Mlang.SerdeRoundTrip

open LittleEndian SerdeBuffers List

variable {libc : Libc} {text src block : List UInt8} {n : Nat} {grown : List UInt8}
  {offset size : Nat}

/-- No object is larger than `PTRDIFF_MAX`. -/
def Limited (libc : Libc) : Prop := ∀ n, libc.grants n = true → n < 2 ^ 63

theorem malloc_eq (h : malloc libc size = some block) : libc.grants size = true ∧ block.length = size := by
  rw [malloc] at h
  split_ifs at h with hgrants
  cases h
  rw [length_map, length_range]
  exact ⟨hgrants, rfl⟩

theorem exists_malloc (h : libc.grants size = true) : ∃ block, malloc libc size = some block :=
  ⟨_, if_pos h⟩

theorem take_eq_map_range (fill : Nat → UInt8) (h : n ≤ block.length) :
    block.take n = (List.range n).map fun i => block.getD i (fill i) := by
  apply ext_getElem
  · rw [length_take, length_map, length_range, Nat.min_eq_left h]
  · intro i hi hi'
    rw [length_map, length_range] at hi'
    rw [getElem_take, getElem_map, getElem_range, getD_eq_getElem]

theorem realloc_eq (h : realloc libc block size = some grown) :
    libc.grants size = true ∧ grown.length = size ∧
      ∀ n, n ≤ block.length → n ≤ size → grown.take n = block.take n := by
  rw [realloc] at h
  split_ifs at h with hgrants
  cases h
  rw [length_map, length_range]
  refine ⟨hgrants, rfl, ?_⟩
  intro n hn hsize
  rw [take_eq_map_range libc.fresh hn, ← map_take, take_range, Nat.min_eq_left hsize]

theorem length_memcpy (h : offset + src.length ≤ block.length) :
    (memcpy block offset src).length = block.length := by
  rw [memcpy, length_append, length_append, length_take, length_drop]
  omega

theorem take_memcpy (h : offset ≤ block.length) :
    (memcpy block offset src).take (offset + src.length) = block.take offset ++ src := by
  have hlength : (block.take offset ++ src).length = offset + src.length := by
    rw [length_append, length_take, Nat.min_eq_left h]
  rw [memcpy, ← hlength, take_left]

theorem strlen_terminated (h : (0 : UInt8) ∉ text) (behind : List UInt8) :
    strlen (text ++ 0 :: behind) = text.length := by
  have htext : ∀ b ∈ text, (b ≠ 0 : Bool) = true := by
    intro b hb
    exact decide_eq_true fun hzero => h (hzero ▸ hb)
  rw [strlen, takeWhile_append_of_pos htext]
  simp

theorem bytesOf_eight (v : Nat) :
    [UInt8.ofNat (v &&& 0xFF), .ofNat (v >>> 8 &&& 0xFF), .ofNat (v >>> 16 &&& 0xFF),
      .ofNat (v >>> 24 &&& 0xFF), .ofNat (v >>> 32 &&& 0xFF), .ofNat (v >>> 40 &&& 0xFF),
      .ofNat (v >>> 48 &&& 0xFF), .ofNat (v >>> 56 &&& 0xFF)] = bytesOf 8 v := by
  rw [low_byte, masked, masked, masked, masked, masked, masked, masked]
  simp only [bytesOf, Nat.div_div_eq_div_mul]
  rfl

theorem valueOf_eight (b0 b1 b2 b3 b4 b5 b6 b7 : UInt8) :
    b0.toNat ||| b1.toNat <<< 8 ||| b2.toNat <<< 16 ||| b3.toNat <<< 24 ||| b4.toNat <<< 32 |||
      b5.toNat <<< 40 ||| b6.toNat <<< 48 ||| b7.toNat <<< 56 =
      valueOf [b0, b1, b2, b3, b4, b5, b6, b7] := by
  have hlow := valueOf_lt [b0, b1, b2, b3]
  have hvalue := valueOf_append [b0, b1, b2, b3] [b4, b5, b6, b7]
  have hpower : 256 ^ [b0, b1, b2, b3].length = 2 ^ 32 := by norm_num
  rw [hpower] at hlow hvalue
  have h4 : b4.toNat < 256 := b4.toNat_lt
  have h5 : b5.toNat < 256 := b5.toNat_lt
  have h6 : b6.toNat < 256 := b6.toNat_lt
  rw [valueOf_four]
  refine Eq.trans ?_ hvalue.symm
  generalize valueOf [b0, b1, b2, b3] = low at hlow
  rw [or_shifted (k := 32) hlow, or_shifted (k := 40) (by omega), or_shifted (k := 48) (by omega),
    or_shifted (k := 56) (by omega)]
  simp only [valueOf]
  omega

variable {capacity : Int64} {contents : List UInt8} {values : List Value} {target v : Nat} {w : Writer}

def Valid : Value → Prop
  | .u8 value => 0 ≤ value ∧ value ≤ 255
  | .bool value => value = 0 ∨ value = 1
  | .string text => (0 : UInt8) ∉ text
  | _ => True

def encoded : Value → List UInt8
  | .u8 value => [value.toUInt32.toUInt8]
  | .bool value => [if value ≠ 0 then 1 else 0]
  | .i32 value => bytesOf 4 value.toUInt32.toNat
  | .i64 value => bytesOf 8 value.toUInt64.toNat
  | .f32 bits => bytesOf 4 bits.toNat
  | .f64 bits => bytesOf 8 bits.toNat
  | .string text => bytesOf 8 text.length ++ text

/-- What a buffer holds: its block has room for the capacity, and the contents stand at its start. -/
structure Holds (w : Writer) (contents : List UInt8) : Prop where
  room : w.buffer.data.length = w.buffer.cap
  within : w.buffer.len ≤ w.buffer.cap
  bounded : w.buffer.cap < 2 ^ 63
  start : w.buffer.data.take w.buffer.len = contents

variable {w' : Writer} {value : Int32}

theorem binaryNew_holds (hlibc : Limited libc) (h : (binaryNew libc capacity).1 = some w) : Holds w [] := by
  rw [binaryNew] at h
  dsimp only at h
  generalize (if capacity.toUInt64.toNat < 32 then 32 else capacity.toUInt64.toNat) = cap at h
  split_ifs at h
  split at h
  · cases h
  · rename_i block hblock
    obtain ⟨hgrants, hlength⟩ := malloc_eq hblock
    cases h
    exact ⟨hlength, Nat.zero_le _, hlibc _ hgrants, rfl⟩

theorem reserve_holds (hlibc : Limited libc) (hw : Holds w contents) (htarget : target < 2 ^ 64)
    (h : reserve libc w target = (true, w')) :
    Holds w' contents ∧ target ≤ w'.buffer.cap ∧ w'.buffer.len = w.buffer.len := by
  rw [reserve] at h
  by_cases hroom : target ≤ w.buffer.cap
  · rw [if_pos hroom] at h
    obtain ⟨-, rfl⟩ := Prod.mk.inj h
    exact ⟨⟨hw.room, hw.within, hw.bounded, hw.start⟩, hroom, rfl⟩
  · rw [if_neg hroom] at h
    dsimp only at h
    have hnext : 1 ≤ if w.buffer.cap > 0 then w.buffer.cap else 32 := by split_ifs <;> omega
    have hkept : w.buffer.cap ≤ if w.buffer.cap > 0 then w.buffer.cap else 32 := by split_ifs <;> omega
    have hlarge : target ≤ (if w.buffer.cap > 0 then w.buffer.cap else 32) * 2 ^ 64 := by omega
    obtain ⟨henough, hgrown⟩ := BitsetBits.le_doubledBits hlarge
    generalize (if w.buffer.cap > 0 then w.buffer.cap else 32) = first at *
    generalize Bitsets.doubledBits target 64 first = next at *
    split at h
    · cases h
    · rename_i block hblock
      obtain ⟨hgrants, hlength, htake⟩ := realloc_eq hblock
      obtain ⟨-, rfl⟩ := Prod.mk.inj h
      have hbelow : w.buffer.len ≤ next := hw.within.trans (hkept.trans hgrown)
      refine ⟨⟨hlength, hbelow, hlibc _ hgrants, ?_⟩, henough, rfl⟩
      have hsame := htake w.buffer.len (hw.room ▸ hw.within) hbelow
      exact hsame.trans hw.start

theorem bufAppend_holds (hlibc : Limited libc) (hw : Holds w contents) (hsrc : src.length < 2 ^ 63)
    (h : bufAppend libc w src = (true, w')) : Holds w' (contents ++ src) ∧ w'.status = setOk := by
  have hlen : w.buffer.len < 2 ^ 63 := Nat.lt_of_le_of_lt hw.within hw.bounded
  have hsum : (w.buffer.len + src.length) % 2 ^ 64 = w.buffer.len + src.length :=
    Nat.mod_eq_of_lt (by omega)
  rw [bufAppend, hsum] at h
  split at h
  · cases h
  · rename_i w'' hreserve
    obtain ⟨hheld, henough, hsame⟩ := reserve_holds hlibc hw (by omega) hreserve
    obtain ⟨-, rfl⟩ := Prod.mk.inj h
    have hroom : w''.buffer.len + src.length ≤ w''.buffer.data.length := by
      rw [hheld.room, hsame]
      exact henough
    have hstart : w''.buffer.len ≤ w''.buffer.data.length := by omega
    have hsum' : (w''.buffer.len + src.length) % 2 ^ 64 = w''.buffer.len + src.length := by
      rw [hsame, hsum]
    refine ⟨⟨?_, ?_, hheld.bounded, ?_⟩, rfl⟩
    · exact (length_memcpy hroom).trans hheld.room
    · dsimp only [Writer.ok]
      rw [hsum', ← hheld.room]
      exact hroom
    · dsimp only [Writer.ok]
      rw [hsum', take_memcpy hstart, hheld.start]

theorem code_eq_zero {r : Bool × Writer} (h : code r = (0, w)) : r = (true, w) := by
  obtain ⟨ok, w'⟩ := r
  cases ok with
  | false => exact absurd (show (-1 : Int32) = 0 from congrArg Prod.fst h) (by decide)
  | true => exact congrArg (Prod.mk true) (congrArg Prod.snd h)

theorem bufAppend_bytesOf_holds (hlibc : Limited libc) {width : Nat} (hw : Holds w contents)
    (hwidth : width ≤ 8) (h : code (bufAppend libc w (bytesOf width v)) = (0, w')) :
    Holds w' (contents ++ bytesOf width v) := by
  have hlength : (bytesOf width v).length < 2 ^ 63 := by
    rw [length_bytesOf]
    omega
  exact (bufAppend_holds hlibc hw hlength (code_eq_zero h)).1

theorem appendU8_eq (w : Writer) (hvalue : 0 ≤ value ∧ value ≤ 255) :
    appendU8 libc w value = code (bufAppend libc w [value.toUInt32.toUInt8]) := by
  apply if_neg
  rintro (hlow | hhigh)
  · exact absurd hvalue.1 (Int32.not_le.2 hlow)
  · exact absurd hvalue.2 (Int32.not_le.2 hhigh)

theorem appendU8_holds (hlibc : Limited libc) (hw : Holds w contents) (hvalue : 0 ≤ value ∧ value ≤ 255)
    (h : appendU8 libc w value = (0, w')) : Holds w' (contents ++ [value.toUInt32.toUInt8]) := by
  rw [appendU8_eq w hvalue] at h
  have hlength : [value.toUInt32.toUInt8].length < 2 ^ 63 := Nat.one_lt_two_pow (by decide)
  exact (bufAppend_holds hlibc hw hlength (code_eq_zero h)).1

theorem appendI64_holds (hlibc : Limited libc) {value : Int64} (hw : Holds w contents)
    (h : appendI64 libc w value = (0, w')) : Holds w' (contents ++ bytesOf 8 value.toUInt64.toNat) := by
  rw [appendI64, bytesOf_eight] at h
  exact bufAppend_bytesOf_holds hlibc hw (by decide) h

theorem toNat_length (h : n < 2 ^ 63) : (Int64.ofNat n).toUInt64.toNat = n := by
  rw [Int64.toUInt64_ofNat', UInt64.toNat_ofNat_of_lt' (h.trans (by decide))]

theorem appendValue_holds (hlibc : Limited libc) {value : Value} (hw : Holds w contents)
    (hvalue : Valid value) (h : appendValue libc w value = (0, w')) :
    Holds w' (contents ++ encoded value) := by
  cases value with
  | u8 value => exact appendU8_holds hlibc hw hvalue h
  | bool value =>
    have hbyte : (if value ≠ 0 then (1 : Int32) else 0).toUInt32.toUInt8 = if value ≠ 0 then 1 else 0 := by
      split_ifs <;> rfl
    have hflag : 0 ≤ (if value ≠ 0 then (1 : Int32) else 0) ∧
        (if value ≠ 0 then (1 : Int32) else 0) ≤ 255 := by
      split_ifs <;> decide
    have hheld := appendU8_holds hlibc hw hflag h
    rw [hbyte] at hheld
    exact hheld
  | i32 value =>
    rw [appendValue, appendI32, bytesOf_four] at h
    exact bufAppend_bytesOf_holds hlibc hw (by decide) h
  | i64 value => exact appendI64_holds hlibc hw h
  | f32 bits =>
    rw [appendValue, appendF32, appendI32, UInt32.toUInt32_toInt32, bytesOf_four] at h
    exact bufAppend_bytesOf_holds hlibc hw (by decide) h
  | f64 bits =>
    rw [appendValue, appendF64, appendI64, UInt64.toUInt64_toInt64, bytesOf_eight] at h
    exact bufAppend_bytesOf_holds hlibc hw (by decide) h
  | string text =>
    rw [appendValue, appendString, strlen_terminated hvalue] at h
    dsimp only at h
    split_ifs at h with hlarge hfailed
    · exact absurd (show (-1 : Int32) = 0 from congrArg Prod.fst h) (by decide)
    · exact absurd (show (-1 : Int32) = 0 from congrArg Prod.fst h) (by decide)
    · have hlength : text.length < 2 ^ 63 := by omega
      have hcode : appendI64 libc w (Int64.ofNat text.length) =
          (0, (appendI64 libc w (Int64.ofNat text.length)).2) :=
        Prod.ext (not_not.1 hfailed) rfl
      have hheld := appendI64_holds hlibc hw hcode
      rw [toNat_length hlength] at hheld
      have htext : ((text ++ [0]).take text.length).length < 2 ^ 63 := by
        rw [take_left]
        exact hlength
      have hall := (bufAppend_holds hlibc hheld htext (code_eq_zero h)).1
      rw [take_left, append_assoc] at hall
      exact hall

theorem appendAll_holds (hlibc : Limited libc) (hw : Holds w contents)
    (hvalues : ∀ value ∈ values, Valid value) (h : ∀ result ∈ (appendAll libc w values).1, result = 0) :
    Holds (appendAll libc w values).2 (contents ++ values.flatMap encoded) := by
  induction values generalizing w contents with
  | nil =>
    rw [flatMap_nil, append_nil]
    exact hw
  | cons value values ih =>
    obtain ⟨hvalue, hothers⟩ := forall_mem_cons.1 hvalues
    obtain ⟨hresult, hresults⟩ := forall_mem_cons.1 h
    have hcall : appendValue libc w value = (0, (appendValue libc w value).2) := Prod.ext hresult rfl
    have hheld := ih (appendValue_holds hlibc hw hvalue hcall) hothers hresults
    rw [flatMap_cons, ← append_assoc]
    exact hheld

variable {r : Reading} {more : List UInt8}

/-- What stands before a reader: the bytes it has not read yet. -/
structure Ahead (r : Reading) (unread : List UInt8) : Prop where
  room : r.reader.data.length = r.reader.len
  within : r.reader.pos ≤ r.reader.len
  bounded : r.reader.len < 2 ^ 63
  follows : r.reader.data.drop r.reader.pos = unread

variable {unread : List UInt8}

theorem Ahead.length_eq (h : Ahead r unread) : unread.length = r.reader.len - r.reader.pos := by
  rw [← h.follows, length_drop, h.room]

theorem readerNew_ahead (hw : Holds w contents) (h : (readerNew libc w.buffer).1 = some r) :
    Ahead r contents := by
  have hbounded : w.buffer.len < 2 ^ 63 := Nat.lt_of_le_of_lt hw.within hw.bounded
  rw [readerNew] at h
  split_ifs at h with hlen
  · split at h
    · cases h
    · rename_i block hblock
      obtain ⟨-, hlength⟩ := malloc_eq hblock
      cases h
      have hcontents : contents.length = w.buffer.len := by
        rw [← hw.start, length_take, hw.room, Nat.min_eq_left hw.within]
      have hcopy : memcpy block 0 contents = contents := by
        rw [memcpy, take_zero, nil_append, Nat.zero_add, drop_eq_nil_of_le (by omega), append_nil]
      rw [hw.start, hcopy]
      exact ⟨hcontents, Nat.zero_le _, hbounded, rfl⟩
  · cases h
    have hzero : w.buffer.len = 0 := Nat.eq_zero_of_not_pos hlen
    refine ⟨hzero.symm, Nat.zero_le _, hbounded, ?_⟩
    rw [← hw.start, hzero]
    rfl

theorem readBytes_ahead {bytes : List UInt8} (h : Ahead r (bytes ++ more)) :
    ∃ r', readBytes r bytes.length = (some bytes, r') ∧ Ahead r' more ∧ r'.status = setOk := by
  have hlength := h.length_eq
  have hwithin := h.within
  have hbounded := h.bounded
  rw [length_append] at hlength
  have hsum : (r.reader.pos + bytes.length) % 2 ^ 64 = r.reader.pos + bytes.length :=
    Nat.mod_eq_of_lt (by omega)
  have hroom : ¬ r.reader.pos + bytes.length > r.reader.len := by omega
  rw [readBytes, hsum, if_neg hroom, h.follows, take_left]
  refine ⟨_, rfl, ⟨h.room, Nat.not_lt.1 hroom, hbounded, ?_⟩, rfl⟩
  dsimp only [Reading.ok]
  rw [← drop_drop, h.follows, drop_left]

theorem readI32_ahead (hv : v < 2 ^ 32) (h : Ahead r (bytesOf 4 v ++ more)) :
    ∃ r', readI32 r = ((UInt32.ofNat v).toInt32, r') ∧ Ahead r' more ∧ r'.status = setOk := by
  obtain ⟨r', hread, hahead, hstatus⟩ := readBytes_ahead h
  rw [length_bytesOf] at hread
  have hbound : v < 256 ^ 4 := hv.trans_eq (by norm_num)
  have hvalue := valueOf_bytesOf hbound
  refine ⟨r'.ok, ?_, ⟨hahead.room, hahead.within, hahead.bounded, hahead.follows⟩, rfl⟩
  rw [readI32, hread]
  dsimp only [bytesOf, getD_cons_zero, getD_cons_succ]
  rw [valueOf_four]
  exact congrArg (fun n => ((UInt32.ofNat n).toInt32, r'.ok)) hvalue

theorem readI64_ahead (hv : v < 2 ^ 64) (h : Ahead r (bytesOf 8 v ++ more)) :
    ∃ r', readI64 r = ((UInt64.ofNat v).toInt64, r') ∧ Ahead r' more ∧ r'.status = setOk := by
  obtain ⟨r', hread, hahead, hstatus⟩ := readBytes_ahead h
  rw [length_bytesOf] at hread
  have hbound : v < 256 ^ 8 := hv.trans_eq (by norm_num)
  have hvalue := valueOf_bytesOf hbound
  refine ⟨r'.ok, ?_, ⟨hahead.room, hahead.within, hahead.bounded, hahead.follows⟩, rfl⟩
  rw [readI64, hread]
  dsimp only [bytesOf, getD_cons_zero, getD_cons_succ]
  rw [valueOf_eight]
  exact congrArg (fun n => ((UInt64.ofNat n).toInt64, r'.ok)) hvalue

theorem readU8_ahead {b : UInt8} (h : Ahead r ([b] ++ more)) :
    ∃ r', readU8 r = (b.toUInt32.toInt32, r') ∧ Ahead r' more ∧ r'.status = setOk := by
  obtain ⟨r', hread, hahead, hstatus⟩ := readBytes_ahead h
  have hone : readBytes r 1 = (some [b], r') := hread
  refine ⟨r', ?_, hahead, hstatus⟩
  rw [readU8, hone]
  rfl

theorem byte_roundTrip {value : Int32} (h : 0 ≤ value ∧ value ≤ 255) :
    value.toUInt32.toUInt8.toUInt32.toInt32 = value := by
  have hle : value.toUInt32 ≤ (255 : Int32).toUInt32 := Int32.toUInt32_le h.1 h.2
  have hlt : value.toUInt32 < 256 := UInt32.lt_of_le_of_lt hle (by decide)
  rw [UInt32.toUInt32_toUInt8, UInt32.mod_eq_of_lt hlt, Int32.toInt32_toUInt32]

theorem Ahead.ok (h : Ahead r unread) : Ahead r.ok unread :=
  ⟨h.room, h.within, h.bounded, h.follows⟩

theorem terminated_eq (h : block.length = text.length + 1) :
    (memcpy block 0 text).set text.length 0 = text ++ [0] := by
  obtain ⟨b, hb⟩ : ∃ b, block.drop text.length = [b] := by
    apply List.length_eq_one_iff.1
    rw [length_drop, h, Nat.add_sub_cancel_left]
  rw [memcpy, take_zero, nil_append, Nat.zero_add, hb, set_append_right _ _ (Nat.le_refl _),
    Nat.sub_self]
  rfl

theorem readString_ahead (hgrants : libc.grants (text.length + 1) = true)
    (h : Ahead r (bytesOf 8 text.length ++ (text ++ more))) :
    ∃ r', readString libc r = (some (text ++ [0]), r') ∧ Ahead r' more ∧ r'.status = setOk := by
  have hbounded := h.bounded
  have hlong := h.length_eq
  rw [length_append, length_append, length_bytesOf] at hlong
  have hlength : text.length < 2 ^ 63 := by omega
  obtain ⟨r₁, hread, hahead, hstatus⟩ := readI64_ahead (hlength.trans (by decide)) h
  have hwithin := hahead.within
  have hleft := hahead.length_eq
  have hfits := hahead.bounded
  rw [length_append] at hleft
  have hvalue : (UInt64.ofNat text.length).toInt64.toUInt64.toNat = text.length := toNat_length hlength
  have hnonneg : ¬ (UInt64.ofNat text.length).toInt64 < 0 := by
    rw [UInt64.toInt64_ofNat', Int64.lt_iff_toInt_lt, Int64.toInt_ofNat_of_lt hlength]
    exact Int.not_lt.2 (Int.natCast_nonneg _)
  have hsum : (text.length + 1) % 2 ^ 64 = text.length + 1 := Nat.mod_eq_of_lt (by omega)
  have hok : ¬ r₁.status.lastOk = false := by
    rw [hstatus]
    decide
  obtain ⟨block, hblock⟩ := exists_malloc hgrants
  rw [readString, hread]
  dsimp only
  rw [if_neg hok, if_neg hnonneg, hvalue, if_neg (by omega), hsum, hblock]
  dsimp only
  rw [hahead.follows, take_left, terminated_eq (malloc_eq hblock).2]
  refine ⟨_, rfl, ⟨hahead.room, ?_, hfits, ?_⟩, rfl⟩
  · dsimp only [Reading.ok]
    omega
  · dsimp only [Reading.ok]
    rw [← drop_drop, hahead.follows, drop_left]

theorem readValue_ahead {value : Value} (hvalue : Valid value)
    (hgrants : ∀ text, value = .string text → libc.grants (text.length + 1) = true)
    (h : Ahead r (encoded value ++ more)) :
    ∃ r', readValue libc r value.kind = (some value, r') ∧ Ahead r' more ∧ r'.status = setOk := by
  have hok {r' : Reading} (hstatus : r'.status = setOk) : ¬ r'.status.lastOk = false := by
    rw [hstatus]
    decide
  cases value with
  | u8 value =>
    obtain ⟨r', hread, hahead, hstatus⟩ := readU8_ahead h
    refine ⟨r', ?_, hahead, hstatus⟩
    rw [Value.kind, readValue, hread, byte_roundTrip hvalue]
  | bool value =>
    obtain ⟨r', hread, hahead, hstatus⟩ := readU8_ahead h
    refine ⟨r'.ok, ?_, hahead.ok, rfl⟩
    rw [Value.kind, readValue, readBool, hread]
    dsimp only
    rw [if_neg (hok hstatus)]
    rcases hvalue with rfl | rfl <;> rfl
  | i32 value =>
    obtain ⟨r', hread, hahead, hstatus⟩ := readI32_ahead value.toUInt32.toNat_lt h
    refine ⟨r', ?_, hahead, hstatus⟩
    rw [Value.kind, readValue, hread, UInt32.ofNat_toNat, Int32.toInt32_toUInt32]
  | i64 value =>
    obtain ⟨r', hread, hahead, hstatus⟩ := readI64_ahead value.toUInt64.toNat_lt h
    refine ⟨r', ?_, hahead, hstatus⟩
    rw [Value.kind, readValue, hread, UInt64.ofNat_toNat, Int64.toInt64_toUInt64]
  | f32 bits =>
    obtain ⟨r', hread, hahead, hstatus⟩ := readI32_ahead bits.toNat_lt h
    refine ⟨r'.ok, ?_, hahead.ok, rfl⟩
    rw [Value.kind, readValue, readF32, hread]
    dsimp only
    rw [if_neg (hok hstatus), UInt32.ofNat_toNat, UInt32.toUInt32_toInt32]
  | f64 bits =>
    obtain ⟨r', hread, hahead, hstatus⟩ := readI64_ahead bits.toNat_lt h
    refine ⟨r'.ok, ?_, hahead.ok, rfl⟩
    rw [Value.kind, readValue, readF64, hread]
    dsimp only
    rw [if_neg (hok hstatus), UInt64.ofNat_toNat, UInt64.toUInt64_toInt64]
  | string text =>
    rw [encoded, append_assoc] at h
    obtain ⟨r', hread, hahead, hstatus⟩ := readString_ahead (hgrants text rfl) h
    refine ⟨r', ?_, hahead, hstatus⟩
    rw [Value.kind, readValue, hread]
    dsimp only [Option.map]
    rw [strlen_terminated hvalue, take_left]

theorem readAll_ahead (hvalues : ∀ value ∈ values, Valid value)
    (hgrants : ∀ text, .string text ∈ values → libc.grants (text.length + 1) = true)
    (h : Ahead r (values.flatMap encoded)) :
    (readAll libc r (values.map Value.kind)).1 = values.map (fun value => (some value, true)) ∧
    Ahead (readAll libc r (values.map Value.kind)).2 [] := by
  induction values generalizing r with
  | nil => exact ⟨rfl, h⟩
  | cons value values ih =>
    obtain ⟨hvalue, hothers⟩ := forall_mem_cons.1 hvalues
    have hfirst : ∀ text, value = .string text → libc.grants (text.length + 1) = true :=
      fun text heq => hgrants text (heq ▸ mem_cons_self)
    have hrest : ∀ text, .string text ∈ values → libc.grants (text.length + 1) = true :=
      fun text hmem => hgrants text (mem_cons_of_mem value hmem)
    obtain ⟨r', hread, hahead, hstatus⟩ := readValue_ahead hvalue hfirst h
    obtain ⟨hvaluesRead, hend⟩ := ih hothers hrest hahead
    rw [map_cons, readAll, hread]
    dsimp only
    rw [hvaluesRead, hstatus]
    exact ⟨rfl, hend⟩

variable {limit : Nat}

def Grants (libc : Libc) (limit : Nat) : Prop := ∀ n ≤ limit, libc.grants n = true

theorem doubledBits_le (target fuel next : Nat) :
    Bitsets.doubledBits target fuel next ≤ max next (2 * target) := by
  induction fuel generalizing next with
  | zero => exact Nat.le_max_left _ _
  | succ fuel ih =>
    rw [Bitsets.doubledBits]
    split_ifs with hbelow hhalf
    · omega
    · exact (ih (next * 2)).trans (by omega)
    · exact Nat.le_max_left _ _

theorem Holds.length_eq (h : Holds w contents) : contents.length = w.buffer.len := by
  rw [← h.start, length_take, h.room, Nat.min_eq_left h.within]

theorem reserve_succeeds (hgrants : Grants libc limit) (hsmall : 32 ≤ limit) (htarget : 2 * target ≤ limit) :
    (reserve libc w target).1 = true := by
  rw [reserve]
  by_cases hroom : target ≤ w.buffer.cap
  · rw [if_pos hroom]
  · rw [if_neg hroom]
    have hnext := doubledBits_le target 64 (if w.buffer.cap > 0 then w.buffer.cap else 32)
    have hfirst : (if w.buffer.cap > 0 then w.buffer.cap else 32) ≤ max 32 target := by
      split_ifs <;> omega
    have hgranted := hgrants (Bitsets.doubledBits target 64 (if w.buffer.cap > 0 then w.buffer.cap else 32))
      (by omega)
    dsimp only
    rw [realloc, if_pos hgranted]

theorem bufAppend_succeeds (hlibc : Limited libc) (hgrants : Grants libc limit) (hsmall : 32 ≤ limit)
    (hw : Holds w contents) (hroom : 2 * (contents.length + src.length) ≤ limit) :
    (bufAppend libc w src).1 = true := by
  have hlimit : limit < 2 ^ 63 := hlibc limit (hgrants limit (Nat.le_refl _))
  have hsum : (w.buffer.len + src.length) % 2 ^ 64 = contents.length + src.length := by
    rw [← hw.length_eq]
    exact Nat.mod_eq_of_lt (by omega)
  have hreserve := reserve_succeeds (w := w) hgrants hsmall hroom
  rw [bufAppend, hsum]
  split
  · rename_i w' hfailed
    rw [hfailed] at hreserve
    exact hreserve
  · rfl

theorem code_succeeds {result : Bool × Writer} (h : result.1 = true) : (code result).1 = 0 := if_pos h

theorem appendValue_succeeds (hlibc : Limited libc) (hgrants : Grants libc limit) (hsmall : 32 ≤ limit)
    {value : Value} (hw : Holds w contents) (hvalue : Valid value)
    (hroom : 2 * (contents.length + (encoded value).length) ≤ limit) : (appendValue libc w value).1 = 0 := by
  have hbytes (width v : Nat) (hv : 2 * (contents.length + (bytesOf width v).length) ≤ limit) :
      (code (bufAppend libc w (bytesOf width v))).1 = 0 :=
    code_succeeds (bufAppend_succeeds hlibc hgrants hsmall hw hv)
  have hu8 (v : Int32) (hv : 0 ≤ v ∧ v ≤ 255) (hroom : 2 * (contents.length + 1) ≤ limit) :
      (appendU8 libc w v).1 = 0 := by
    rw [appendU8_eq w hv]
    exact code_succeeds (bufAppend_succeeds hlibc hgrants hsmall hw hroom)
  cases value with
  | u8 value => exact hu8 value hvalue hroom
  | bool value =>
    apply hu8 _ _ hroom
    split_ifs <;> decide
  | i32 value =>
    rw [appendValue, appendI32, bytesOf_four]
    exact hbytes 4 _ hroom
  | i64 value =>
    rw [appendValue, appendI64, bytesOf_eight]
    exact hbytes 8 _ hroom
  | f32 bits =>
    rw [appendValue, appendF32, appendI32, UInt32.toUInt32_toInt32, bytesOf_four]
    exact hbytes 4 _ hroom
  | f64 bits =>
    rw [appendValue, appendF64, appendI64, UInt64.toUInt64_toInt64, bytesOf_eight]
    exact hbytes 8 _ hroom
  | string text =>
    have hlimit : limit < 2 ^ 63 := hlibc limit (hgrants limit (Nat.le_refl _))
    rw [encoded, length_append] at hroom
    have hsize : (appendI64 libc w (Int64.ofNat text.length)).1 = 0 := by
      rw [appendI64, bytesOf_eight, toNat_length (by omega)]
      exact hbytes 8 _ (by omega)
    have hheld := appendI64_holds hlibc hw (Prod.ext hsize rfl :
      appendI64 libc w (Int64.ofNat text.length) = (0, _))
    rw [toNat_length (by omega)] at hheld
    have htext : 2 * ((contents ++ bytesOf 8 text.length).length + text.length) ≤ limit := by
      rw [length_append]
      omega
    rw [appendValue, appendString, strlen_terminated hvalue, take_left]
    dsimp only
    rw [if_neg (by omega), if_neg (not_not.2 hsize)]
    exact code_succeeds (bufAppend_succeeds hlibc hgrants hsmall hheld htext)

theorem appendAll_succeeds (hlibc : Limited libc) (hgrants : Grants libc limit) (hsmall : 32 ≤ limit)
    (hw : Holds w contents) (hvalues : ∀ value ∈ values, Valid value)
    (hroom : 2 * (contents.length + (values.flatMap encoded).length) ≤ limit) :
    ∀ result ∈ (appendAll libc w values).1, result = 0 := by
  induction values generalizing w contents with
  | nil => exact fun _ h => absurd h not_mem_nil
  | cons value values ih =>
    obtain ⟨hvalue, hothers⟩ := forall_mem_cons.1 hvalues
    rw [flatMap_cons, length_append] at hroom
    have hresult : (appendValue libc w value).1 = 0 :=
      appendValue_succeeds hlibc hgrants hsmall hw hvalue (by omega)
    have hheld := appendValue_holds hlibc hw hvalue (Prod.ext hresult rfl :
      appendValue libc w value = (0, _))
    have hrest : 2 * ((contents ++ encoded value).length + (values.flatMap encoded).length) ≤ limit := by
      rw [length_append]
      omega
    exact forall_mem_cons.2 ⟨hresult, ih hheld hothers hrest⟩

theorem readerNew_succeeds (hgrants : Grants libc limit) {b : Buffer} (hroom : b.len ≤ limit) :
    ∃ r, (readerNew libc b).1 = some r := by
  rw [readerNew]
  split_ifs with hlen
  · rw [malloc, if_pos (hgrants b.len hroom)]
    exact ⟨_, rfl⟩
  · exact ⟨_, rfl⟩

theorem binaryNew_succeeds (hgrants : Grants libc limit) (hsmall : 32 ≤ limit) (hcapacity : 0 ≤ capacity)
    (hroom : capacity.toUInt64.toNat ≤ limit) : ∃ w, (binaryNew libc capacity).1 = some w := by
  have hsize : (if capacity.toUInt64.toNat < 32 then 32 else capacity.toUInt64.toNat) ≤ limit := by
    split_ifs
    · exact hsmall
    · exact hroom
  rw [binaryNew, if_neg (Int64.not_lt.2 hcapacity)]
  dsimp only
  rw [malloc, if_pos (hgrants _ hsize)]
  exact ⟨_, rfl⟩

theorem length_string_le (h : .string text ∈ values) : text.length + 8 ≤ (values.flatMap encoded).length := by
  obtain ⟨before, behind, rfl⟩ := append_of_mem h
  rw [flatMap_append, flatMap_cons, length_append, length_append, encoded, length_append, length_bytesOf]
  omega

/-- Every read succeeds with the value that was appended, and nothing remains to be read. -/
def ReadsBack (libc : Libc) (r : Reading) (values : List Value) : Prop :=
  (readAll libc r (values.map Value.kind)).1 = values.map (fun value => (some value, true)) ∧
    (remaining (readAll libc r (values.map Value.kind)).2).1 = 0

theorem readsBack_of_holds (hheld : Holds w (values.flatMap encoded))
    (hvalues : ∀ value ∈ values, Valid value) (hreader : (readerNew libc w.buffer).1 = some r)
    (hgrants : ∀ text, .string text ∈ values → libc.grants (text.length + 1) = true) :
    ReadsBack libc r values := by
  obtain ⟨hread, hend⟩ := readAll_ahead hvalues hgrants (readerNew_ahead hheld hreader)
  have hleft := hend.length_eq
  refine ⟨hread, ?_⟩
  rw [remaining, ← hleft]
  rfl

/-- Values appended to a fresh buffer are read back whenever the calls report success, and they do
when the allocator has room for twice the bytes of the values. -/
theorem serde_roundTrip (libc : Libc) (hlibc : Limited libc) (capacity : Int64) (values : List Value)
    (hvalues : ∀ value ∈ values, Valid value) :
    (∀ w r, (binaryNew libc capacity).1 = some w → (∀ result ∈ (appendAll libc w values).1, result = 0) →
      (readerNew libc (appendAll libc w values).2.buffer).1 = some r →
      (∀ text, .string text ∈ values → libc.grants (text.length + 1) = true) → ReadsBack libc r values) ∧
    (∀ limit, Grants libc limit → 32 ≤ limit → 0 ≤ capacity → capacity.toUInt64.toNat ≤ limit →
      2 * (values.flatMap encoded).length ≤ limit →
        ∃ w r, (binaryNew libc capacity).1 = some w ∧
          (∀ result ∈ (appendAll libc w values).1, result = 0) ∧
          (readerNew libc (appendAll libc w values).2.buffer).1 = some r ∧ ReadsBack libc r values) := by
  constructor
  · intro w r hnew happended hreader hgrants
    have hheld := appendAll_holds hlibc (binaryNew_holds hlibc hnew) hvalues happended
    exact readsBack_of_holds hheld hvalues hreader hgrants
  · intro limit hgrants hsmall hcapacity hinitial hroom
    obtain ⟨w, hnew⟩ := binaryNew_succeeds hgrants hsmall hcapacity hinitial
    have hfresh := binaryNew_holds hlibc hnew
    have happended := appendAll_succeeds hlibc hgrants hsmall hfresh hvalues
      ((Nat.zero_add _).symm ▸ hroom)
    have hheld := appendAll_holds hlibc hfresh hvalues happended
    rw [nil_append] at hheld
    have hlen : (appendAll libc w values).2.buffer.len ≤ limit := by
      rw [← hheld.length_eq]
      omega
    obtain ⟨r, hreader⟩ := readerNew_succeeds hgrants hlen
    have hstrings : ∀ text, .string text ∈ values → libc.grants (text.length + 1) = true := by
      intro text htext
      have hlength := length_string_le htext
      exact hgrants _ (by omega)
    exact ⟨w, r, hnew, happended, hreader, readsBack_of_holds hheld hvalues hreader hstrings⟩

def roomy : Libc where
  grants n := decide (n < 2 ^ 63)
  fresh _ := 0

/-- One value of every kind, in a buffer of no initial capacity. -/
theorem packet_roundTrip :
    ∃ w r, (binaryNew roomy 0).1 = some w ∧
      (readerNew roomy (appendAll roomy w [.u8 255, .bool 1, .i32 (-2), .i64 (-3), .f32 0x7FC00001,
        .f64 0x8000000000000000, .string [0xC3, 0xA9]]).2.buffer).1 = some r ∧
      ReadsBack roomy r [.u8 255, .bool 1, .i32 (-2), .i64 (-3), .f32 0x7FC00001,
        .f64 0x8000000000000000, .string [0xC3, 0xA9]] := by
  have hlimited : Limited roomy := fun n h => of_decide_eq_true h
  have hgrants : Grants roomy 100 := fun n h => decide_eq_true (Nat.lt_of_le_of_lt h (by decide))
  have hvalid : ∀ value ∈ [Value.u8 255, .bool 1, .i32 (-2), .i64 (-3), .f32 0x7FC00001,
      .f64 0x8000000000000000, .string [0xC3, 0xA9]], Valid value := by
    simp only [forall_mem_cons, Valid]
    exact ⟨by decide, .inr trivial, trivial, trivial, trivial, trivial, by decide,
      fun _ h => absurd h not_mem_nil⟩
  obtain ⟨w, r, hnew, -, hreader, hread⟩ :=
    (serde_roundTrip roomy hlimited 0 _ hvalid).2 100 hgrants (by decide) (by decide) (by decide) (by decide)
  exact ⟨w, r, hnew, hreader, hread⟩

end Mlang.SerdeRoundTrip
