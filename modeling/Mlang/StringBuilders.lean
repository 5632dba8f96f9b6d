import Mlang.RepeatedTexts
import Mlang.Transitions

namespace Mlang.StringBuilders

open SerdeBuffers SerdeRoundTrip RepeatedTexts List Bool Option

structure Builder where
  buf : List UInt8
  len : Nat
  cap : Nat
  pageSize : Nat
  deriving DecidableEq

def sizeMax : Nat := 2 ^ 64 - 1

def sbDefaultPageSize : Nat := 256

def sbRoundUpToPage (need page : Nat) : Option Nat :=
  if page = 0 then none
  else
    let rem := need % page
    if rem = 0 then some need
    else
      let add := page - rem
      if need > sizeMax - add then none else some (need + add)

def sbEnsureCapacity (libc : Libc) (sb : Builder) (additional : Nat) : Bool × Builder :=
  if sb.cap = 0 then (false, sb)
  else if additional > (2 ^ 64 + sizeMax - sb.len - 1) % 2 ^ 64 then (false, sb)
  else
    let need := (sb.len + additional + 1) % 2 ^ 64
    if need ≤ sb.cap then (true, sb)
    else
      let doubled := if sb.cap ≤ sizeMax / 2 then sb.cap * 2 else sizeMax
      match sbRoundUpToPage need sb.pageSize with
      | none => (false, sb)
      | some roundedNeed =>
        let nextCap := if doubled > roundedNeed then doubled else roundedNeed
        if nextCap < need then (false, sb)
        else
          match realloc libc sb.buf nextCap with
          | none => (false, sb)
          | some grown => (true, { sb with buf := grown, cap := nextCap })

/-! Nothing is a write outside of the buffer; else an operation gives its answer and the builder. -/

def builderNew (recordAllocated : Bool) (libc : Libc) (initialCapacity pageSize : Int64) :
    Option (Option Builder) :=
  let page := if pageSize > 0 then pageSize.toUInt64.toNat else sbDefaultPageSize
  let page := if page = 0 then 1 else page
  let init := initialCapacity.toUInt64.toNat
  if initialCapacity > 0 ∧ init > sizeMax - 1 then some none
  else
    let requested := if initialCapacity > 0 then init + 1 else 1
    match sbRoundUpToPage requested page with
    | none => some none
    | some cap =>
      let cap := if cap = 0 then 1 else cap
      if recordAllocated = false then some none
      else
        match malloc libc cap with
        | none => some none
        | some buf =>
          (store buf 0 [0]).map fun buf => some { buf := buf, len := 0, cap := cap, pageSize := page }

def builderCapacity (sb : Builder) : Int64 :=
  if sb.cap = 0 then -1 else Int64.ofNat (sb.cap - 1)

def builderSetPageSize (sb : Builder) (pageSize : Int64) : Int64 × Builder :=
  if pageSize ≤ 0 then (-1, sb)
  else
    let page := pageSize.toUInt64.toNat
    (0, { sb with pageSize := if page = 0 then 1 else page })

def builderClear (sb : Builder) : Option (Int64 × Builder) :=
  (store sb.buf 0 [0]).map fun buf => (0, { sb with buf := buf, len := 0 })

def builderReserve (libc : Libc) (sb : Builder) (minCapacity : Int64) : Int64 × Builder :=
  if minCapacity < 0 then (-1, sb)
  else
    let target := minCapacity.toUInt64.toNat
    if target ≤ sb.len then (0, sb)
    else
      let additional := target - sb.len
      let r := sbEnsureCapacity libc sb additional
      (if r.1 then 0 else -1, r.2)

/-- What `append`, `append_len` and `append_char` do with their bytes. -/
def appendBytes (libc : Libc) (sb : Builder) (bytes : List UInt8) (answer : Int64) :
    Option (Int64 × Builder) :=
  let r := sbEnsureCapacity libc sb bytes.length
  if r.1 = false then some (-1, r.2)
  else do
    let sb := r.2
    let buf ← store sb.buf sb.len bytes
    let len := (sb.len + bytes.length) % 2 ^ 64
    let buf ← store buf len [0]
    return (answer, { sb with buf := buf, len := len })

/-- A C string in memory: its bytes are in front of the terminator. -/
structure CString where
  bytes : List UInt8
  terminated : 0 ∉ bytes
  fits : bytes.length < 2 ^ 64
  deriving DecidableEq

def builderAppend (libc : Libc) (sb : Builder) (s : Option CString) : Option (Int64 × Builder) :=
  match s with
  | none => some (-1, sb)
  | some s => appendBytes libc sb s.bytes (Int64.ofNat s.bytes.length)

def builderAppendLen (libc : Libc) (sb : Builder) (s : Option (Nat → UInt8)) (n : Int64) :
    Option (Int64 × Builder) :=
  match s with
  | none => some (-1, sb)
  | some s =>
    if n < 0 then some (-1, sb)
    else
      let count := n.toUInt64.toNat
      appendBytes libc sb ((List.range count).map s) n

def builderAppendChar (libc : Libc) (sb : Builder) (ch : Int32) : Option (Int64 × Builder) :=
  if ch < 0 ∨ ch > 255 then some (-1, sb)
  else appendBytes libc sb [ch.toUInt32.toUInt8] 1

/-- The buffer is handed out, with a null pointer where there is no fresh one for the builder. -/
def builderTakeString (libc : Libc) (sb : Builder) : Option (Option (List UInt8) × Builder) :=
  let cap := if sb.pageSize = 0 then 1 else sb.pageSize
  match malloc libc cap with
  | none => some (none, sb)
  | some fresh =>
    (store fresh 0 [0]).map fun fresh =>
      (some sb.buf, { sb with buf := fresh, len := 0, cap := cap })

inductive Op
  | setPageSize (pageSize : Int64)
  | reserve (minCapacity : Int64)
  | append (s : Option CString)
  | appendLen (s : Option (Nat → UInt8)) (n : Int64)
  | appendChar (ch : Int32)
  | clear
  | takeString

inductive Answer
  | number (n : Int64)
  | text (s : Option (List UInt8))
  deriving DecidableEq

def Answer.failed : Answer → Bool
  | .number n => n == -1
  | .text s => s.isNone

def numbered (r : Int64 × Builder) : Answer × Builder := (.number r.1, r.2)

def operate (libc : Libc) (sb : Builder) : Op → Option (Answer × Builder)
  | .setPageSize pageSize => some (numbered (builderSetPageSize sb pageSize))
  | .reserve minCapacity => some (numbered (builderReserve libc sb minCapacity))
  | .append s => (builderAppend libc sb s).map numbered
  | .appendLen s n => (builderAppendLen libc sb s n).map numbered
  | .appendChar ch => (builderAppendChar libc sb ch).map numbered
  | .clear => (builderClear sb).map numbered
  | .takeString => (builderTakeString libc sb).map fun r => (.text r.1, r.2)

def Op.contents (held : List UInt8) : Op → List UInt8
  | .setPageSize _ | .reserve _ => held
  | .append s => held ++ (s.map CString.bytes).getD []
  | .appendLen s n => held ++ (s.map (List.range n.toNatClampNeg).map).getD []
  | .appendChar ch => held ++ [ch.toUInt32.toUInt8]
  | .clear | .takeString => []

structure Tracked where
  sb : Builder
  contents : List UInt8

inductive Action
  | new (recordAllocated : Bool) (initialCapacity pageSize : Int64)
  | on (handle : Option Nat) (op : Op)

structure Call where
  libc : Libc
  action : Action

def Tracked.after (t : Tracked) (op : Op) (r : Answer × Builder) : Tracked :=
  { sb := r.2, contents := if r.1.failed then t.contents else op.contents t.contents }

def step (call : Call) (builders : List Tracked) : Option (List Tracked) :=
  match call.action with
  | .new recordAllocated initialCapacity pageSize =>
    (builderNew recordAllocated call.libc initialCapacity pageSize).map fun made =>
      builders ++ (made.map fun sb => { sb := sb, contents := [] }).toList
  | .on handle op =>
    match handle with
    | none => some builders
    | some i =>
      match builders[i]? with
      | none => some builders
      | some t => (operate call.libc t.sb op).map fun r => builders.set i (t.after op r)

/-- The buffer is a block of `cap` bytes, with the contents and a terminator at its start. -/
structure Holds (sb : Builder) (contents : List UInt8) : Prop where
  block : sb.buf.length = sb.cap
  fits : sb.cap < 2 ^ 64
  room : sb.len + 1 ≤ sb.cap
  text : sb.buf.take (sb.len + 1) = contents ++ [0]
  page : 0 < sb.pageSize ∧ sb.pageSize < 2 ^ 64

variable {libc : Libc} {sb : Builder} {contents bytes : List UInt8} {need page size additional : Nat}

theorem roundUp_bounds (h : sbRoundUpToPage need page = some size) (hneed : need < 2 ^ 64) :
    need ≤ size ∧ size < 2 ^ 64 := by
  have hmax : sizeMax = 2 ^ 64 - 1 := rfl
  simp only [sbRoundUpToPage] at h
  split_ifs at h with hpage hrem hover
  · cases h
    exact ⟨Nat.le_refl _, hneed⟩
  · cases h
    have hrest := Nat.mod_lt need (Nat.pos_of_ne_zero hpage)
    have hle := Nat.mod_le need page
    omega

variable (h : Holds sb contents)
include h

theorem Holds.length_contents : contents.length = sb.len := by
  have hlength := congrArg List.length h.text
  rw [length_take, h.block, Nat.min_eq_left h.room, length_append] at hlength
  exact (Nat.succ.inj hlength).symm

theorem Holds.held : sb.buf.take sb.len = contents := by
  have hfront := congrArg (List.take sb.len) h.text
  rw [take_take, Nat.min_eq_left (Nat.le_succ _)] at hfront
  rw [hfront, ← h.length_contents, take_left]

theorem Holds.terminated : sb.buf[sb.len]? = some 0 := by
  rw [← getElem?_take_of_lt (Nat.lt_succ_self _), h.text, ← h.length_contents, getElem?_concat_length]

structure Ensured (sb : Builder) (contents : List UInt8) (additional : Nat) (r : Bool × Builder) : Prop where
  holds : Holds r.2 contents
  len : r.2.len = sb.len
  room : r.1 = true → sb.len + additional + 1 ≤ r.2.cap
  unchanged : r.1 = false → r.2 = sb

theorem ensured_failure : Ensured sb contents additional (false, sb) :=
  ⟨h, rfl, fun hsuccess => (false_ne_true hsuccess).elim, fun _ => rfl⟩

theorem ensure_holds :
    Ensured sb contents additional (sbEnsureCapacity libc sb additional) := by
  have hmax : sizeMax = 2 ^ 64 - 1 := rfl
  have hroom := h.room
  have hfits := h.fits
  simp only [sbEnsureCapacity]
  generalize hdoubled : (if sb.cap ≤ sizeMax / 2 then sb.cap * 2 else sizeMax) = doubled
  have hlimit : doubled < 2 ^ 64 := by split_ifs at hdoubled <;> omega
  split_ifs with hcap hover hneed
  · exact ensured_failure h
  · exact ensured_failure h
  · exact ⟨h, rfl, fun _ => by dsimp only; omega, fun hfailure => (false_ne_true hfailure.symm).elim⟩
  cases hround : sbRoundUpToPage ((sb.len + additional + 1) % 2 ^ 64) sb.pageSize with
  | none => exact ensured_failure h
  | some rounded =>
    obtain ⟨hlow, hhigh⟩ := roundUp_bounds hround (Nat.mod_lt _ (by decide))
    dsimp only
    generalize hnext : (if doubled > rounded then doubled else rounded) = next
    have hbounds : rounded ≤ next ∧ next < 2 ^ 64 := by split_ifs at hnext <;> omega
    rw [if_neg (by omega)]
    cases hgrown : realloc libc sb.buf next with
    | none => exact ensured_failure h
    | some grown =>
      obtain ⟨-, hlength, hkept⟩ := realloc_eq hgrown
      have hblock := h.block
      have hholds : Holds { sb with buf := grown, cap := next } contents :=
        ⟨hlength, hbounds.2, by dsimp only; omega, (hkept (sb.len + 1) (by omega) (by omega)).trans h.text, h.page⟩
      exact ⟨hholds, rfl, fun _ => by dsimp only; omega,
        fun hfailure => (false_ne_true hfailure.symm).elim⟩

theorem store_holds (hroom : sb.len + bytes.length + 1 ≤ sb.cap) :
    ∃ buf buf', store sb.buf sb.len bytes = some buf ∧
      store buf ((sb.len + bytes.length) % 2 ^ 64) [0] = some buf' ∧
      Holds { sb with buf := buf', len := (sb.len + bytes.length) % 2 ^ 64 } (contents ++ bytes) := by
  have hblock := h.block
  have hfits := h.fits
  rw [Nat.mod_eq_of_lt (by omega : sb.len + bytes.length < 2 ^ 64)]
  have hplace : sb.len + bytes.length ≤ sb.buf.length := by omega
  have hwhole : sb.len + (bytes ++ [0]).length ≤ sb.buf.length := by
    rw [length_append, length_singleton]
    omega
  have hlast : sb.len + bytes.length + [(0 : UInt8)].length ≤ (memcpy sb.buf sb.len bytes).length := by
    rw [length_memcpy hplace, length_singleton]
    omega
  have htake := @take_memcpy (bytes ++ [0]) _ _ (Nat.le_of_add_right_le hplace)
  rw [h.held, length_append, ← Nat.add_assoc, ← append_assoc] at htake
  refine ⟨_, _, store_eq hplace, store_eq hlast, ?_⟩
  rw [memcpy_memcpy hplace]
  exact ⟨(length_memcpy hwhole).trans hblock, hfits, hroom, htake, h.page⟩

structure Meets (sb : Builder) (contents after : List UInt8) (failed : Bool) (sb' : Builder) : Prop where
  holds : Holds sb' (if failed then contents else after)
  len : failed = true → sb'.len = sb.len

variable {after : List UInt8} {answer : Int64}

theorem meets_failure : Meets sb contents after true sb := ⟨h, fun _ => rfl⟩

theorem appendBytes_meets (hanswer : bytes.length + 1 < 2 ^ 64 → answer ≠ -1) :
    ∃ r, appendBytes libc sb bytes answer = some r ∧ Meets sb contents (contents ++ bytes) (r.1 == -1) r.2 := by
  have hensured := @ensure_holds libc _ _ bytes.length h
  unfold appendBytes
  generalize sbEnsureCapacity libc sb bytes.length = r at hensured
  obtain ⟨success, sb'⟩ := r
  cases success with
  | false =>
    obtain rfl := hensured.unchanged rfl
    exact ⟨_, rfl, meets_failure h⟩
  | true =>
    have hroom := hensured.room rfl
    rw [← hensured.len] at hroom
    obtain ⟨buf, buf', hfirst, hlast, hholds⟩ := store_holds hensured.holds hroom
    have hfits := hensured.holds.fits
    have hne : (answer == -1) = false := beq_false_of_ne (hanswer (by omega))
    refine ⟨(answer, { sb' with buf := buf', len := (sb'.len + bytes.length) % 2 ^ 64 }), ?_, ?_⟩
    · dsimp only at hfirst hlast ⊢
      rw [if_neg (by decide)]
      simp only [hfirst, hlast, Option.bind_eq_bind, Option.bind_some, Option.pure_def]
    · rw [hne]
      exact ⟨hholds, fun hfailed => (false_ne_true hfailed).elim⟩

omit h

theorem exists_fresh {cap : Nat} (hlength : bytes.length = cap) (hcap : 0 < cap) (hfits : cap < 2 ^ 64)
    (hpage : 0 < page ∧ page < 2 ^ 64) :
    ∃ buf, store bytes 0 [0] = some buf ∧ Holds { buf := buf, len := 0, cap := cap, pageSize := page } [] := by
  have hplace : 0 + [(0 : UInt8)].length ≤ bytes.length := by
    rw [hlength]
    exact hcap
  have htake : (memcpy bytes 0 [0]).take (0 + [(0 : UInt8)].length) = bytes.take 0 ++ [0] :=
    take_memcpy (Nat.zero_le _)
  exact ⟨_, store_eq hplace, (length_memcpy hplace).trans hlength, hfits, hcap, htake, hpage⟩

theorem page_bounds (pageSize : Int64) (h : pageSize > 0) :
    0 < pageSize.toUInt64.toNat ∧ pageSize.toUInt64.toNat < 2 ^ 64 := by
  rw [Int64.toNat_toUInt64_of_le (Int64.le_of_lt h)]
  have hpos := Int64.lt_iff_toInt_lt.1 h
  have hlt := pageSize.toInt_lt
  rw [Int64.toInt_zero] at hpos
  unfold Int64.toNatClampNeg
  omega

theorem builderNew_holds (recordAllocated : Bool) (libc : Libc) (initialCapacity pageSize : Int64) :
    ∃ made, builderNew recordAllocated libc initialCapacity pageSize = some made ∧
      ∀ sb ∈ made, Holds sb [] := by
  have hnone : ∃ made : Option Builder, some none = some made ∧ ∀ sb ∈ made, Holds sb [] :=
    ⟨none, rfl, fun sb hsb => (not_mem_none sb hsb).elim⟩
  have hmax : sizeMax = 2 ^ 64 - 1 := rfl
  simp only [builderNew]
  generalize hpage : (if pageSize > 0 then pageSize.toUInt64.toNat else sbDefaultPageSize) = page
  have hbounds : 0 < page ∧ page < 2 ^ 64 := by
    split_ifs at hpage with hpos
    · exact hpage ▸ page_bounds pageSize hpos
    · exact hpage ▸ ⟨by decide, by decide⟩
  rw [if_neg (Nat.pos_iff_ne_zero.1 hbounds.1)]
  by_cases hover : initialCapacity > 0 ∧ initialCapacity.toUInt64.toNat > sizeMax - 1
  · rw [if_pos hover]
    exact hnone
  rw [if_neg hover]
  generalize hrequested :
    (if initialCapacity > 0 then initialCapacity.toUInt64.toNat + 1 else 1) = requested
  have hsize : 0 < requested ∧ requested < 2 ^ 64 := by
    split_ifs at hrequested with hpos
    · have hsmall := not_and.1 hover hpos
      omega
    · omega
  cases hround : sbRoundUpToPage requested page with
  | none => exact hnone
  | some cap =>
    obtain ⟨hlow, hhigh⟩ := roundUp_bounds hround hsize.2
    dsimp only
    rw [if_neg (by omega : ¬ cap = 0)]
    cases recordAllocated with
    | false => exact hnone
    | true =>
      cases hblock : malloc libc cap with
      | none => exact hnone
      | some block =>
        obtain ⟨buf, hstore, hholds⟩ :=
          exists_fresh (malloc_eq hblock).2 (by omega) hhigh hbounds
        exact ⟨_, congrArg (Option.map _) hstore, fun sb hsb => some.inj hsb ▸ hholds⟩

theorem setPageSize_meets (h : Holds sb contents) (pageSize : Int64) :
    Meets sb contents contents ((builderSetPageSize sb pageSize).1 == -1)
      (builderSetPageSize sb pageSize).2 := by
  unfold builderSetPageSize
  split_ifs with hneg
  · exact meets_failure h
  · have hbounds := page_bounds pageSize (Int64.not_le.1 hneg)
    dsimp only
    rw [if_neg (Nat.pos_iff_ne_zero.1 hbounds.1)]
    exact ⟨⟨h.block, h.fits, h.room, h.text, hbounds⟩, fun _ => rfl⟩

theorem reserve_meets (h : Holds sb contents) (minCapacity : Int64) :
    Meets sb contents contents ((builderReserve libc sb minCapacity).1 == -1)
        (builderReserve libc sb minCapacity).2 ∧
      ((builderReserve libc sb minCapacity).1 ≠ -1 →
        minCapacity.toInt < (builderReserve libc sb minCapacity).2.cap) := by
  have hroom := h.room
  unfold builderReserve
  by_cases hneg : minCapacity < 0
  · rw [if_pos hneg]
    exact ⟨meets_failure h, fun hsuccess => (hsuccess rfl).elim⟩
  have hcast := Int64.toNat_toUInt64_of_le (Int64.not_lt.1 hneg)
  have htarget : minCapacity.toInt ≤ minCapacity.toUInt64.toNat := by
    rw [hcast]
    exact Int.self_le_toNat _
  rw [if_neg hneg]
  dsimp only
  by_cases hlen : minCapacity.toUInt64.toNat ≤ sb.len
  · rw [if_pos hlen]
    exact ⟨⟨h, fun _ => rfl⟩, fun _ => by dsimp only; omega⟩
  rw [if_neg hlen]
  have hensured := @ensure_holds libc _ _ (minCapacity.toUInt64.toNat - sb.len) h
  generalize sbEnsureCapacity libc sb (minCapacity.toUInt64.toNat - sb.len) = r at hensured
  obtain ⟨success, sb'⟩ := r
  cases success with
  | false =>
    obtain rfl := hensured.unchanged rfl
    exact ⟨meets_failure h, fun hsuccess => (hsuccess rfl).elim⟩
  | true =>
    have hcap : sb.len + (minCapacity.toUInt64.toNat - sb.len) + 1 ≤ sb'.cap := hensured.room rfl
    exact ⟨⟨hensured.holds, fun _ => hensured.len⟩, fun _ => by dsimp only; omega⟩

theorem operate_meets (h : Holds sb contents) (op : Op) :
    ∃ r, operate libc sb op = some r ∧ Meets sb contents (op.contents contents) r.1.failed r.2 := by
  have hnumbered {made : Option (Int64 × Builder)} {after : List UInt8}
      (hmade : ∃ r, made = some r ∧ Meets sb contents after (r.1 == -1) r.2) :
      ∃ r, made.map numbered = some r ∧ Meets sb contents after r.1.failed r.2 := by
    obtain ⟨r, rfl, hmeets⟩ := hmade
    exact ⟨numbered r, rfl, hmeets⟩
  cases op with
  | setPageSize pageSize => exact ⟨_, rfl, setPageSize_meets h pageSize⟩
  | reserve minCapacity => exact ⟨_, rfl, (reserve_meets h minCapacity).1⟩
  | append s =>
    apply hnumbered
    cases s with
    | none => exact ⟨_, rfl, meets_failure h⟩
    | some s =>
      refine appendBytes_meets h fun hfits hanswer => ?_
      have hall : (Int64.ofNat s.bytes.length).toUInt64.toNat = 2 ^ 64 - 1 :=
        congrArg (fun n : Int64 => n.toUInt64.toNat) hanswer
      rw [Int64.toUInt64_ofNat', UInt64.toNat_ofNat_of_lt' s.fits] at hall
      omega
  | appendLen s n =>
    apply hnumbered
    cases s with
    | none => exact ⟨_, rfl, meets_failure h⟩
    | some s =>
      dsimp only [builderAppendLen]
      by_cases hneg : n < 0
      · exact ⟨_, if_pos hneg, meets_failure h⟩
      · rw [if_neg hneg, Int64.toNat_toUInt64_of_le (Int64.not_lt.1 hneg)]
        exact appendBytes_meets h fun _ hanswer => hneg (hanswer ▸ by decide)
  | appendChar ch =>
    apply hnumbered
    unfold builderAppendChar
    split_ifs with hrange
    · exact ⟨_, rfl, meets_failure h⟩
    · exact appendBytes_meets h fun _ => by decide
  | clear =>
    have hfresh := exists_fresh h.block (Nat.zero_lt_of_lt h.room) h.fits h.page
    obtain ⟨buf, hstore, hholds⟩ := hfresh
    exact hnumbered ⟨_, congrArg (Option.map _) hstore, hholds, fun hfailed => (false_ne_true hfailed).elim⟩
  | takeString =>
    dsimp only [operate, builderTakeString]
    rw [if_neg (Nat.pos_iff_ne_zero.1 h.page.1)]
    cases hblock : malloc libc sb.pageSize with
    | none => exact ⟨_, rfl, meets_failure h⟩
    | some block =>
      obtain ⟨buf, hstore, hholds⟩ := exists_fresh (malloc_eq hblock).2 h.page.1 h.page.2 h.page
      refine ⟨_, congrArg (fun fresh => Option.map _ (Option.map _ fresh)) hstore, hholds, ?_⟩
      exact fun hfailed => (false_ne_true hfailed).elim

open Transitions (run)

structure Tracked.Sound (t : Tracked) : Prop where
  room : t.sb.len + 1 ≤ t.sb.cap
  terminated : t.sb.buf[t.sb.len]? = some 0
  held : t.sb.buf.take t.sb.len = t.contents
  defined : ∀ libc op, (operate libc t.sb op).isSome
  unchanged : ∀ libc op r, operate libc t.sb op = some r → r.1.failed = true →
    r.2.len = t.sb.len ∧ r.2.buf.take r.2.len = t.contents
  reserved : ∀ libc n r, operate libc t.sb (.reserve n) = some r → r.1.failed = false →
    n.toInt ≤ r.2.cap - 1 ∧ (r.2.cap ≤ 2 ^ 63 → n ≤ builderCapacity r.2)

theorem le_builderCapacity {sb : Builder} {n : Int64} (h : n.toInt < sb.cap) (hpos : 0 < sb.cap)
    (hcap : sb.cap ≤ 2 ^ 63) : n ≤ builderCapacity sb := by
  rw [builderCapacity, if_neg (Nat.pos_iff_ne_zero.1 hpos), Int64.le_iff_toInt_le,
    Int64.toInt_ofNat_of_lt (by omega)]
  omega

theorem sound_of_holds {t : Tracked} (h : Holds t.sb t.contents) : t.Sound where
  room := h.room
  terminated := h.terminated
  held := h.held
  defined := by
    intro libc op
    obtain ⟨r, hr, -⟩ := operate_meets h op
    exact isSome_of_eq_some hr
  unchanged := by
    intro libc op r hr hfailed
    obtain ⟨r', hr', hmeets⟩ := operate_meets h op
    obtain rfl := some.inj (hr.symm.trans hr')
    have hholds := hmeets.holds
    rw [if_pos hfailed] at hholds
    exact ⟨hmeets.len hfailed, hholds.held⟩
  reserved := by
    intro libc n r hr hsuccess
    cases hr
    obtain ⟨hmeets, hroom⟩ := reserve_meets h n
    have hcap := hroom (bne_iff_ne.1 (congrArg not hsuccess))
    have hpos : 0 < (builderReserve libc t.sb n).2.cap := Nat.zero_lt_of_lt hmeets.holds.room
    exact ⟨Int.le_sub_one_of_lt hcap, le_builderCapacity hcap hpos⟩

theorem step_holds (call : Call) {builders : List Tracked} (h : ∀ t ∈ builders, Holds t.sb t.contents) :
    ∃ builders', step call builders = some builders' ∧ ∀ t ∈ builders', Holds t.sb t.contents := by
  obtain ⟨libc, action⟩ := call
  cases action with
  | new recordAllocated initialCapacity pageSize =>
    obtain ⟨made, hmade, hholds⟩ := builderNew_holds recordAllocated libc initialCapacity pageSize
    refine ⟨_, congrArg (Option.map _) hmade, ?_⟩
    intro t ht
    rcases List.mem_append.1 ht with hold | hnew
    · exact h t hold
    · obtain ⟨sb, hsb, rfl⟩ := map_eq_some_iff.1 (mem_toList.1 hnew)
      exact hholds sb hsb
  | on handle op =>
    cases handle with
    | none => exact ⟨builders, rfl, h⟩
    | some i =>
      cases hi : builders[i]? with
      | none => exact ⟨builders, by simp only [step, hi], h⟩
      | some t =>
        obtain ⟨r, hr, hmeets⟩ :=
          @operate_meets libc _ _ (h t (mem_of_getElem? hi)) op
        refine ⟨builders.set i (t.after op r), by simp only [step, hi, hr, map_some], ?_⟩
        intro t' ht'
        rcases mem_or_eq_of_mem_set ht' with hold | rfl
        · exact h t' hold
        · exact hmeets.holds

theorem run_holds (calls : List Call) {builders : List Tracked}
    (h : ∀ t ∈ builders, Holds t.sb t.contents) :
    ∃ builders', run step calls builders = some builders' ∧ ∀ t ∈ builders', Holds t.sb t.contents := by
  induction calls generalizing builders with
  | nil => exact ⟨builders, rfl, h⟩
  | cons call calls ih =>
    obtain ⟨next, hnext, hholds⟩ := step_holds call h
    obtain ⟨builders', hrun, hend⟩ := ih hholds
    exact ⟨builders', by rw [run, hnext, Option.bind_some, hrun], hend⟩

/-- No sequence of calls writes outside of a buffer, and all keep what is promised of every builder. -/
theorem builders_sound (calls : List Call) :
    ∃ builders, run step calls [] = some builders ∧ ∀ t ∈ builders, t.Sound := by
  obtain ⟨builders, hrun, hholds⟩ := run_holds calls (forall_mem_nil _)
  exact ⟨builders, hrun, fun t ht => sound_of_holds (hholds t ht)⟩

end Mlang.StringBuilders
