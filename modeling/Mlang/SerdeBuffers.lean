import Mlang.Bitsets

namespace Mlang.SerdeBuffers

/-- The allocator: the sizes it has room for, and what stands in a block it hands out. -/
structure Libc where
  grants : Nat → Bool
  fresh : Nat → UInt8

def malloc (libc : Libc) (size : Nat) : Option (List UInt8) :=
  if libc.grants size then some ((List.range size).map libc.fresh) else none

def realloc (libc : Libc) (block : List UInt8) (size : Nat) : Option (List UInt8) :=
  if libc.grants size then some ((List.range size).map fun i => block.getD i (libc.fresh i)) else none

def memcpy (block : List UInt8) (offset : Nat) (src : List UInt8) : List UInt8 :=
  block.take offset ++ src ++ block.drop (offset + src.length)

def strlen (s : List UInt8) : Nat := (s.takeWhile (· ≠ 0)).length

structure Status where
  lastOk : Bool
  lastError : String
  deriving DecidableEq

def setOk : Status := { lastOk := true, lastError := "" }

def setError (msg : String) : Status := { lastOk := false, lastError := msg }

structure Buffer where
  data : List UInt8
  len : Nat
  cap : Nat
  deriving DecidableEq

structure Writer where
  buffer : Buffer
  status : Status
  deriving DecidableEq

def Writer.ok (w : Writer) : Writer := { w with status := setOk }

def Writer.fail (w : Writer) (msg : String) : Writer := { w with status := setError msg }

def reserve (libc : Libc) (w : Writer) (target : Nat) : Bool × Writer :=
  if target ≤ w.buffer.cap then (true, w.ok)
  else
    -- the loop is the one that doubles the capacity of a bit set
    let next := Bitsets.doubledBits target 64 (if w.buffer.cap > 0 then w.buffer.cap else 32)
    match realloc libc w.buffer.data next with
    | none => (false, w.fail "allocation failed")
    | some grown => (true, Writer.ok { w with buffer := { w.buffer with data := grown, cap := next } })

def bufAppend (libc : Libc) (w : Writer) (src : List UInt8) : Bool × Writer :=
  match reserve libc w ((w.buffer.len + src.length) % 2 ^ 64) with
  | (false, w) => (false, w)
  | (true, w) =>
    let buffer := { w.buffer with
      data := memcpy w.buffer.data w.buffer.len src
      len := (w.buffer.len + src.length) % 2 ^ 64 }
    (true, Writer.ok { w with buffer := buffer })

def binaryNew (libc : Libc) (initialCapacity : Int64) : Option Writer × Status :=
  if initialCapacity < 0 then (none, setError "initial_capacity must be >= 0")
  else
    let cap := initialCapacity.toUInt64.toNat
    let cap := if cap < 32 then 32 else cap
    match malloc libc cap with
    | none => (none, setError "allocation failed")
    | some data => (some { buffer := { data := data, len := 0, cap := cap }, status := setOk }, setOk)

def code (r : Bool × Writer) : Int32 × Writer := (if r.1 then 0 else -1, r.2)

def appendU8 (libc : Libc) (w : Writer) (value : Int32) : Int32 × Writer :=
  if value < 0 ∨ value > 255 then (-1, w.fail "u8 value out of range")
  else code (bufAppend libc w [value.toUInt32.toUInt8])

def appendBool (libc : Libc) (w : Writer) (value : Int32) : Int32 × Writer :=
  appendU8 libc w (if value ≠ 0 then 1 else 0)

def appendI32 (libc : Libc) (w : Writer) (value : Int32) : Int32 × Writer :=
  let v := value.toUInt32.toNat
  code (bufAppend libc w
    [.ofNat (v &&& 0xFF), .ofNat (v >>> 8 &&& 0xFF), .ofNat (v >>> 16 &&& 0xFF), .ofNat (v >>> 24 &&& 0xFF)])

def appendI64 (libc : Libc) (w : Writer) (value : Int64) : Int32 × Writer :=
  let v := value.toUInt64.toNat
  code (bufAppend libc w
    [.ofNat (v &&& 0xFF), .ofNat (v >>> 8 &&& 0xFF), .ofNat (v >>> 16 &&& 0xFF), .ofNat (v >>> 24 &&& 0xFF),
      .ofNat (v >>> 32 &&& 0xFF), .ofNat (v >>> 40 &&& 0xFF), .ofNat (v >>> 48 &&& 0xFF),
      .ofNat (v >>> 56 &&& 0xFF)])

def appendF32 (libc : Libc) (w : Writer) (bits : UInt32) : Int32 × Writer := appendI32 libc w bits.toInt32

def appendF64 (libc : Libc) (w : Writer) (bits : UInt64) : Int32 × Writer := appendI64 libc w bits.toInt64

def appendString (libc : Libc) (w : Writer) (s : List UInt8) : Int32 × Writer :=
  let n := strlen s
  if n > 2 ^ 63 - 1 then (-1, w.fail "string too large")
  else
    let (result, w) := appendI64 libc w (Int64.ofNat n)
    if result ≠ 0 then (-1, w) else code (bufAppend libc w (s.take n))

structure Reader where
  data : List UInt8
  len : Nat
  pos : Nat
  deriving DecidableEq

structure Reading where
  reader : Reader
  status : Status
  deriving DecidableEq

def Reading.ok (r : Reading) : Reading := { r with status := setOk }

def Reading.fail (r : Reading) (msg : String) : Reading := { r with status := setError msg }

def readerNew (libc : Libc) (b : Buffer) : Option Reading × Status :=
  if b.len > 0 then
    match malloc libc b.len with
    | none => (none, setError "allocation failed")
    | some block =>
      let data := memcpy block 0 (b.data.take b.len)
      (some { reader := { data := data, len := b.len, pos := 0 }, status := setOk }, setOk)
  else (some { reader := { data := [], len := b.len, pos := 0 }, status := setOk }, setOk)

def remaining (r : Reading) : Int64 × Reading := (Int64.ofNat (r.reader.len - r.reader.pos), r.ok)

def readBytes (r : Reading) (n : Nat) : Option (List UInt8) × Reading :=
  if (r.reader.pos + n) % 2 ^ 64 > r.reader.len then (none, r.fail "unexpected end of binary")
  else
    let bytes := (r.reader.data.drop r.reader.pos).take n
    (some bytes, Reading.ok { r with reader := { r.reader with pos := (r.reader.pos + n) % 2 ^ 64 } })

def readU8 (r : Reading) : Int32 × Reading :=
  match readBytes r 1 with
  | (none, r) => (-1, r)
  | (some bytes, r) => ((bytes.getD 0 0).toUInt32.toInt32, r)

def readBool (r : Reading) : Int32 × Reading :=
  let (v, r) := readU8 r
  if r.status.lastOk = false then (-1, r) else (if v = 0 then 0 else 1, r.ok)

def readI32 (r : Reading) : Int32 × Reading :=
  match readBytes r 4 with
  | (none, r) => (0, r)
  | (some raw, r) =>
    let v := (raw.getD 0 0).toNat ||| (raw.getD 1 0).toNat <<< 8 ||| (raw.getD 2 0).toNat <<< 16 |||
      (raw.getD 3 0).toNat <<< 24
    ((UInt32.ofNat v).toInt32, r.ok)

def readI64 (r : Reading) : Int64 × Reading :=
  match readBytes r 8 with
  | (none, r) => (0, r)
  | (some raw, r) =>
    let v := (raw.getD 0 0).toNat ||| (raw.getD 1 0).toNat <<< 8 ||| (raw.getD 2 0).toNat <<< 16 |||
      (raw.getD 3 0).toNat <<< 24 ||| (raw.getD 4 0).toNat <<< 32 ||| (raw.getD 5 0).toNat <<< 40 |||
      (raw.getD 6 0).toNat <<< 48 ||| (raw.getD 7 0).toNat <<< 56
    ((UInt64.ofNat v).toInt64, r.ok)

def readF32 (r : Reading) : UInt32 × Reading :=
  let (v, r) := readI32 r
  if r.status.lastOk = false then (0, r) else (v.toUInt32, r.ok)

def readF64 (r : Reading) : UInt64 × Reading :=
  let (v, r) := readI64 r
  if r.status.lastOk = false then (0, r) else (v.toUInt64, r.ok)

def readString (libc : Libc) (r : Reading) : Option (List UInt8) × Reading :=
  let (n, r) := readI64 r
  if r.status.lastOk = false then (none, r)
  else if n < 0 then (none, r.fail "negative string length")
  else
    let n := n.toUInt64.toNat
    if n > r.reader.len - r.reader.pos then
      (none, r.fail "unexpected end of binary while reading string")
    else
      match malloc libc ((n + 1) % 2 ^ 64) with
      | none => (none, r.fail "allocation failed")
      | some out =>
        let out := memcpy out 0 ((r.reader.data.drop r.reader.pos).take n)
        (some (out.set n 0), Reading.ok { r with reader := { r.reader with pos := r.reader.pos + n } })

inductive Value
  | u8 (value : Int32)
  | bool (value : Int32)
  | i32 (value : Int32)
  | i64 (value : Int64)
  | f32 (bits : UInt32)
  | f64 (bits : UInt64)
  | string (text : List UInt8)
  deriving DecidableEq

inductive Kind
  | u8 | bool | i32 | i64 | f32 | f64 | string
  deriving DecidableEq

def Value.kind : Value → Kind
  | .u8 _ => .u8
  | .bool _ => .bool
  | .i32 _ => .i32
  | .i64 _ => .i64
  | .f32 _ => .f32
  | .f64 _ => .f64
  | .string _ => .string

def appendValue (libc : Libc) (w : Writer) : Value → Int32 × Writer
  | .u8 value => appendU8 libc w value
  | .bool value => appendBool libc w value
  | .i32 value => appendI32 libc w value
  | .i64 value => appendI64 libc w value
  | .f32 bits => appendF32 libc w bits
  | .f64 bits => appendF64 libc w bits
  | .string text => appendString libc w (text ++ [0])

def appendAll (libc : Libc) (w : Writer) : List Value → List Int32 × Writer
  | [] => ([], w)
  | value :: values =>
    let (result, w) := appendValue libc w value
    let (results, w) := appendAll libc w values
    (result :: results, w)

def readValue (libc : Libc) (r : Reading) : Kind → Option Value × Reading
  | .u8 => ((readU8 r).1 |> .u8 |> some, (readU8 r).2)
  | .bool => ((readBool r).1 |> .bool |> some, (readBool r).2)
  | .i32 => ((readI32 r).1 |> .i32 |> some, (readI32 r).2)
  | .i64 => ((readI64 r).1 |> .i64 |> some, (readI64 r).2)
  | .f32 => ((readF32 r).1 |> .f32 |> some, (readF32 r).2)
  | .f64 => ((readF64 r).1 |> .f64 |> some, (readF64 r).2)
  | .string => ((readString libc r).1.map fun block => .string (block.take (strlen block)), (readString libc r).2)

def readAll (libc : Libc) (r : Reading) : List Kind → List (Option Value × Bool) × Reading
  | [] => ([], r)
  | kind :: kinds =>
    let (value, r) := readValue libc r kind
    let (values, last) := readAll libc r kinds
    ((value, r.status.lastOk) :: values, last)

end Mlang.SerdeBuffers
