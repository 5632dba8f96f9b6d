import Mlang.WordBits

namespace Mlang.Bitsets

open WordBits

abbrev I32 := BitVec 32
abbrev I64 := BitVec 64

structure Bitset where
  words : List Word
  lenBits : Nat
  capBits : Nat
  deriving DecidableEq

def wordsForBits (bits : Nat) : Nat := if bits = 0 then 0 else (bits + 63) / 64

def doubledBits (target : Nat) : Nat → Nat → Nat
  | 0, next => next
  | fuel + 1, next =>
    if next < target then
      if next > (2 ^ 64 - 1) / 2 then target else doubledBits target fuel (next * 2)
    else next

def ensureCapacity (b : Bitset) (target : Nat) : Bitset :=
  if target ≤ b.capBits then b
  else
    let next := doubledBits target 64 (if b.capBits > 0 then b.capBits else 64)
    { b with
      words := b.words ++ List.replicate (wordsForBits next - wordsForBits b.capBits) 0
      capBits := next }

def maskOf (idx : Nat) : Word := 1#64 <<< (idx % 64)

def setBit (b : Bitset) (idx : Nat) (value : Int) : Bitset × Int :=
  if idx ≥ b.lenBits then (b, -1)
  else
    let w := b.words.getD (idx / 64) 0
    let w := if value ≠ 0 then w ||| maskOf idx else w &&& ~~~ maskOf idx
    ({ b with words := b.words.set (idx / 64) w }, 0)

def getBit (b : Bitset) (idx : Nat) : Int :=
  if idx ≥ b.lenBits then -1
  else if b.words.getD (idx / 64) 0 &&& maskOf idx ≠ 0 then 1 else 0

def maskTail (b : Bitset) : Bitset :=
  let rem := b.lenBits % 64
  if b.lenBits = 0 ∨ rem = 0 then b
  else
    let last := wordsForBits b.lenBits - 1
    { b with words := b.words.set last (b.words.getD last 0 &&& (1#64 <<< rem - 1#64)) }

/-- The number as a value of the type `int64_t`. -/
def int64T (n : Nat) : Int := (BitVec.ofNat 64 n).toInt

def new (bitCapacity : Int) : Option Bitset :=
  if bitCapacity < 0 then none
  else some (ensureCapacity { words := [], lenBits := 0, capBits := 0 } bitCapacity.toNat)

def len (b : Bitset) : Int := int64T b.lenBits

def get (b : Bitset) (index : Int) : Int := if index < 0 then -1 else getBit b index.toNat

def countOnes (b : Bitset) : Int := int64T (countWords b.words (wordsForBits b.lenBits) % 2 ^ 64)

def fitsU64 (b : Bitset) : Int :=
  if (List.range' 1 (wordsForBits b.lenBits - 1)).any fun i => b.words.getD i 0 ≠ 0 then 0 else 1

def toU64 (b : Bitset) : Word :=
  if fitsU64 b = 0 then 0
  else if wordsForBits b.lenBits = 0 then 0
  else b.words.getD 0 0

def clear (b : Bitset) : Bitset × Int := ({ b with lenBits := 0 }, 0)

def resize (b : Bitset) (newLen : Int) (fillBit : Int) : Bitset × Int :=
  if newLen < 0 then (b, -1)
  else if fillBit ≠ 0 ∧ fillBit ≠ 1 then (b, -1)
  else
    let oldLen := b.lenBits
    let nextLen := newLen.toNat
    let b := { ensureCapacity b nextLen with lenBits := nextLen }
    let b := (List.range' oldLen (nextLen - oldLen)).foldl (fun b i => (setBit b i fillBit).1) b
    (maskTail b, 0)

def set (b : Bitset) (index value : Int) : Bitset × Int :=
  if index < 0 then (b, -1)
  else if value ≠ 0 ∧ value ≠ 1 then (b, -1)
  else setBit b index.toNat value

def toggle (b : Bitset) (index : Int) : Bitset × Int :=
  if index < 0 then (b, -1)
  else
    let v := getBit b index.toNat
    if v < 0 then (b, -1) else setBit b index.toNat (if v = 0 then 1 else 0)

def push (b : Bitset) (value : Int) : Bitset × Int :=
  if value ≠ 0 ∧ value ≠ 1 then (b, -1)
  else
    let b := ensureCapacity b (b.lenBits + 1)
    let b := { b with lenBits := b.lenBits + 1 }
    setBit b (b.lenBits - 1) value

def pop (b : Bitset) : Bitset × Int :=
  if b.lenBits = 0 then (b, -1)
  else
    let v := getBit b (b.lenBits - 1)
    (maskTail { b with lenBits := b.lenBits - 1 }, v)

def sweepWords (f : List Word → Nat → Word) (b : Bitset) : Bitset :=
  { b with words := sweep f (List.range (wordsForBits b.lenBits)) b.words }

def setAll (b : Bitset) : Bitset × Int := (maskTail (sweepWords (fun _ _ => BitVec.allOnes 64) b), 0)

/-- The words of the bits are cleared by one `memset`. -/
def clearWords (b : Bitset) : Bitset := sweepWords (fun _ _ => 0) b

def reset (b : Bitset) : Bitset × Int := (clearWords b, 0)

def notEq (b : Bitset) : Bitset × Int :=
  (maskTail (sweepWords (fun ws i => ~~~ ws.getD i 0) b), 0)

inductive BitOp
  | and
  | or
  | xor
  deriving DecidableEq

def BitOp.word : BitOp → Word → Word → Word
  | .and, x, y => x &&& y
  | .or, x, y => x ||| y
  | .xor, x, y => x ^^^ y

/-- `and_eq`, `or_eq` and `xor_eq`. -/
def combineEq (op : BitOp) (aliased : Bool) (lhs rhs : Bitset) : Bitset × Int :=
  if lhs.lenBits ≠ rhs.lenBits then (lhs, -1)
  else
    (maskTail (sweepWords
      (fun ws i => op.word (ws.getD i 0) ((if aliased then ws else rhs.words).getD i 0)) lhs), 0)

def leftWord (wholeWords bitShift : Nat) (ws : List Word) (i : Nat) : Word :=
  if i ≥ wholeWords then
    let source := i - wholeWords
    let shifted := ws.getD source 0 <<< bitShift
    if bitShift > 0 ∧ source > 0 then shifted ||| ws.getD (source - 1) 0 >>> (64 - bitShift)
    else shifted
  else 0

def shiftLeft (b : Bitset) (amount : Int) : Bitset × Int :=
  if amount < 0 then (b, -1)
  else if amount.toNat ≥ b.lenBits then (clearWords b, 0)
  else
    let shifted := leftWord (amount.toNat / 64) (amount.toNat % 64)
    (maskTail { b with
      words := sweep shifted (List.range (wordsForBits b.lenBits)).reverse b.words }, 0)

def rightWord (words wholeWords bitShift : Nat) (ws : List Word) (i : Nat) : Word :=
  let source := i + wholeWords
  if source < words then
    let shifted := ws.getD source 0 >>> bitShift
    if bitShift > 0 ∧ source + 1 < words then shifted ||| ws.getD (source + 1) 0 <<< (64 - bitShift)
    else shifted
  else 0

def shiftRight (b : Bitset) (amount : Int) : Bitset × Int :=
  if amount < 0 then (b, -1)
  else if amount.toNat ≥ b.lenBits then (clearWords b, 0)
  else
    let shifted := rightWord (wordsForBits b.lenBits) (amount.toNat / 64) (amount.toNat % 64)
    (maskTail (sweepWords shifted b), 0)

def fromU64 (value : Word) : Option Bitset :=
  (new 64).map fun b => { b with lenBits := 64, words := b.words.set 0 value }

def opOf (operation : Int) : Option BitOp :=
  if operation < 0 ∨ operation > 2 then none
  else if operation = 0 then some .and
  else if operation = 1 then some .or
  else some .xor

def output (lenBits : Nat) (f : Nat → Word) : Option Bitset :=
  (new (int64T lenBits)).map fun b => maskTail (sweepWords (fun _ i => f i) { b with lenBits := lenBits })

def bitwiseCopy (lhs rhs : Bitset) (operation : Int) : Option Bitset :=
  match opOf operation with
  | none => none
  | some op =>
    if lhs.lenBits ≠ rhs.lenBits then none
    else output lhs.lenBits fun i => op.word (lhs.words.getD i 0) (rhs.words.getD i 0)

def complementCopy (input : Bitset) : Option Bitset :=
  output input.lenBits fun i => ~~~ input.words.getD i 0

end Mlang.Bitsets
