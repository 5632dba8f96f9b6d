import Mathlib
import Mlang.ByteStreams

namespace Mlang.JsonrpcFrames

open ByteStreams

/-- What the process reads from. Its end shows as a hang-up without input where it is a pipe. -/
structure Input where
  events : List (Event UInt8)
  hangsUp : Bool := false
  lastError : String := ""
  deriving DecidableEq

def Input.setError (s : Input) (msg : String) : Input := { s with lastError := msg }

def Input.blame (s : Input) (msg : String) : Input := if s.lastError = "" then s.setError msg else s

inductive Byte
  | got (b : UInt8)
  | ended
  | failed
  | timedOut
  deriving DecidableEq

def readByteWithTimeout (timed : Bool) (s : Input) : Byte × Input :=
  let (ready, events) := if timed then poll s.events else (true, s.events)
  if !ready then (.timedOut, { s with events := events })
  else if timed && s.hangsUp && events.isEmpty then (.failed, { s with events := events })
  else
    match receive 1 events with
    | (b :: _, events) => (.got b, { s with events := events })
    | ([], events) => (.ended, { s with events := events })

structure LineRead where
  rc : Int
  line : List UInt8
  input : Input
  deriving DecidableEq

def readLineLoop (timed : Bool) (cap : Nat) : Nat → List UInt8 → Input → LineRead
  | 0, line, s => ⟨-1, line, s⟩
  | fuel + 1, line, s =>
    match readByteWithTimeout timed s with
    | (.timedOut, s) => ⟨-2, line, s⟩
    | (.ended, s) => ⟨if line.length = 0 then 0 else line.length, line, s⟩
    | (.failed, s) => ⟨if line.length = 0 then -1 else line.length, line, s⟩
    | (.got ch, s) =>
      if ch = 10 then ⟨line.length, line, s⟩
      else if ch = 13 then readLineLoop timed cap fuel line s
      else if line.length + 1 ≥ cap then
        ⟨-1, line, s.setError "std::jsonrpc: header line too long"⟩
      else readLineLoop timed cap fuel (line ++ [ch]) s

def readLineFd (timed : Bool) (s : Input) : LineRead :=
  readLineLoop timed 1024 (s.events.length + 1) [] s

/-- No buffer has as many bytes as the largest `ssize_t`, and `read` refuses the address range. -/
def ssizeMax : Nat := 2 ^ 63 - 1

def readExactFd (timed : Bool) (s : Input) (n : Nat) : Bool × List UInt8 × Input :=
  if n ≥ ssizeMax then (false, [], { s with events := if timed then (poll s.events).2 else s.events })
  else
    let reading := receiveAll timed n n s.events
    (reading.outcome = .complete, reading.got, { s with events := reading.rest })

/-- Signed overflow is undefined in C: here the operations wrap, and the overflow is recorded. -/
structure Length where
  value : Int
  overflows : Bool := false
  deriving DecidableEq

def int64Max : Int := 2 ^ 63 - 1

def Length.compute (l : Length) (exactly : Int) : Length where
  value := exactly.bmod (2 ^ 64)
  overflows := l.overflows || !(decide (-2 ^ 63 ≤ exactly) && decide (exactly ≤ int64Max))

def tolower (b : UInt8) : UInt8 := if 65 ≤ b ∧ b ≤ 90 then b + 32 else b

def startsWithCi : List UInt8 → List UInt8 → Bool
  | _, [] => true
  | [], _ :: _ => false
  | t :: text, p :: start =>
    if t = 0 then false else if tolower t ≠ tolower p then false else startsWithCi text start

def contentLengthField : List UInt8 := "Content-Length:".toList.map fun c => .ofNat c.toNat

def isBlank (b : UInt8) : Bool := b = 32 || b = 9

def isDigit (b : UInt8) : Bool := 48 ≤ b && b ≤ 57

def accumulate (l : Length) (b : UInt8) : Length :=
  let l := l.compute (l.value * 10)
  l.compute (l.value + (b.toNat - 48))

def parseContentLength (line : List UInt8) : Length :=
  if !startsWithCi line contentLengthField then { value := -1 }
  else
    let p := (line.drop 15).dropWhile isBlank
    if p.takeWhile isDigit = [] then { value := -1 }
    else (p.takeWhile isDigit).foldl accumulate { value := 0 }

structure HeaderRead where
  rc : Int
  contentLength : Length
  input : Input
  deriving DecidableEq

def Length.update (l parsed : Length) : Length where
  value := if parsed.value ≥ 0 then parsed.value else l.value
  overflows := l.overflows || parsed.overflows

def readHeader (timed : Bool) : Nat → Length → Input → HeaderRead
  | 0, contentLength, s => ⟨-1, contentLength, s⟩
  | fuel + 1, contentLength, s =>
    let r := readLineFd timed s
    if r.rc = -2 then ⟨-2, contentLength, r.input⟩
    else if r.rc < 0 then
      ⟨-1, contentLength, r.input.blame "std::jsonrpc: failed to read frame header"⟩
    else if r.rc = 0 then ⟨0, contentLength, r.input⟩
    else readHeader timed fuel (contentLength.update (parseContentLength r.line)) r.input

def drain (timed : Bool) : Nat → Nat → Input → Input
  | 0, _, s => s
  | fuel + 1, remaining, s =>
    if remaining = 0 then s
    else
      let chunk := if remaining > 256 then 256 else remaining
      match readExactFd timed s chunk with
      | (false, _, s) => s
      | (true, _, s) => drain timed fuel (remaining - chunk) s

/-- What the call returns, the bytes that it stores from `buf` on, the place of the NUL, and whether
an operation on the length overflowed. -/
structure FrameRead where
  rc : Int
  stored : List UInt8 := []
  terminator : Option Int := none
  overflows : Bool
  input : Input
  deriving DecidableEq

def readPayload (timed : Bool) (capacity : Int) (l : Length) (s : Input) : FrameRead :=
  if l.value < 0 then
    { rc := -1, overflows := l.overflows
      input := s.setError "std::jsonrpc: missing Content-Length header" }
  else
    let needed := l.compute (l.value + 1)
    -- A build that tests `l.value ≥ capacity` for an overflowing sum drains the stream instead.
    -- Nothing is stored either way: `read` refuses the request.
    if needed.value > capacity then
      { rc := -3, overflows := needed.overflows
        input := (drain timed l.value.toNat l.value.toNat s).setError
          "std::jsonrpc: payload exceeds destination buffer" }
    else
      match readExactFd timed s l.value.toNat with
      | (false, stored, s) =>
        { rc := -1, stored := stored, overflows := needed.overflows
          input := s.blame "std::jsonrpc: failed to read frame payload" }
      | (true, stored, s) =>
        { rc := l.value, stored := stored, terminator := some l.value
          overflows := needed.overflows, input := s.setError "" }

def readFrameImpl (timed : Bool) (capacity : Int) (s : Input) : FrameRead :=
  if capacity ≤ 1 then
    { rc := -1, overflows := false, input := s.setError "std::jsonrpc: invalid output buffer" }
  else
    let header := readHeader timed (s.events.length + 1) { value := -1 } s
    if header.rc < 0 then
      { rc := header.rc, overflows := header.contentLength.overflows, input := header.input }
    else readPayload timed capacity header.contentLength header.input

end Mlang.JsonrpcFrames

namespace Mlang.FrameLengths

open ByteStreams JsonrpcFrames List

inductive Ending
  | newline
  | ended
  | timedOut
  | tooLong
  deriving DecidableEq

structure Line where
  ending : Ending
  text : List UInt8
  rest : List (Event UInt8)

def lineOf (timed : Bool) : List UInt8 → List (Event UInt8) → Line
  | line, [] => ⟨.ended, line, []⟩
  | line, .item b :: s =>
    if b = 10 then ⟨.newline, line, s⟩
    else if b = 13 then lineOf timed line s
    else if line.length + 1 ≥ 1024 then ⟨.tooLong, line, s⟩
    else lineOf timed (line ++ [b]) s
  | line, .gap :: s => lineOf timed line s
  | line, .pause :: s => if timed then ⟨.timedOut, line, s⟩ else lineOf timed line s

structure Header where
  ending : Ending
  lines : List (List UInt8)
  rest : List (Event UInt8)

def Header.cons (line : List UInt8) (h : Header) : Header := { h with lines := line :: h.lines }

/-- The header of a stream: its lines up to the first empty one, and what follows. -/
def headerOf (timed : Bool) : List UInt8 → List (Event UInt8) → Header
  | line, [] => ⟨.ended, if line = [] then [] else [line], []⟩
  | line, .item b :: s =>
    if b = 10 then if line = [] then ⟨.newline, [], s⟩ else (headerOf timed [] s).cons line
    else if b = 13 then headerOf timed line s
    else if line.length + 1 ≥ 1024 then ⟨.tooLong, [], s⟩
    else headerOf timed (line ++ [b]) s
  | line, .gap :: s => headerOf timed line s
  | line, .pause :: s => if timed then ⟨.timedOut, [], s⟩ else headerOf timed line s

def Header.ofLine (timed : Bool) (l : Line) : Header :=
  match l.ending with
  | .newline | .ended =>
    if l.text = [] then ⟨l.ending, [], l.rest⟩ else (headerOf timed [] l.rest).cons l.text
  | .timedOut | .tooLong => ⟨l.ending, [], l.rest⟩

theorem headerOf_eq (timed : Bool) (line : List UInt8) (s : List (Event UInt8)) :
    headerOf timed line s = .ofLine timed (lineOf timed line s) := by
  induction s generalizing line with
  | nil =>
    rw [headerOf, lineOf, Header.ofLine]
    split_ifs <;> rfl
  | cons event s ih =>
    cases event with
    | gap => exact ih line
    | pause =>
      rw [headerOf, lineOf]
      split_ifs
      · rfl
      · exact ih line
    | item b =>
      rw [headerOf, lineOf]
      split_ifs <;> first | rfl | exact ih _ | skip
      · rename_i hempty
        rw [Header.ofLine, if_pos hempty]
      · rename_i hsome
        rw [Header.ofLine, if_neg hsome]

theorem length_lineOf (timed : Bool) (line : List UInt8) (s : List (Event UInt8)) :
    (lineOf timed line s).rest.length ≤ s.length ∧
      ((lineOf timed line s).text ≠ line → (lineOf timed line s).rest.length < s.length) := by
  induction s generalizing line with
  | nil => exact ⟨Nat.le_refl _, fun h => absurd rfl h⟩
  | cons event s ih =>
    obtain ⟨hle, hlt⟩ := ih line
    cases event with
    | gap => exact ⟨Nat.le_succ_of_le hle, fun _ => Nat.lt_succ_of_le hle⟩
    | pause =>
      rw [lineOf]
      split_ifs
      · exact ⟨Nat.le_succ _, fun _ => Nat.lt_succ_self _⟩
      · exact ⟨Nat.le_succ_of_le hle, fun _ => Nat.lt_succ_of_le hle⟩
    | item b =>
      rw [lineOf]
      split_ifs
      · exact ⟨Nat.le_succ _, fun _ => Nat.lt_succ_self _⟩
      · exact ⟨Nat.le_succ_of_le hle, fun _ => Nat.lt_succ_of_le hle⟩
      · exact ⟨Nat.le_succ _, fun _ => Nat.lt_succ_self _⟩
      · have hle' := (ih (line ++ [b])).1
        exact ⟨Nat.le_succ_of_le hle', fun _ => Nat.lt_succ_of_le hle'⟩

variable {timed : Bool} {s : Input} {fuel : Nat} {b : UInt8}

def Input.Fails (timed : Bool) (s : Input) : Prop := (timed && s.hangsUp) = true

instance : Decidable (Input.Fails timed s) := inferInstanceAs (Decidable (_ = true))

theorem readByte_nil (h : s.events = []) : readByteWithTimeout timed s =
    (if Input.Fails timed s then .failed else .ended, s) := by
  obtain ⟨events, hangsUp, lastError⟩ := s
  obtain rfl : events = [] := h
  cases timed <;> cases hangsUp <;> rfl

variable {events : List (Event UInt8)}

theorem readByte_item (h : s.events = .item b :: events) :
    readByteWithTimeout timed s = (.got b, { s with events := events }) := by
  obtain ⟨events, hangsUp, lastError⟩ := s
  obtain rfl := h
  cases timed <;> cases hangsUp <;> rfl

theorem readByte_gap (h : s.events = .gap :: events) :
    readByteWithTimeout timed s = readByteWithTimeout timed { s with events := events } := by
  obtain ⟨events, hangsUp, lastError⟩ := s
  obtain rfl := h
  cases timed <;> rfl

theorem readByte_pause (h : s.events = .pause :: events) :
    readByteWithTimeout timed s = if timed then (.timedOut, { s with events := events })
      else readByteWithTimeout timed { s with events := events } := by
  obtain ⟨events, hangsUp, lastError⟩ := s
  obtain rfl := h
  cases timed <;> rfl

/-- What `read_line_fd` returns for a line, with the line and the rest of the input. -/
def lineRead (timed : Bool) (s : Input) (l : Line) : LineRead :=
  match l.ending with
  | .newline => ⟨l.text.length, l.text, { s with events := l.rest }⟩
  | .ended =>
    ⟨if l.text.length = 0 then if Input.Fails timed s then -1 else 0 else l.text.length, l.text,
      { s with events := l.rest }⟩
  | .timedOut => ⟨-2, l.text, { s with events := l.rest }⟩
  | .tooLong =>
    ⟨-1, l.text, Input.setError { s with events := l.rest } "std::jsonrpc: header line too long"⟩

theorem readLineLoop_eq (line : List UInt8) (hfuel : s.events.length < fuel) :
    readLineLoop timed 1024 fuel line s = lineRead timed s (lineOf timed line s.events) := by
  obtain ⟨events, hangsUp, lastError⟩ := s
  induction events generalizing fuel line with
  | nil =>
    obtain ⟨fuel, rfl⟩ := Nat.exists_eq_add_one_of_ne_zero (Nat.ne_of_gt hfuel)
    rw [readLineLoop, readByte_nil rfl, lineOf, lineRead]
    split_ifs <;> rfl
  | cons event events ih =>
    obtain ⟨fuel, rfl⟩ := Nat.exists_eq_add_one_of_ne_zero (Nat.ne_of_gt (Nat.zero_lt_of_lt hfuel))
    have hshort : events.length < fuel := Nat.lt_of_succ_lt_succ hfuel
    have hskip : readLineLoop timed 1024 (fuel + 1) line ⟨events, hangsUp, lastError⟩ =
        lineRead timed ⟨event :: events, hangsUp, lastError⟩ (lineOf timed line events) :=
      ih line (Nat.lt_succ_of_lt hshort)
    cases event with
    | gap =>
      rw [readLineLoop, readByte_gap rfl]
      exact hskip
    | pause =>
      rw [readLineLoop, readByte_pause rfl, lineOf]
      by_cases htimed : timed = true
      · rw [if_pos htimed, if_pos htimed]
        rfl
      · rw [if_neg htimed, if_neg htimed]
        exact hskip
    | item b =>
      rw [readLineLoop, readByte_item rfl, lineOf]
      dsimp only
      split_ifs
      · rfl
      · exact ih line hshort
      · rfl
      · exact ih (line ++ [b]) hshort

theorem readLineFd_eq (timed : Bool) (s : Input) :
    readLineFd timed s = lineRead timed s (lineOf timed [] s.events) :=
  readLineLoop_eq [] (Nat.lt_succ_self _)

def headerRead (timed : Bool) (l : Length) (s : Input) (h : Header) : HeaderRead :=
  let l := h.lines.foldl (fun l line => l.update (parseContentLength line)) l
  let rest := { s with events := h.rest }
  match h.ending with
  | .newline => ⟨0, l, rest⟩
  | .ended =>
    if Input.Fails timed s then ⟨-1, l, rest.blame "std::jsonrpc: failed to read frame header"⟩
    else ⟨0, l, rest⟩
  | .timedOut => ⟨-2, l, rest⟩
  | .tooLong => ⟨-1, l, (rest.setError "std::jsonrpc: header line too long").blame
      "std::jsonrpc: failed to read frame header"⟩

theorem readHeader_eq (l : Length) (hfuel : s.events.length < fuel) :
    readHeader timed fuel l s = headerRead timed l s (headerOf timed [] s.events) := by
  induction fuel generalizing l s with
  | zero => exact absurd hfuel (Nat.not_lt_zero _)
  | succ fuel ih =>
    obtain ⟨-, hshorter⟩ := length_lineOf timed [] s.events
    rw [headerOf_eq, readHeader, readLineFd_eq]
    cases hline : lineOf timed [] s.events with
    | mk ending text rest =>
      rw [hline] at hshorter
      have hnext : text ≠ [] →
          readHeader timed fuel (l.update (parseContentLength text)) { s with events := rest } =
            headerRead timed (l.update (parseContentLength text)) { s with events := rest }
              (headerOf timed [] rest) := fun htext =>
        ih _ (Nat.lt_of_lt_of_le (hshorter htext) (Nat.le_of_lt_succ hfuel))
      cases ending with
      | newline =>
        cases text with
        | nil => rfl
        | cons b text => exact hnext (cons_ne_nil b text)
      | ended =>
        cases text with
        | nil =>
          by_cases hfails : Input.Fails timed s
          · simp only [lineRead, headerRead, Header.ofLine, hfails, length_nil, if_true]
            rfl
          · simp only [lineRead, headerRead, Header.ofLine, hfails, length_nil, if_true, if_false]
            rfl
        | cons b text => exact hnext (cons_ne_nil b text)
      | timedOut => rfl
      | tooLong => rfl

variable {x : Int} {l : Length} {v : Nat}

/-- The number that digits stand for behind those of `v`. -/
def decimal (v : Nat) (digits : List UInt8) : Nat :=
  digits.foldl (fun v b => v * 10 + (b.toNat - 48)) v

def declared (line : List UInt8) : Option Nat :=
  let p := (line.drop 15).dropWhile isBlank
  if startsWithCi line contentLengthField = true ∧ p.takeWhile isDigit ≠ [] then
    some (decimal 0 (p.takeWhile isDigit))
  else none

def lastDeclared (lines : List (List UInt8)) : Option Nat := (lines.filterMap declared).getLast?

variable {digits : List UInt8} {line : List UInt8} {lines : List (List UInt8)}

theorem le_decimal (v : Nat) (digits : List UInt8) : v ≤ decimal v digits := by
  induction digits generalizing v with
  | nil => exact Nat.le_refl v
  | cons b digits ih => exact Nat.le_trans (by omega) (ih (v * 10 + (b.toNat - 48)))

theorem compute_overflows (h : l.overflows = true) (x : Int) : (l.compute x).overflows = true := by
  rw [Length.compute, h]
  rfl

theorem compute_exact (hlow : 0 ≤ x) (hhigh : x ≤ int64Max) :
    l.compute x = { value := x, overflows := l.overflows } := by
  rw [int64Max] at hhigh
  have hvalue : x.bmod (2 ^ 64) = x := Int.bmod_eq_of_le (by omega) (by omega)
  have hrange : (decide (-2 ^ 63 ≤ x) && decide (x ≤ int64Max)) = true := by
    rw [int64Max]
    exact Bool.and_eq_true_iff.2 ⟨decide_eq_true (by omega), decide_eq_true (by omega)⟩
  rw [Length.compute, hvalue, hrange]
  simp

theorem compute_too_large (h : int64Max < x) : (l.compute x).overflows = true := by
  rw [Length.compute, decide_eq_false (Int.not_le.2 h)]
  simp

theorem accumulate_overflows (h : l.overflows = true) (b : UInt8) : (accumulate l b).overflows = true :=
  compute_overflows (compute_overflows h _) _

theorem foldl_overflows (h : l.overflows = true) (digits : List UInt8) :
    (digits.foldl accumulate l).overflows = true := by
  induction digits generalizing l with
  | nil => exact h
  | cons b digits ih => exact ih (accumulate_overflows h b)

theorem accumulate_eq (hb : isDigit b = true) :
    if ((v * 10 + (b.toNat - 48) : Nat) : Int) ≤ int64Max then accumulate { value := v } b =
    { value := (v * 10 + (b.toNat - 48) : Nat) }
    else (accumulate { value := v } b).overflows = true := by
  have hdigit : 48 ≤ b.toNat := by
    rw [isDigit, Bool.and_eq_true, decide_eq_true_iff] at hb
    exact UInt8.le_iff_toNat_le.1 hb.1
  have hnext : ((v * 10 + (b.toNat - 48) : Nat) : Int) = (v : Int) * 10 + ((b.toNat : Int) - 48) := by omega
  have hten : (v : Int) * 10 ≤ int64Max → accumulate { value := v } b =
      Length.compute { value := v * 10 } ((v : Int) * 10 + ((b.toNat : Int) - 48)) := by
    intro hten
    have hfirst : Length.compute { value := v } ((v : Int) * 10) = { value := v * 10 } :=
      compute_exact (by omega) hten
    show (Length.compute _ ((v : Int) * 10)).compute ((Length.compute _ ((v : Int) * 10)).value + _) = _
    rw [hfirst]
  split_ifs with hroom
  · rw [hnext] at hroom ⊢
    rw [hten (by omega)]
    exact compute_exact (by omega) hroom
  · by_cases hmore : (v : Int) * 10 ≤ int64Max
    · rw [hten hmore]
      exact compute_too_large (by omega)
    · exact compute_overflows (compute_too_large (Int.not_le.1 hmore)) _

theorem foldl_accumulate (hdigits : ∀ b ∈ digits, isDigit b = true) (hv : (v : Int) ≤ int64Max) :
    if (decimal v digits : Int) ≤ int64Max then
      digits.foldl accumulate { value := v } = { value := decimal v digits }
    else (digits.foldl accumulate { value := v }).overflows = true := by
  induction digits generalizing v with
  | nil => rw [decimal, foldl_nil, if_pos hv, foldl_nil]
  | cons b digits ih =>
    obtain ⟨hb, hdigits⟩ := List.forall_mem_cons.1 hdigits
    have hstep := accumulate_eq (v := v) hb
    have hgrows := le_decimal (v * 10 + (b.toNat - 48)) digits
    rw [foldl_cons]
    show if (decimal (v * 10 + (b.toNat - 48)) digits : Int) ≤ int64Max then _ else _
    by_cases hroom : ((v * 10 + (b.toNat - 48) : Nat) : Int) ≤ int64Max
    · rw [if_pos hroom] at hstep
      rw [hstep]
      exact ih hdigits hroom
    · rw [if_neg hroom] at hstep
      rw [if_neg (by omega)]
      exact foldl_overflows hstep digits

theorem parseContentLength_eq (line : List UInt8) :
    match declared line with
    | none => parseContentLength line = { value := -1 }
    | some v =>
      if (v : Int) ≤ int64Max then parseContentLength line = { value := v }
      else (parseContentLength line).overflows = true := by
  rw [declared, parseContentLength]
  dsimp only
  by_cases hfield : startsWithCi line contentLengthField = true
  · by_cases hdigits : ((line.drop 15).dropWhile isBlank).takeWhile isDigit = []
    · rw [if_neg (fun h => h.2 hdigits), hfield, if_pos hdigits]
      rfl
    · rw [if_pos ⟨hfield, hdigits⟩, hfield, if_neg hdigits]
      exact foldl_accumulate (fun b hb => mem_takeWhile_imp hb) (by decide)
  · rw [if_neg (fun h => hfield h.1), Bool.not_eq_true _ |>.mp hfield]
    rfl

theorem update_value (l : Length) {parsed : Length} (h : 0 ≤ parsed.value) :
    (l.update parsed).value = parsed.value :=
  if_pos h

def contentLength (lines : List (List UInt8)) : Length :=
  lines.foldl (fun l line => l.update (parseContentLength line)) { value := -1 }

def lengthOf : Option Nat → Int
  | none => -1
  | some v => v

theorem contentLength_eq (hlines : ∀ line ∈ lines, ∀ v, declared line = some v → (v : Int) ≤ int64Max) :
    contentLength lines = { value := lengthOf (lastDeclared lines) } := by
  induction lines using List.reverseRecOn with
  | nil => rfl
  | append_singleton lines line ih =>
    have hlast := hlines line (by simp)
    have hparse := parseContentLength_eq line
    rw [contentLength, foldl_append, ← contentLength,
      ih fun line hline => hlines line (mem_append_left _ hline), foldl_cons, foldl_nil,
      lastDeclared, lastDeclared, filterMap_append, filterMap_cons, filterMap_nil]
    cases hdeclared : declared line with
    | none =>
      rw [hdeclared] at hparse
      dsimp only at hparse ⊢
      rw [hparse, append_nil]
      rfl
    | some v =>
      rw [hdeclared] at hparse
      dsimp only at hparse ⊢
      rw [if_pos (hlast v hdeclared)] at hparse
      rw [hparse, getLast?_concat]
      have hvalue : (({ value := lengthOf (lastDeclared lines) } : Length).update
          { value := v }).value = v := update_value _ (Int.natCast_nonneg v)
      exact congrArg (Length.mk · false) hvalue

theorem foldl_update_overflows (h : l.overflows = true) :
    (lines.foldl (fun l line => l.update (parseContentLength line)) l).overflows = true := by
  induction lines generalizing l with
  | nil => exact h
  | cons line lines ih =>
    refine ih ?_
    show (l.overflows || _) = true
    rw [h]
    rfl

theorem contentLength_too_large (hline : line ∈ lines) (hv : declared line = some v)
    (hlarge : int64Max < v) : (contentLength lines).overflows = true := by
  obtain ⟨earlier, later, rfl⟩ := append_of_mem hline
  rw [contentLength, foldl_append, foldl_cons]
  refine foldl_update_overflows ?_
  have hparse := parseContentLength_eq line
  rw [hv] at hparse
  dsimp only at hparse
  rw [if_neg (Int.not_le.2 hlarge)] at hparse
  show (_ || (parseContentLength line).overflows) = true
  rw [hparse, Bool.or_true]

variable {capacity : Int} {n : Nat}

theorem readExactFd_eq (h : n < ssizeMax) : readExactFd timed s n =
    (decide ((taken timed n s.events).outcome = .complete), (taken timed n s.events).got,
      { s with events := (taken timed n s.events).rest }) := by
  rw [readExactFd, if_neg (Nat.not_le.2 h), receiveAll_eq (Nat.le_refl n)]

theorem drain_eq (h : n ≤ fuel) : drain timed fuel n s =
    { s with events := (taken timed n s.events).rest } := by
  induction fuel generalizing n s with
  | zero =>
    rw [Nat.le_zero.1 h, taken_zero]
    rfl
  | succ fuel ih =>
    rw [drain]
    by_cases hzero : n = 0
    · rw [if_pos hzero, hzero, taken_zero]
    · rw [if_neg hzero]
      dsimp only
      generalize hchunk : (if n > 256 then 256 else n) = chunk
      have hpositive : 0 < chunk ∧ chunk ≤ n := by
        rw [← hchunk]
        split_ifs <;> omega
      have hsmall : chunk < ssizeMax := by
        rw [← hchunk, ssizeMax]
        split_ifs <;> omega
      have hparts := taken_add timed (n - chunk) chunk s.events
      rw [Nat.add_sub_cancel' hpositive.2] at hparts
      rw [readExactFd_eq hsmall, hparts]
      by_cases hcomplete : (taken timed chunk s.events).outcome = .complete
      · rw [if_pos hcomplete, decide_eq_true hcomplete]
        dsimp only
        rw [ih (by omega)]
      · rw [if_neg hcomplete, decide_eq_false hcomplete]

theorem readPayload_eq (capacity : Int) (hl : l = { value := v })
    (hroom : (v : Int) < int64Max) :
    readPayload timed capacity l s =
      if capacity < v + 1 then
        { rc := -3, overflows := false
          input := ({ s with events := (taken timed v s.events).rest } : Input).setError
            "std::jsonrpc: payload exceeds destination buffer" }
      else if (taken timed v s.events).outcome = .complete then
        { rc := v, stored := (taken timed v s.events).got, terminator := some (v : Int), overflows := false
          input := ({ s with events := (taken timed v s.events).rest } : Input).setError "" }
      else
        { rc := -1, stored := (taken timed v s.events).got, overflows := false
          input := ({ s with events := (taken timed v s.events).rest } : Input).blame
            "std::jsonrpc: failed to read frame payload" } := by
  subst hl
  have hneeded : Length.compute { value := v } ((v : Int) + 1) = { value := (v : Int) + 1 } :=
    compute_exact (by omega) (by omega)
  have hread : v < ssizeMax := by
    rw [int64Max] at hroom
    rw [ssizeMax]
    omega
  rw [readPayload, if_neg (Int.not_lt.2 (Int.natCast_nonneg v))]
  dsimp only
  rw [hneeded, Int.toNat_natCast, readExactFd_eq hread, drain_eq (Nat.le_refl v)]
  by_cases hlarge : capacity < (v : Int) + 1
  · rw [if_pos hlarge, if_pos hlarge]
  · rw [if_neg hlarge, if_neg hlarge]
    by_cases hcomplete : (taken timed v s.events).outcome = .complete
    · rw [if_pos hcomplete, decide_eq_true hcomplete]
    · rw [if_neg hcomplete, decide_eq_false hcomplete]

theorem readPayload_overflows (h : l.overflows = true ∨ l.value = int64Max) :
    (readPayload timed capacity l s).overflows = true := by
  by_cases hneg : l.value < 0
  · have hnot : l.value ≠ int64Max := fun hmax => by rw [hmax] at hneg; exact absurd hneg (by decide)
    rw [readPayload, if_pos hneg]
    exact h.resolve_right hnot
  · have hneeded : (l.compute (l.value + 1)).overflows = true := by
      rcases h with h | h
      · exact compute_overflows h _
      · exact compute_too_large (by omega)
    rw [readPayload, if_neg hneg]
    dsimp only
    rw [hneeded]
    split
    · rfl
    · split <;> rfl

def nextHeader (timed : Bool) (s : Input) : Header := headerOf timed [] s.events

/-- The header comes to its end: an empty line, or the end of the stream where that is no error. -/
def Completes (timed : Bool) (s : Input) : Prop :=
  (nextHeader timed s).ending = .newline ∨ ((nextHeader timed s).ending = .ended ∧ ¬Input.Fails timed s)

/-- A call stays within its buffer and within 64 bits, it returns the payload that the last length of
the header declares, or it throws all of it away. -/
structure InStep (timed : Bool) (capacity : Int) (s : Input) : Prop where
  stored : ((readFrameImpl timed capacity s).stored.length : Int) ≤ capacity
  terminated : ∀ i, (readFrameImpl timed capacity s).terminator = some i → 0 ≤ i ∧ i < capacity
  exactly : (readFrameImpl timed capacity s).overflows = false
  returned : 0 ≤ (readFrameImpl timed capacity s).rc → ∃ v,
    lastDeclared (nextHeader timed s).lines = some v ∧ (readFrameImpl timed capacity s).rc = v ∧
    v ≤ (contents (nextHeader timed s).rest).length ∧
    (readFrameImpl timed capacity s).stored = (contents (nextHeader timed s).rest).take v ∧
    (readFrameImpl timed capacity s).terminator = some (v : Int) ∧
    contents (readFrameImpl timed capacity s).input.events = (contents (nextHeader timed s).rest).drop v
  drained : (readFrameImpl timed capacity s).rc = -3 → ∃ v,
    lastDeclared (nextHeader timed s).lines = some v ∧
    contents (readFrameImpl timed capacity s).input.events = (contents (nextHeader timed s).rest).drop v

/-- The declared lengths are no larger than 63 bits, the last one leaves room for the NUL, and a payload
that is too large for the buffer comes in time. -/
structure Declares (timed : Bool) (capacity : Int) (s : Input) : Prop where
  lengths : ∀ line ∈ (nextHeader timed s).lines, ∀ v, declared line = some v → (v : Int) ≤ int64Max
  last : Completes timed s → ∀ v, lastDeclared (nextHeader timed s).lines = some v →
    (v : Int) ≠ int64Max ∧
      (capacity < v + 1 → ¬(timed = true ∧ Interrupted v (nextHeader timed s).rest))

theorem readFrameImpl_failed (hcapacity : 1 < capacity) (h : ¬Completes timed s) :
    ∃ rc input, (rc = -1 ∨ rc = -2) ∧ readFrameImpl timed capacity s =
      { rc := rc, overflows := (contentLength (nextHeader timed s).lines).overflows, input := input } := by
  obtain ⟨hnewline, hended⟩ := not_or.1 h
  rw [readFrameImpl, if_neg (Int.not_le.2 hcapacity), readHeader_eq _ (Nat.lt_succ_self _), ← nextHeader,
    headerRead, ← contentLength]
  cases hending : (nextHeader timed s).ending with
  | newline => exact absurd hending hnewline
  | ended =>
    have hfails : Input.Fails timed s := by_contra fun hfine => hended ⟨hending, hfine⟩
    dsimp only
    rw [if_pos hfails]
    exact ⟨-1, _, .inl rfl, rfl⟩
  | timedOut => exact ⟨-2, _, .inr rfl, rfl⟩
  | tooLong => exact ⟨-1, _, .inl rfl, rfl⟩

theorem readFrameImpl_completes (hcapacity : 1 < capacity) (h : Completes timed s) :
    readFrameImpl timed capacity s = readPayload timed capacity (contentLength (nextHeader timed s).lines)
      { s with events := (nextHeader timed s).rest } := by
  rw [readFrameImpl, if_neg (Int.not_le.2 hcapacity), readHeader_eq _ (Nat.lt_succ_self _), ← nextHeader,
    headerRead, ← contentLength]
  rcases h with hending | ⟨hending, hfine⟩
  · rw [hending]
    rfl
  · rw [hending]
    dsimp only
    rw [if_neg hfine]
    rfl

theorem lengths_of_exactly (hcapacity : 1 < capacity)
    (h : (readFrameImpl timed capacity s).overflows = false) :
    ∀ line ∈ (nextHeader timed s).lines, ∀ v, declared line = some v → (v : Int) ≤ int64Max := by
  intro line hline v hv
  by_contra hlarge
  have hoverflows := contentLength_too_large hline hv (Int.not_le.1 hlarge)
  by_cases hcompletes : Completes timed s
  · rw [readFrameImpl_completes hcapacity hcompletes, readPayload_overflows (.inl hoverflows)] at h
    cases h
  · obtain ⟨rc, input, -, heq⟩ := readFrameImpl_failed hcapacity hcompletes
    rw [heq, hoverflows] at h
    cases h

theorem inStep_error {rc : Int} {stored : List UInt8} {input : Input} (hrc : rc = -1 ∨ rc = -2)
    (hstored : (stored.length : Int) ≤ capacity) (h : readFrameImpl timed capacity s =
      { rc := rc, stored := stored, overflows := false, input := input }) : InStep timed capacity s := by
  constructor <;> rw [h]
  · exact hstored
  · exact nofun
  · intro hpositive
    dsimp only at hpositive
    omega
  · intro hlarge
    dsimp only at hlarge
    omega

theorem inStep_iff_in_time (hcapacity : 1 < capacity)
    (hlast : lastDeclared (nextHeader timed s).lines = some v) (hroom : (v : Int) < int64Max)
    (h : readFrameImpl timed capacity s = readPayload timed capacity { value := v } { s with events :=
      (nextHeader timed s).rest })
    :
    InStep timed capacity s ↔
      (capacity < v + 1 → ¬(timed = true ∧ Interrupted v (nextHeader timed s).rest)) := by
  rw [readPayload_eq capacity rfl hroom] at h
  dsimp only at h
  by_cases hlarge : capacity < (v : Int) + 1
  · rw [if_pos hlarge] at h
    constructor
    · intro hinStep _
      obtain ⟨w, hw, hrest⟩ := hinStep.drained (by rw [h])
      obtain rfl : v = w := Option.some.inj (hlast.symm.trans hw)
      rw [h] at hrest
      exact contents_rest_iff.1 hrest
    · intro hpatient
      constructor <;> rw [h]
      · exact Int.le_of_lt (Int.lt_trans Int.one_pos hcapacity)
      · exact nofun
      · exact fun hpositive => absurd hpositive (by decide : ¬(0 : Int) ≤ -3)
      · exact fun _ => ⟨v, hlast, contents_rest_iff.2 (hpatient hlarge)⟩
  · rw [if_neg hlarge] at h
    refine iff_of_true ?_ fun hmore => absurd hmore hlarge
    have hgot : ((taken timed v (nextHeader timed s).rest).got.length : Int) ≤ capacity := by
      have hle := length_taken_le timed v (nextHeader timed s).rest
      omega
    by_cases hcomplete : (taken timed v (nextHeader timed s).rest).outcome = .complete
    · rw [if_pos hcomplete] at h
      obtain ⟨hlength, hread, hrest⟩ := taken_complete hcomplete
      constructor <;> rw [h]
      · exact hgot
      · intro i hi
        obtain rfl := Option.some.inj hi
        exact ⟨Int.natCast_nonneg v, by omega⟩
      · exact fun _ => ⟨v, hlast, rfl, hlength, hread, rfl, hrest⟩
      · intro hthree
        dsimp only at hthree
        omega
    · rw [if_neg hcomplete] at h
      exact inStep_error (.inl rfl) hgot h

theorem inStep_iff (hcapacity : 1 < capacity) : InStep timed capacity s ↔ Declares timed capacity s := by
  by_cases hlengths : ∀ line ∈ (nextHeader timed s).lines, ∀ v, declared line = some v →
      (v : Int) ≤ int64Max
  swap
  · exact iff_of_false (fun h => hlengths (lengths_of_exactly hcapacity h.exactly))
      fun h => hlengths h.lengths
  have hempty : (([] : List UInt8).length : Int) ≤ capacity :=
    Int.le_of_lt (Int.lt_trans Int.one_pos hcapacity)
  by_cases hcompletes : Completes timed s
  swap
  · obtain ⟨rc, input, hrc, heq⟩ := readFrameImpl_failed hcapacity hcompletes
    rw [contentLength_eq hlengths] at heq
    exact iff_of_true (inStep_error hrc hempty heq) ⟨hlengths, fun h => absurd h hcompletes⟩
  have heq := readFrameImpl_completes hcapacity hcompletes
  rw [contentLength_eq hlengths] at heq
  cases hlast : lastDeclared (nextHeader timed s).lines with
  | none =>
    rw [hlast] at heq
    exact iff_of_true (inStep_error (.inl rfl) hempty heq)
      ⟨hlengths, fun _ v hv => nomatch hlast.symm.trans hv⟩
  | some v =>
    rw [hlast] at heq
    have hle : (v : Int) ≤ int64Max := by
      obtain ⟨line, hline, hv⟩ := List.mem_filterMap.1 (mem_of_getLast? hlast)
      exact hlengths line hline v hv
    by_cases hroom : (v : Int) = int64Max
    · refine iff_of_false (fun h => ?_) fun h => (h.last hcompletes v hlast).1 hroom
      have hexactly := h.exactly
      rw [heq, readPayload_overflows (.inr hroom)] at hexactly
      cases hexactly
    · rw [inStep_iff_in_time hcapacity hlast (Int.lt_iff_le_and_ne.2 ⟨hle, hroom⟩) heq]
      constructor
      · intro hpatient
        refine ⟨hlengths, fun _ w hw => ?_⟩
        obtain rfl : v = w := Option.some.inj (hlast.symm.trans hw)
        exact ⟨hroom, hpatient⟩
      · exact fun h => (h.last hcompletes v hlast).2

def bytes (text : String) : List (Event UInt8) := text.toList.map fun c => .item (.ofNat c.toNat)

/-- A frame of two bytes, the first of another one behind it. -/
theorem inStep_iff_short : InStep false 8 { events := bytes "Content-Length: 2\r\n\r\n\x7b\x7dC" } ↔
      Declares false 8 { events := bytes "Content-Length: 2\r\n\r\n\x7b\x7dC" } :=
  inStep_iff (by decide)

/-- A length that was never written is taken, and a payload that comes too late is left in the stream. -/
theorem overlong_and_late :
    let overlong : Input := { events := bytes "Content-Length: 18446744073709551617\r\n\r\nab" }
    let late : Input := { events := bytes "Content-Length: 3\r\n\r\n" ++ .pause :: bytes "abc" }
    ((readFrameImpl false 8 overlong).rc = 1 ∧ (readFrameImpl false 8 overlong).overflows = true ∧
      ¬InStep false 8 overlong) ∧
    (readFrameImpl true 2 late).rc = -3 ∧
      contents (readFrameImpl true 2 late).input.events = contents (bytes "abc") ∧ ¬InStep true 2 late := by
  intro overlong late
  have hoverflows : (readFrameImpl false 8 overlong).overflows = true := by decide +kernel
  have hrc : (readFrameImpl true 2 late).rc = -3 := by decide +kernel
  refine ⟨⟨by decide +kernel, hoverflows, fun h => ?_⟩, hrc, by decide +kernel, fun h => ?_⟩
  · exact Bool.false_ne_true (h.exactly.symm.trans hoverflows)
  · obtain ⟨v, hv, hrest⟩ := h.drained hrc
    have hlast : lastDeclared (nextHeader true late).lines = some 3 := by decide +kernel
    obtain rfl : 3 = v := Option.some.inj (hlast.symm.trans hv)
    revert hrest
    decide +kernel

end Mlang.FrameLengths
