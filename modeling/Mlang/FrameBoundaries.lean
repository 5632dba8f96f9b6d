import Mathlib.Data.List.Induction
import Mlang.ByteStreams
import Mlang.LittleEndian
import Mlang.SerdeRoundTrip

namespace Mlang.FramedTransport

open ByteStreams
open SerdeBuffers (strlen)

def storeBeU32 (v : Nat) : List UInt8 :=
  [.ofNat (v >>> 24 &&& 0xFF), .ofNat (v >>> 16 &&& 0xFF), .ofNat (v >>> 8 &&& 0xFF), .ofNat (v &&& 0xFF)]

def loadBeU32 (p : List UInt8) : Nat :=
  (p.getD 0 0).toNat <<< 24 ||| (p.getD 1 0).toNat <<< 16 ||| (p.getD 2 0).toNat <<< 8 |||
    (p.getD 3 0).toNat

/-- What becomes of a call of `write`. -/
inductive Call
  | accepted (n : Nat)
  | interrupted
  | failed
  deriving DecidableEq

/-- The stream as its writer sees it. -/
structure Writer where
  calls : List Call
  sent : List UInt8 := []
  lastError : String := ""
  deriving DecidableEq

def Writer.setError (w : Writer) (msg : String) : Writer := { w with lastError := msg }

def Writer.send (w : Writer) (calls : List Call) (data : List UInt8) : Writer :=
  { w with calls := calls, sent := w.sent ++ data }

def writeExact (w : Writer) : List Call → List UInt8 → Bool × Writer
  | calls, [] => (true, w.send calls [])
  | [], data => (true, w.send [] data)
  | .failed :: calls, _ :: _ => (false, w.send calls [])
  | .interrupted :: calls, byte :: data => writeExact w calls (byte :: data)
  | .accepted n :: calls, byte :: data =>
    if n = 0 then (false, w.send calls [])
    else writeExact (w.send calls ((byte :: data).take n)) calls ((byte :: data).drop n)

/-- `payload` is the memory from the pointer on. -/
def streamWriteText (w : Writer) (opcode : Int32) (payload : List UInt8) : Writer × Int :=
  let payloadLen := strlen payload
  if payloadLen > 0xFFFFFFFF then (w.setError "payload too large", -1)
  else
    let header := [0x4D, 0x4C, 0x50, 0x31] ++ storeBeU32 opcode.toUInt32.toNat ++ storeBeU32 payloadLen
    match writeExact w w.calls header with
    | (false, w) => (w.setError "failed to write frame header", -1)
    | (true, w) =>
      match if payloadLen > 0 then writeExact w w.calls (payload.take payloadLen) else (true, w) with
      | (false, w) => (w.setError "failed to write frame payload", -1)
      | (true, w) => (w.setError "", payloadLen)

/-- A message of the text writer: its payload is a C string, without the NUL behind it. -/
structure Message where
  opcode : Int32
  payload : List UInt8
  text : 0 ∉ payload

def writeAll : Writer → List Message → Option Writer
  | w, [] => some w
  | w, m :: messages =>
    let (w, n) := streamWriteText w m.opcode (m.payload ++ [0])
    if n < 0 then none else writeAll w messages

/-- An interrupted call of `read` is made again, which is a gap of the stream. -/
structure Reader where
  stream : List (Event UInt8)
  lastError : String := ""
  lastOpcode : Int32 := 0
  deriving DecidableEq

def Reader.setError (r : Reader) (msg : String) : Reader := { r with lastError := msg }

def readExact (r : Reader) (n : Nat) : Bool × List UInt8 × Reader :=
  let reading := receiveAll false n n r.stream
  (reading.outcome = .complete, reading.got, { r with stream := reading.rest })

structure Request where
  capacity : Int
  maxPayloadBytes : Int
  allocates : Bool := true
  deriving DecidableEq

/-- What a read returns, and what it stores from `out` on. -/
structure Received where
  n : Int
  out : List UInt8
  deriving DecidableEq

def Received.error : Received := ⟨-1, []⟩

def readPayload (r : Reader) (q : Request) (opcode payloadLen : Nat) : Reader × Received :=
  if 0 ≤ q.maxPayloadBytes ∧ q.maxPayloadBytes < payloadLen then
    (r.setError "payload exceeds configured maximum", .error)
  else if !q.allocates then (r.setError "allocation failed", .error)
  else
    match if payloadLen > 0 then readExact r payloadLen else (true, [], r) with
    | (false, _, r) => (r.setError "failed to read frame payload", .error)
    | (true, payload, r) =>
      if q.capacity < payloadLen + 1 then
        (r.setError "output buffer too small for payload", .error)
      else
        ({ r with lastOpcode := (UInt32.ofNat opcode).toInt32, lastError := "" },
          ⟨payloadLen, payload ++ [0]⟩)

def streamReadText (r : Reader) (q : Request) : Reader × Received :=
  if q.capacity ≤ 0 then (r.setError "invalid read arguments", .error)
  else
    match readExact r 12 with
    | (false, _, r) => (r.setError "failed to read frame header", .error)
    | (true, header, r) =>
      if header.take 4 ≠ [0x4D, 0x4C, 0x50, 0x31] then (r.setError "invalid frame magic", .error)
      else readPayload r q (loadBeU32 (header.drop 4)) (loadBeU32 (header.drop 8))

def Reader.after (r : Reader) (requests : List Request) : Reader :=
  requests.foldl (fun r q => (streamReadText r q).1) r

end Mlang.FramedTransport

namespace Mlang.FrameBoundaries

open ByteStreams LittleEndian FramedTransport List
open SerdeBuffers (strlen)
open SerdeRoundTrip (strlen_terminated)

theorem storeBeU32_eq (v : Nat) : storeBeU32 v = (bytesOf 4 v).reverse := by
  rw [← bytesOf_four]
  rfl

theorem loadBeU32_eq (b0 b1 b2 b3 : UInt8) (rest : List UInt8) :
    loadBeU32 (b0 :: b1 :: b2 :: b3 :: rest) = valueOf [b3, b2, b1, b0] := by
  rw [← valueOf_four]
  show b0.toNat <<< 24 ||| b1.toNat <<< 16 ||| b2.toNat <<< 8 ||| b3.toNat = _
  rw [Nat.or_comm, Nat.or_comm _ (b2.toNat <<< 8), Nat.or_comm (b0.toNat <<< 24), ← Nat.or_assoc,
    ← Nat.or_assoc]

theorem loadBeU32_storeBeU32 {v : Nat} (h : v < 2 ^ 32) (rest : List UInt8) :
    loadBeU32 (storeBeU32 v ++ rest) = v := by
  refine Eq.trans (loadBeU32_eq _ _ _ _ rest) ?_
  have hvalue : valueOf (bytesOf 4 v) = v := valueOf_bytesOf h
  rw [← reverse_reverse (bytesOf 4 v), ← storeBeU32_eq] at hvalue
  exact hvalue

def header (m : Message) : List UInt8 :=
  [0x4D, 0x4C, 0x50, 0x31] ++ storeBeU32 m.opcode.toUInt32.toNat ++ storeBeU32 m.payload.length

def frames (messages : List Message) : List UInt8 :=
  messages.flatMap fun m => header m ++ m.payload

theorem length_header (m : Message) : (header m).length = 12 := rfl

theorem take_header (m : Message) : (header m).take 4 = [0x4D, 0x4C, 0x50, 0x31] := rfl

theorem opcode_header (m : Message) : loadBeU32 ((header m).drop 4) = m.opcode.toUInt32.toNat :=
  loadBeU32_storeBeU32 (UInt32.toNat_lt _) (storeBeU32 m.payload.length)

theorem payload_header {m : Message} (h : m.payload.length < 2 ^ 32) :
    loadBeU32 ((header m).drop 8) = m.payload.length :=
  loadBeU32_storeBeU32 h []

variable {w w' : Writer} {calls : List Call} {data : List UInt8}

theorem sent_writeExact (h : writeExact w calls data = (true, w')) : w'.sent = w.sent ++ data := by
  induction w, calls, data using writeExact.induct with
  | case1 w calls =>
    rw [writeExact] at h
    rw [← (Prod.mk.inj h).2]
    rfl
  | case2 w data hdata =>
    rw [writeExact] at h
    · rw [← (Prod.mk.inj h).2]
      rfl
    · exact hdata
  | case3 w calls head tail =>
    rw [writeExact] at h
    exact absurd (Prod.mk.inj h).1 Bool.false_ne_true
  | case4 w calls byte data ih =>
    rw [writeExact] at h
    exact ih h
  | case5 w calls byte data =>
    rw [writeExact, if_pos rfl] at h
    exact absurd (Prod.mk.inj h).1 Bool.false_ne_true
  | case6 w n calls byte data hn ih =>
    rw [writeExact, if_neg hn] at h
    rw [ih h]
    show w.sent ++ _ ++ _ = _
    rw [append_assoc, take_append_drop]

theorem sent_streamWriteText {m : Message} (h : 0 ≤ (streamWriteText w m.opcode (m.payload ++ [0])).2) :
    m.payload.length < 2 ^ 32 ∧
      (streamWriteText w m.opcode (m.payload ++ [0])).1.sent = w.sent ++ (header m ++ m.payload) := by
  have hfails : ¬(0 : Int) ≤ -1 := by decide
  have hlen : strlen (m.payload ++ [0]) = m.payload.length := strlen_terminated m.text []
  have htake : (m.payload ++ [0]).take m.payload.length = m.payload := take_left
  rw [streamWriteText, hlen, htake] at h ⊢
  dsimp only at h ⊢
  by_cases hlarge : m.payload.length > 0xFFFFFFFF
  · rw [if_pos hlarge] at h
    exact absurd h hfails
  rw [if_neg hlarge] at h ⊢
  refine ⟨by omega, ?_⟩
  cases hwritten : writeExact w w.calls (header m) with
  | mk complete written =>
    have hsame : writeExact w w.calls ([0x4D, 0x4C, 0x50, 0x31] ++
        storeBeU32 m.opcode.toUInt32.toNat ++ storeBeU32 m.payload.length) = (complete, written) := hwritten
    rw [hsame] at h ⊢
    cases complete with
    | false => exact absurd h hfails
    | true =>
      have hheader : written.sent = w.sent ++ header m := sent_writeExact hwritten
      dsimp only at h ⊢
      rw [← append_assoc, ← hheader]
      by_cases hpayload : m.payload.length > 0
      · rw [if_pos hpayload] at h ⊢
        cases hdone : writeExact written written.calls m.payload with
        | mk complete done =>
          rw [hdone] at h
          cases complete with
          | false => exact absurd h hfails
          | true =>
            show done.sent = _
            exact sent_writeExact hdone
      · rw [if_neg hpayload, length_eq_zero_iff.1 (Nat.eq_zero_of_not_pos hpayload), append_nil]
        rfl

theorem sent_writeAll {messages : List Message} (h : writeAll w messages = some w') :
    (∀ m ∈ messages, m.payload.length < 2 ^ 32) ∧ w'.sent = w.sent ++ frames messages := by
  induction messages generalizing w with
  | nil =>
    cases h
    exact ⟨nofun, (append_nil _).symm⟩
  | cons m messages ih =>
    rw [writeAll] at h
    dsimp only at h
    split_ifs at h with hfails
    obtain ⟨hlength, hsent⟩ := sent_streamWriteText (Int.not_lt.1 hfails)
    obtain ⟨hlengths, hrest⟩ := ih h
    refine ⟨forall_mem_cons.2 ⟨hlength, hlengths⟩, ?_⟩
    rw [hrest, hsent, append_assoc]
    rfl

variable {r : Reader} {q : Request} {m : Message} {following : List UInt8}

theorem readExact_eq (r : Reader) (n : Nat) :
    ∃ stream, readExact r n = (decide (n ≤ (contents r.stream).length), (contents r.stream).take n,
      { r with stream := stream }) ∧ contents stream = (contents r.stream).drop n := by
  obtain ⟨htaken, hrest⟩ := taken_untimed (n := n) (s := r.stream)
  refine ⟨(taken false n r.stream).rest, ?_, hrest⟩
  rw [readExact, receiveAll_eq (Nat.le_refl n), htaken]
  by_cases hn : n ≤ (contents r.stream).length
  · simp only [if_pos hn, decide_eq_true hn, decide_true]
  · simp only [if_neg hn, decide_eq_false hn, reduceCtorEq, decide_false]

def Refuses (q : Request) (m : Message) : Prop :=
  (0 ≤ q.maxPayloadBytes ∧ q.maxPayloadBytes < m.payload.length) ∨ q.allocates = false

def Delivers (m : Message) (read : Reader × Received) : Prop :=
  read.2 = ⟨m.payload.length, m.payload ++ [0]⟩ ∧ read.1.lastOpcode = m.opcode

theorem readPayload_refuses (r : Reader) (opcode : Nat) (h : Refuses q m) :
    (readPayload r q opcode m.payload.length).1.stream = r.stream ∧
      (readPayload r q opcode m.payload.length).2 = .error := by
  rw [readPayload]
  by_cases hlarge : 0 ≤ q.maxPayloadBytes ∧ q.maxPayloadBytes < m.payload.length
  · rw [if_pos hlarge]
    exact ⟨rfl, rfl⟩
  · have hfails : (!q.allocates) = true := by rw [h.resolve_left hlarge]; rfl
    rw [if_neg hlarge, if_pos hfails]
    exact ⟨rfl, rfl⟩

theorem readPayload_takes (h : ¬Refuses q m) (hstream : contents r.stream = m.payload ++ following) :
    contents (readPayload r q m.opcode.toUInt32.toNat m.payload.length).1.stream = following ∧
      ((readPayload r q m.opcode.toUInt32.toNat m.payload.length).2 = .error ∨
        Delivers m (readPayload r q m.opcode.toUInt32.toNat m.payload.length)) := by
  obtain ⟨hlarge, hallocates⟩ := not_or.1 h
  have hpayload : ∃ stream, (if m.payload.length > 0 then readExact r m.payload.length else (true, [], r)) =
      (true, m.payload, { r with stream := stream }) ∧ contents stream = following := by
    by_cases hpositive : m.payload.length > 0
    · obtain ⟨stream, hread, hrest⟩ := readExact_eq r m.payload.length
      rw [hstream, length_append, decide_eq_true (Nat.le_add_right _ _), take_left] at hread
      rw [hstream, drop_left] at hrest
      exact ⟨stream, (if_pos hpositive).trans hread, hrest⟩
    · rw [if_neg hpositive]
      have hnil := length_eq_zero_iff.1 (Nat.eq_zero_of_not_pos hpositive)
      rw [hnil, nil_append] at hstream
      exact ⟨r.stream, by rw [hnil], hstream⟩
  obtain ⟨stream, hread, hrest⟩ := hpayload
  rw [readPayload, if_neg hlarge, if_neg (by simpa using hallocates), hread]
  dsimp only
  split_ifs
  · exact ⟨hrest, .inl rfl⟩
  · refine ⟨hrest, .inr ⟨rfl, ?_⟩⟩
    show (UInt32.ofNat m.opcode.toUInt32.toNat).toInt32 = m.opcode
    rw [UInt32.ofNat_toNat, Int32.toInt32_toUInt32]

theorem streamReadText_frame (hcapacity : 0 < q.capacity) (hlength : m.payload.length < 2 ^ 32)
    (hstream : contents r.stream = header m ++ m.payload ++ following) :
    ∃ stream, contents stream = m.payload ++ following ∧ streamReadText r q =
      readPayload { r with stream := stream } q m.opcode.toUInt32.toNat m.payload.length := by
  obtain ⟨stream, hread, hrest⟩ := readExact_eq r 12
  have hlong : 12 ≤ (contents r.stream).length := by
    rw [hstream, append_assoc, length_append, length_header]
    exact Nat.le_add_right _ _
  have htake : (contents r.stream).take 12 = header m := by
    rw [hstream, append_assoc]
    exact take_left' (length_header m)
  rw [hstream, append_assoc, drop_left' (length_header m)] at hrest
  refine ⟨stream, hrest, ?_⟩
  rw [streamReadText, if_neg (Int.not_le.2 hcapacity), hread, decide_eq_true hlong, htake]
  dsimp only
  rw [take_header, if_neg (fun h => h rfl), opcode_header, payload_header hlength]

theorem streamReadText_end (hcapacity : 0 < q.capacity) (hstream : contents r.stream = []) :
    contents (streamReadText r q).1.stream = [] ∧ (streamReadText r q).2 = .error := by
  obtain ⟨stream, hread, hrest⟩ := readExact_eq r 12
  rw [hstream] at hread hrest
  rw [streamReadText, if_neg (Int.not_le.2 hcapacity), hread]
  exact ⟨hrest, rfl⟩

theorem streamReadText_invalid (hcapacity : ¬0 < q.capacity) :
    (streamReadText r q).1.stream = r.stream ∧ (streamReadText r q).2 = .error := by
  rw [streamReadText, if_pos (Int.not_lt.1 hcapacity)]
  exact ⟨rfl, rfl⟩

def attempts (requests : List Request) : Nat := requests.countP fun q => decide (0 < q.capacity)

def AtBoundary (messages : List Message) (r : Reader) (earlier : List Request) : Prop :=
  contents (r.after earlier).stream = frames (messages.drop (attempts earlier))

/-- Each read that looks for a header finds the stream at a boundary, and it returns an error or the
message that follows there. -/
def KeepsBoundaries (messages : List Message) (r : Reader) (requests : List Request) : Prop :=
  ∀ earlier q later, requests = earlier ++ q :: later →
    (0 < q.capacity → AtBoundary messages r earlier) ∧
    ((streamReadText (r.after earlier) q).2 = .error ∨ ∃ m, 0 < q.capacity ∧
      messages[attempts earlier]? = some m ∧ Delivers m (streamReadText (r.after earlier) q))

def LeavesNothing (messages : List Message) (requests : List Request) : Prop :=
  ∀ earlier q later, requests = earlier ++ q :: later → 0 < q.capacity → (∃ p ∈ later, 0 < p.capacity) →
    ∀ m, messages[attempts earlier]? = some m → m.payload ≠ [] → ¬Refuses q m

variable {messages : List Message} {requests earlier later : List Request}

theorem attempts_snoc : attempts (earlier ++ [q]) = attempts earlier + if 0 < q.capacity then 1 else 0 := by
  rw [attempts, countP_append, ← attempts]
  by_cases h : 0 < q.capacity <;> simp [h]

theorem after_snoc : r.after (earlier ++ [q]) = (streamReadText (r.after earlier) q).1 :=
  foldl_append

theorem frames_drop {m : Message} {j : Nat} (h : messages[j]? = some m) :
    frames (messages.drop j) = header m ++ m.payload ++ frames (messages.drop (j + 1)) := by
  obtain ⟨hj, rfl⟩ := List.getElem?_eq_some_iff.1 h
  rw [drop_eq_getElem_cons hj]
  rfl

theorem atBoundary_invalid (h : ¬0 < q.capacity) :
    AtBoundary messages r (earlier ++ [q]) ↔ AtBoundary messages r earlier := by
  rw [AtBoundary, AtBoundary, after_snoc, (streamReadText_invalid h).1, attempts_snoc, if_neg h,
    Nat.add_zero]

theorem atBoundary_read (hlengths : ∀ m ∈ messages, m.payload.length < 2 ^ 32)
    (h : AtBoundary messages r earlier) (hcapacity : 0 < q.capacity) :
    (AtBoundary messages r (earlier ++ [q]) ↔
      ∀ m, messages[attempts earlier]? = some m → m.payload ≠ [] → ¬Refuses q m) ∧
    ((streamReadText (r.after earlier) q).2 = .error ∨ ∃ m, 0 < q.capacity ∧
      messages[attempts earlier]? = some m ∧ Delivers m (streamReadText (r.after earlier) q)) := by
  rw [AtBoundary] at h
  rw [AtBoundary, after_snoc, attempts_snoc, if_pos hcapacity]
  cases hm : messages[attempts earlier]? with
  | none =>
    have hover := getElem?_eq_none_iff.1 hm
    rw [drop_eq_nil_of_le hover] at h
    obtain ⟨hrest, herror⟩ := streamReadText_end hcapacity h
    rw [hrest, drop_eq_nil_of_le (Nat.le_succ_of_le hover)]
    exact ⟨⟨fun _ => nofun, fun _ => rfl⟩, .inl herror⟩
  | some m =>
    have hlength := hlengths m (mem_of_getElem? hm)
    rw [frames_drop hm] at h
    obtain ⟨stream, hstream, hread⟩ := streamReadText_frame hcapacity hlength h
    rw [hread]
    by_cases hrefuses : Refuses q m
    · obtain ⟨hrest, herror⟩ := readPayload_refuses { r.after earlier with stream := stream }
        m.opcode.toUInt32.toNat hrefuses
      rw [hrest]
      refine ⟨?_, .inl herror⟩
      show contents stream = _ ↔ _
      rw [hstream, append_left_eq_self]
      constructor
      · rintro hnil m' hm' hsome
        cases hm'
        exact absurd hnil hsome
      · exact fun hnothing => by_contra fun hsome => hnothing m rfl hsome hrefuses
    · obtain ⟨hrest, hresult⟩ := readPayload_takes (r := { r.after earlier with stream := stream })
        hrefuses hstream
      refine ⟨⟨fun _ m' hm' _ => ?_, fun _ => hrest⟩, hresult.imp_right fun hdelivers =>
        ⟨m, hcapacity, rfl, hdelivers⟩⟩
      cases hm'
      exact hrefuses

theorem LeavesNothing.atBoundary (hlengths : ∀ m ∈ messages, m.payload.length < 2 ^ 32)
    (hstream : contents r.stream = frames messages) (h : LeavesNothing messages requests)
    (hrequests : requests = earlier ++ later) (hlater : ∃ p ∈ later, 0 < p.capacity) :
    AtBoundary messages r earlier := by
  induction earlier using List.reverseRecOn generalizing later with
  | nil => exact hstream
  | append_singleton earlier q ih =>
    rw [append_assoc] at hrequests
    have hearlier : AtBoundary messages r earlier :=
      ih hrequests (hlater.imp fun p hp => ⟨mem_cons_of_mem q hp.1, hp.2⟩)
    by_cases hcapacity : 0 < q.capacity
    · exact (atBoundary_read hlengths hearlier hcapacity).1.2 (h earlier q later hrequests hcapacity hlater)
    · exact (atBoundary_invalid hcapacity).2 hearlier

theorem atBoundary_skip {skipped : List Request} (hskipped : ∀ p ∈ skipped, ¬0 < p.capacity) :
    AtBoundary messages r (earlier ++ skipped) ↔ AtBoundary messages r earlier := by
  induction skipped using List.reverseRecOn with
  | nil => rw [append_nil]
  | append_singleton skipped q ih =>
    rw [← append_assoc, atBoundary_invalid (hskipped q (by simp)),
      ih fun p hp => hskipped p (mem_append_left _ hp)]

theorem keepsBoundaries_exact {w : Writer} {messages : List Message} {r : Reader}
    (requests : List Request) (calls : List Call)
    (hwritten : writeAll { calls := calls } messages = some w) (hstream : contents r.stream = w.sent) :
    KeepsBoundaries messages r requests ↔ LeavesNothing messages requests := by
  obtain ⟨hlengths, hsent⟩ := sent_writeAll hwritten
  rw [hsent, nil_append] at hstream
  constructor
  · rintro hkeeps earlier q later hrequests hcapacity ⟨p, hp, hpcapacity⟩ m hm hsome
    -- the first read behind this one that looks for a header finds the stream as this one left it
    obtain ⟨next, hnext⟩ := Option.ne_none_iff_exists'.1 fun hnone =>
      find?_eq_none (p := fun q : Request => decide (0 < q.capacity)).1 hnone p hp
        (decide_eq_true hpcapacity)
    obtain ⟨hvalid, skipped, later', rfl, hskipped⟩ := find?_eq_some_iff_append.1 hnext
    have hhere := (hkeeps earlier q _ hrequests).1 hcapacity
    have hnext := (hkeeps (earlier ++ [q] ++ skipped) next later' (by simp [hrequests])).1
      (of_decide_eq_true hvalid)
    rw [atBoundary_skip fun p hp => by simpa using hskipped p hp] at hnext
    exact (atBoundary_read hlengths hhere hcapacity).1.1 hnext m hm hsome
  · intro hleaves earlier q later hrequests
    by_cases hcapacity : 0 < q.capacity
    · have hhere := hleaves.atBoundary hlengths hstream hrequests ⟨q, mem_cons_self, hcapacity⟩
      exact ⟨fun _ => hhere, (atBoundary_read hlengths hhere hcapacity).2⟩
    · exact ⟨fun h => absurd h hcapacity, .inl (streamReadText_invalid hcapacity).2⟩

/-- Two messages in pieces, the second read with room enough for it. -/
theorem keepsBoundaries_pieces :
    KeepsBoundaries [⟨1, [104, 105], by decide⟩, ⟨2, [111], by decide⟩]
      { stream := [.item 77, .gap, .item 76, .item 80, .item 49, .item 0, .item 0, .pause, .item 0,
          .item 1, .item 0, .item 0, .item 0, .item 2, .item 104, .gap, .item 105, .item 77, .item 76,
          .item 80, .item 49, .item 0, .item 0, .item 0, .item 2, .item 0, .item 0, .item 0, .item 1,
          .item 111] } [⟨2, 8, true⟩, ⟨8, 8, true⟩] ↔
    LeavesNothing [⟨1, [104, 105], by decide⟩, ⟨2, [111], by decide⟩] [⟨2, 8, true⟩, ⟨8, 8, true⟩] :=
  keepsBoundaries_exact (w := (writeAll { calls := [.accepted 3, .interrupted] }
      [⟨1, [104, 105], by decide⟩, ⟨2, [111], by decide⟩]).getD { calls := [] }) _ [.accepted 3, .interrupted]
    (by decide) (by decide)

/-- A refused payload of twelve bytes is read as the header of the next frame. -/
theorem refused_readAsHeader :
    let refused : List UInt8 := [0x4D, 0x4C, 0x50, 0x31, 97, 97, 97, 97, 98, 98, 98, 98]
    let messages : List Message := [⟨1, refused, by decide⟩, ⟨7, [120], by decide⟩]
    let r : Reader := { stream := (frames messages).map .item }
    (∃ w, writeAll { calls := [] } messages = some w ∧ contents r.stream = w.sent) ∧
      (r.after [⟨64, 8, true⟩, ⟨64, 8, true⟩]).lastError = "payload exceeds configured maximum" ∧
      ¬KeepsBoundaries messages r [⟨64, 8, true⟩, ⟨64, 8, true⟩] := by
  intro refused messages r
  refine ⟨⟨{ calls := [], sent := frames messages }, by decide, by decide⟩, by decide, fun h => ?_⟩
  have hboundary := (h [⟨64, 8, true⟩] ⟨64, 8, true⟩ [] rfl).1 (by decide)
  rw [AtBoundary] at hboundary
  revert hboundary
  decide

end Mlang.FrameBoundaries
