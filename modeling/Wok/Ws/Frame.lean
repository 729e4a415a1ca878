/-
**The WebSocket frame parser.**

`WsParser` takes bytes as they are read, cuts them into frames (`tryParseFrame`), puts messages
together from their fragments (`handleFrame`) and decodes until about a budget of message bytes
(`drainEventsInto`). A run is any sequence of reads and decoding calls.

* `machine` — **what the parser decides on the bytes it has never changes when more bytes come.**
* `run_ends` — a run that has decoded all it can is at the one end of its byte stream, however the
  stream was cut and whatever the budgets were.
* `drains_settle` — repeated decoding gets there with any budget.
-/

import Wok.Library.Bytes
import Wok.Library.Result
import Wok.Library.Incremental
import Wok.Event.Text

namespace Wok.Ws

open Wok.Library Wok.Event List

/-! ### Frames -/

def opCont : Byte := 0x0
def opText : Byte := 0x1
def opBinary : Byte := 0x2
def opClose : Byte := 0x8
def opPing : Byte := 0x9
def opPong : Byte := 0xA

/-- What the parser can fail with; the errors of the socket are not its own. -/
inductive WsError
  | protocol (text : String)
  | invalidData (text : String)
  | messageTooLarge
  | inflate (text : String)
  deriving DecidableEq, Repr

inductive MessageKind
  | text
  | binary
  deriving DecidableEq, Repr

inductive WsEvent
  | message (kind : MessageKind) (payload : Bytes)
  | ping (payload : Bytes)
  | pong (payload : Bytes)
  | close (payload : Bytes)
  deriving DecidableEq, Repr

/-- Which side of the connection this endpoint is. -/
inductive Role
  | server
  | client
  deriving DecidableEq, Repr

/-- The four bytes of a mask. -/
structure Mask where
  m0 : Byte
  m1 : Byte
  m2 : Byte
  m3 : Byte

/-- Whole chunks of four first, then what is left of the payload against the start of the mask. -/
def applyMask (mask : Mask) : Bytes → Bytes
  | a :: b :: c :: d :: rest =>
    (a ^^^ mask.m0) :: (b ^^^ mask.m1) :: (c ^^^ mask.m2) :: (d ^^^ mask.m3) :: applyMask mask rest
  | remainder => List.zipWith (· ^^^ ·) remainder [mask.m0, mask.m1, mask.m2, mask.m3]

structure RawFrame where
  fin : Bool
  rsv1 : Bool
  opcode : Byte
  payload : Bytes

/-- `usize::MAX` and `u64::MAX`. -/
def usizeMax : Nat := 2 ^ 64 - 1

/-- The status codes a Close frame may carry. -/
def closeCodeAllowed (code : Nat) : Bool :=
  (1000 ≤ code && code ≤ 1003) || (1007 ≤ code && code ≤ 1014) || (3000 ≤ code && code ≤ 4999)

def checkClose : Bytes → Except WsError Unit
  | [] => .ok ()
  | [_] => .error (.protocol "1-byte close body")
  | hi :: lo :: reason =>
    if !closeCodeAllowed (beVal [hi, lo]) then .error (.protocol "close status code not allowed")
    else if !utf8Valid reason then .error (.invalidData "close reason not UTF-8")
    else .ok ()

/-- What any compressed message may inflate to whatever its ratio. -/
def inflateAllowance (maxMessage : Nat) : Nat := maxMessage / 2 + 64 * 1024

/-- The most a compressed message of `wireLen` bytes may inflate to. -/
def inflateLimit (wireLen maxMessage : Nat) : Nat :=
  min (max (min (wireLen * 32) usizeMax) (inflateAllowance maxMessage)) maxMessage

/-! ### The parser -/

/-- The parser with an inflater of states `I`; the buffer's capacity is not modelled. -/
structure WsParser (I : Type) where
  maxMessage : Nat
  buf : Bytes
  fragOpcode : Option Byte
  fragRsv1 : Bool
  frag : Bytes
  completed : Nat
  inflater : Option I
  role : Role

/-- The first two bytes of a frame, without its length. -/
structure Head where
  fin : Bool
  rsv1 : Bool
  opcode : Byte
  masked : Bool

namespace WsParser

variable {I : Type}

def withRole (maxMessage : Nat) (inflater : Option I) (role : Role) : WsParser I :=
  { maxMessage, buf := [], fragOpcode := none, fragRsv1 := false, frag := [], completed := 0,
    inflater, role }

/-- The checks on a frame's first two bytes. -/
def checkHead (self : WsParser I) (b0 b1 : Byte) : Except WsError Head := do
  let head : Head :=
    { fin := b0 &&& 0x80 != 0, rsv1 := b0 &&& 0x40 != 0, opcode := b0 &&& 0x0F,
      masked := b1 &&& 0x80 != 0 }
  ensure (b0 &&& 0x20 = 0 ∧ b0 &&& 0x10 = 0) (.protocol "RSV2/RSV3 set")
  ensure (¬(head.rsv1 ∧ self.inflater.isNone)) (.protocol "RSV1 set without negotiated extension")
  ensure (¬(head.rsv1 ∧ (head.opcode = opCont ∨ 0x8 ≤ head.opcode)))
    (.protocol "RSV1 set on a control or continuation frame")
  match self.role with
  | .server => ensure head.masked (.protocol "client frame not masked")
  | .client => ensure (¬head.masked) (.protocol "server frame masked")
  return head

/-- The payload's length, in the seven bits, the two bytes or the eight bytes after them. -/
def readLength (b1 : Byte) (rest : Bytes) : Except WsError (Option (Nat × Bytes)) :=
  let len := (b1 &&& 0x7F).val
  if len = 126 then
    if rest.length < 2 then .ok none else .ok (some (beVal (rest.take 2), rest.drop 2))
  else if len = 127 then
    if rest.length < 8 then .ok none
    else if (beVal (rest.take 8)).testBit 63 then .error (.protocol "2^63 length")
    else .ok (some (beVal (rest.take 8), rest.drop 8))
  else .ok (some (len, rest))

def checkLength (self : WsParser I) (head : Head) (len : Nat) : Except WsError Unit := do
  onlyIf (0x8 ≤ head.opcode) do
    ensure head.fin (.protocol "fragmented control frame")
    ensure (len ≤ 125) (.protocol "control frame too large")
  ensure (len ≤ self.maxMessage) .messageTooLarge

/-- The payload, unmasked, when all of it is there. -/
def readPayload (masked : Bool) (len : Nat) (rest : Bytes) : Option (Bytes × Bytes) :=
  if masked then
    match rest with
    | m0 :: m1 :: m2 :: m3 :: body =>
      if body.length < len then none
      else some (applyMask ⟨m0, m1, m2, m3⟩ (body.take len), body.drop len)
    | _ => none
  else if rest.length < len then none
  else some (rest.take len, rest.drop len)

def tryParseFrame (self : WsParser I) : Except WsError (Option (RawFrame × WsParser I)) :=
  match self.buf with
  | b0 :: b1 :: rest => do
    let head ← self.checkHead b0 b1
    match ← readLength b1 rest with
    | none => return none
    | some (len, rest) =>
      self.checkLength head len
      match readPayload head.masked len rest with
      | none => return none
      | some (payload, rest) =>
        return some (⟨head.fin, head.rsv1, head.opcode, payload⟩, { self with buf := rest })
  | _ => .ok none

section Decoding

variable (decompress : I → Bytes → Nat → Except WsError (Bytes × I))

def maybeInflate (self : WsParser I) (rsv1 : Bool) (payload : Bytes) :
    Except WsError (Bytes × WsParser I) :=
  if rsv1 then
    match self.inflater with
    | some inflater => do
      let (payload, inflater) ←
        decompress inflater payload (inflateLimit payload.length self.maxMessage)
      return (payload, { self with inflater := some inflater })
    | none => .error (.protocol "RSV1 without extension")
  else .ok (payload, self)

def messageKind (opcode : Byte) : MessageKind := if opcode = opText then .text else .binary

/-- A data frame that starts a message. -/
def startMessage (self : WsParser I) (frame : RawFrame) :
    Except WsError (WsParser I × Option WsEvent) := do
  ensure (self.fragOpcode = none) (.protocol "new message during fragmented message")
  if frame.fin then
    let (payload, self) ← self.maybeInflate decompress frame.rsv1 frame.payload
    return (self, some (.message (messageKind frame.opcode) payload))
  else
    ensure (frame.payload.length ≤ self.maxMessage) .messageTooLarge
    return ({ self with fragOpcode := some frame.opcode, fragRsv1 := frame.rsv1,
                        frag := frame.payload }, none)

/-- A continuation frame. -/
def continueMessage (self : WsParser I) (frame : RawFrame) :
    Except WsError (WsParser I × Option WsEvent) :=
  match self.fragOpcode with
  | none => .error (.protocol "continuation without message")
  | some opcode => do
    let frag := self.frag ++ frame.payload
    ensure (frag.length ≤ self.maxMessage) .messageTooLarge
    if frame.fin then
      let (payload, self) ← maybeInflate decompress { self with fragOpcode := none, frag := [] }
        self.fragRsv1 frag
      return (self, some (.message (messageKind opcode) payload))
    else return ({ self with frag }, none)

def handleFrame (self : WsParser I) (frame : RawFrame) :
    Except WsError (WsParser I × Option WsEvent) :=
  if frame.opcode = opPing then .ok (self, some (.ping frame.payload))
  else if frame.opcode = opPong then .ok (self, some (.pong frame.payload))
  else if frame.opcode = opClose then do
    checkClose frame.payload
    return (self, some (.close frame.payload))
  else if frame.opcode = opText ∨ frame.opcode = opBinary then
    self.startMessage decompress frame
  else if frame.opcode = opCont then self.continueMessage decompress frame
  else .error (.protocol "unknown opcode")

/-- Counts a message, or a control frame outside one. -/
def count (self : WsParser I) : WsParser I :=
  if self.fragOpcode.isNone then { self with completed := (self.completed + 1) % 2 ^ 64 } else self

/-- One frame of the decoding loop: parsed, handled and counted. -/
def next (self : WsParser I) : Except WsError (Option (WsParser I × Option WsEvent)) := do
  match ← self.tryParseFrame with
  | none => return none
  | some (frame, self) =>
    let (self, event) ← self.handleFrame decompress frame
    return some (self.count, event)

/-- The message bytes of an event, which count against the budget. -/
def decodedBytes : Option WsEvent → Nat
  | some (.message _ payload) => payload.length
  | _ => 0

/-- The loop of `drainEventsInto`; a frame has two bytes at least, so it runs at most `fuel` times
when `fuel` is the length of the buffer. -/
def drainLoop (budget : Nat) : Nat → WsParser I → Nat → List WsEvent →
    Except WsError (WsParser I × List WsEvent)
  | 0, self, _, events => .ok (self, events)
  | fuel + 1, self, decoded, events => do
    match ← self.next decompress with
    | none => return (self, events)
    | some (self, event) =>
      let decoded := min (decoded + decodedBytes event) usizeMax
      let events := events ++ event.toList
      if decoded ≥ budget then return (self, events)
      else drainLoop budget fuel self decoded events

def drainEventsInto (self : WsParser I) (events : List WsEvent) (budget : Nat) :
    Except WsError (WsParser I × List WsEvent) :=
  drainLoop decompress budget self.buf.length self 0 events

/-- Bytes that were read. -/
def read (self : WsParser I) (data : Bytes) : WsParser I := { self with buf := self.buf ++ data }

end Decoding

/-! ### More bytes -/

variable {rest : Bytes} {frame : RawFrame} {self after : WsParser I}

@[simp] theorem read_read (self : WsParser I) (c d : Bytes) :
    (self.read c).read d = self.read (c ++ d) := by
  simp [read, append_assoc]

theorem readLength_failed {b1 : Byte} {e : WsError} (c : Bytes)
    (failed : readLength b1 rest = .error e) : readLength b1 (rest ++ c) = .error e := by
  unfold readLength at failed ⊢
  simp only at failed ⊢
  split_ifs at failed with two short eight short' high
  have enough : 8 ≤ rest.length := not_lt.mp short'
  rw [if_neg two, if_pos eight, if_neg (by simp; omega), take_append_of_le_length enough,
    if_pos high]
  exact failed

theorem readLength_taken {b1 : Byte} {after : Bytes} {len : Nat} (c : Bytes)
    (taken : readLength b1 rest = .ok (some (len, after))) :
    readLength b1 (rest ++ c) = .ok (some (len, after ++ c)) ∧ after.length ≤ rest.length := by
  unfold readLength at taken ⊢
  simp only at taken ⊢
  split_ifs at taken with two short eight short' high
  · cases taken
  · have enough : 2 ≤ rest.length := not_lt.mp short
    obtain ⟨rfl, rfl⟩ : _ ∧ _ := by simpa using taken
    rw [if_pos two, if_neg (by simp; omega), take_append_of_le_length enough,
      drop_append_of_le_length enough]
    exact ⟨rfl, by simp⟩
  · cases taken
  · have enough : 8 ≤ rest.length := not_lt.mp short'
    obtain ⟨rfl, rfl⟩ : _ ∧ _ := by simpa using taken
    rw [if_neg two, if_pos eight, if_neg (by simp; omega), take_append_of_le_length enough,
      drop_append_of_le_length enough, if_neg high]
    exact ⟨rfl, by simp⟩
  · cases taken
    rw [if_neg two, if_neg eight]
    exact ⟨rfl, le_rfl⟩

theorem readPayload_taken {masked : Bool} {len : Nat} {payload after : Bytes} (c : Bytes)
    (taken : readPayload masked len rest = some (payload, after)) :
    readPayload masked len (rest ++ c) = some (payload, after ++ c) ∧
      after.length ≤ rest.length := by
  unfold readPayload at taken ⊢
  split_ifs at taken with mask short
  · rw [if_pos mask]
    split at taken
    · next m0 m1 m2 m3 body =>
      split_ifs at taken with short
      have enough : len ≤ body.length := not_lt.mp short
      obtain ⟨rfl, rfl⟩ : _ ∧ _ := by simpa using taken
      simp only [cons_append]
      rw [if_neg (by simp; omega), take_append_of_le_length enough,
        drop_append_of_le_length enough]
      exact ⟨rfl, by simp; omega⟩
    · cases taken
  · have enough : len ≤ rest.length := not_lt.mp short
    obtain ⟨rfl, rfl⟩ : _ ∧ _ := by simpa using taken
    rw [if_neg mask, if_neg (by simp; omega), take_append_of_le_length enough,
      drop_append_of_le_length enough]
    exact ⟨rfl, by simp⟩

theorem tryParseFrame_eq_some :
    self.tryParseFrame = .ok (some (frame, after)) ↔
      ∃ b0 b1 rest head len rest' rest'', self.buf = b0 :: b1 :: rest ∧
        self.checkHead b0 b1 = .ok head ∧ readLength b1 rest = .ok (some (len, rest')) ∧
        self.checkLength head len = .ok () ∧
        readPayload head.masked len rest' = some (frame.payload, rest'') ∧
        frame = ⟨head.fin, head.rsv1, head.opcode, frame.payload⟩ ∧
        after = { self with buf := rest'' } := by
  unfold tryParseFrame
  constructor
  · intro parsed
    split at parsed
    · next b0 b1 rest buffered =>
      obtain ⟨head, checked, parsed⟩ := bind_eq_ok.mp parsed
      obtain ⟨length, read, parsed⟩ := bind_eq_ok.mp parsed
      cases length with
      | none => cases parsed
      | some length =>
        obtain ⟨len, rest'⟩ := length
        obtain ⟨_, fits, parsed⟩ := bind_eq_ok.mp parsed
        split at parsed
        · cases parsed
        · next payload rest'' body =>
          cases parsed
          exact ⟨b0, b1, rest, head, len, rest', rest'', buffered, checked, read, fits, body, rfl,
            rfl⟩
    · cases parsed
  · rintro ⟨b0, b1, rest, head, len, rest', rest'', buffered, checked, read, fits, body, is, rfl⟩
    rw [buffered]
    simp only [checked, read, fits, body, ok_bind]
    rw [is]
    rfl

theorem tryParseFrame_taken (c : Bytes) (parsed : self.tryParseFrame = .ok (some (frame, after))) :
    (self.read c).tryParseFrame = .ok (some (frame, after.read c)) := by
  obtain ⟨b0, b1, rest, head, len, rest', rest'', buffered, checked, read, fits, body, is, rfl⟩ :=
    tryParseFrame_eq_some.mp parsed
  refine tryParseFrame_eq_some.mpr ⟨b0, b1, rest ++ c, head, len, rest' ++ c, rest'' ++ c, ?_,
    checked, (readLength_taken c read).1, fits, (readPayload_taken c body).1, is, rfl⟩
  simp [WsParser.read, buffered]

theorem tryParseFrame_shrinks (parsed : self.tryParseFrame = .ok (some (frame, after))) :
    after.buf.length + 2 ≤ self.buf.length := by
  obtain ⟨b0, b1, rest, head, len, rest', rest'', buffered, checked, read, fits, body, is, rfl⟩ :=
    tryParseFrame_eq_some.mp parsed
  have shorter := (readLength_taken [] read).2
  have shorter' := (readPayload_taken [] body).2
  rw [buffered, length_cons, length_cons]
  show rest''.length + 2 ≤ _
  omega

theorem tryParseFrame_failed {e : WsError} (c : Bytes) (failed : self.tryParseFrame = .error e) :
    (self.read c).tryParseFrame = .error e := by
  unfold tryParseFrame at failed
  split at failed
  · next b0 b1 rest buffered =>
    have longer : (self.read c).buf = b0 :: b1 :: (rest ++ c) := by simp [WsParser.read, buffered]
    unfold tryParseFrame
    rw [longer]
    -- The head is checked on the first two bytes alone.
    have same : (self.read c).checkHead b0 b1 = self.checkHead b0 b1 := rfl
    simp only [same]
    cases checked : self.checkHead b0 b1 with
    | error e' =>
      rw [checked] at failed
      exact failed
    | ok head =>
      simp only [checked, ok_bind] at failed ⊢
      cases read : readLength b1 rest with
      | error e' =>
        rw [readLength_failed c read]
        rw [read] at failed
        exact failed
      | ok length =>
        cases length with
        | none =>
          rw [read] at failed
          cases failed
        | some length =>
          obtain ⟨len, rest'⟩ := length
          rw [(readLength_taken c read).1]
          simp only [read, ok_bind] at failed ⊢
          have same : (self.read c).checkLength head len = self.checkLength head len := rfl
          rw [same]
          cases fits : self.checkLength head len with
          | error e' =>
            rw [fits] at failed
            exact failed
          | ok _ =>
            simp only [fits, ok_bind] at failed
            split at failed <;> cases failed
  · cases failed

section Handling

variable (decompress : I → Bytes → Nat → Except WsError (Bytes × I))

/-- Handling a frame does not look at the buffer. -/
theorem maybeInflate_buf (self : WsParser I) (rsv1 : Bool) (payload buf : Bytes) :
    maybeInflate decompress { self with buf } rsv1 payload =
      (self.maybeInflate decompress rsv1 payload).map fun r => (r.1, { r.2 with buf }) := by
  unfold maybeInflate
  split_ifs
  · show (match self.inflater with | some _ => _ | none => _) = _
    cases self.inflater with
    | none => rfl
    | some inflater =>
      show (decompress inflater payload (inflateLimit payload.length self.maxMessage) >>= _) = _
      dsimp only
      cases decompress inflater payload (inflateLimit payload.length self.maxMessage) <;> rfl
  · rfl

theorem startMessage_buf (self : WsParser I) (frame : RawFrame) (buf : Bytes) :
    startMessage decompress { self with buf } frame =
      (self.startMessage decompress frame).map fun r => ({ r.1 with buf }, r.2) := by
  unfold startMessage
  show (ensure (self.fragOpcode = none) _ >>= _) = _
  by_cases idle : self.fragOpcode = none
  · simp only [ensure_of idle, ok_bind, maybeInflate_buf]
    split_ifs
    · cases self.maybeInflate decompress frame.rsv1 frame.payload <;> rfl
    · show (ensure (frame.payload.length ≤ self.maxMessage) _ >>= _) = _
      by_cases fits : frame.payload.length ≤ self.maxMessage
      · simp only [ensure_of fits]
        rfl
      · simp only [ensure, if_neg fits]
        rfl
  · simp only [ensure, if_neg idle]
    rfl

theorem continueMessage_buf (self : WsParser I) (frame : RawFrame) (buf : Bytes) :
    continueMessage decompress { self with buf } frame =
      (self.continueMessage decompress frame).map fun r => ({ r.1 with buf }, r.2) := by
  unfold continueMessage
  show (match self.fragOpcode with | none => _ | some _ => _) = _
  cases opened : self.fragOpcode with
  | none => rfl
  | some opcode =>
    show (ensure ((self.frag ++ frame.payload).length ≤ self.maxMessage) _ >>= _) = _
    by_cases fits : (self.frag ++ frame.payload).length ≤ self.maxMessage
    · simp only [ensure_of fits, ok_bind]
      split_ifs
      · have inflated := maybeInflate_buf decompress { self with fragOpcode := none, frag := [] }
          self.fragRsv1 (self.frag ++ frame.payload) buf
        rw [inflated]
        cases maybeInflate decompress { self with fragOpcode := none, frag := [] } self.fragRsv1
          (self.frag ++ frame.payload) <;> rfl
      · rfl
    · simp only [ensure, if_neg fits]
      rfl

theorem handleFrame_withBuf (self : WsParser I) (frame : RawFrame) (buf : Bytes) :
    handleFrame decompress { self with buf } frame =
      (self.handleFrame decompress frame).map fun r => ({ r.1 with buf }, r.2) := by
  unfold handleFrame
  split_ifs
  · rfl
  · rfl
  · cases checkClose frame.payload <;> rfl
  · exact startMessage_buf decompress self frame buf
  · exact continueMessage_buf decompress self frame buf
  · rfl

variable {decompress} {event : Option WsEvent} {e : WsError}

theorem handleFrame_buf {frame : RawFrame}
    (handled : self.handleFrame decompress frame = .ok (after, event)) : after.buf = self.buf := by
  have same := handleFrame_withBuf decompress self frame self.buf
  rw [handled] at same
  exact congrArg (fun r => r.1.buf) (Except.ok.inj same)

theorem handleFrame_read (self : WsParser I) (frame : RawFrame) (c : Bytes) :
    (self.read c).handleFrame decompress frame =
      (self.handleFrame decompress frame).map fun r => (r.1.read c, r.2) := by
  rw [read, handleFrame_withBuf]
  cases handled : self.handleFrame decompress frame with
  | error e => rfl
  | ok result =>
    have kept := handleFrame_buf handled
    simp [Except.map, read, kept]

theorem count_buf (self : WsParser I) : self.count.buf = self.buf := by
  unfold count
  split_ifs <;> rfl

theorem count_read (self : WsParser I) (c : Bytes) : (self.read c).count = self.count.read c := by
  unfold count
  show (if self.fragOpcode.isNone then _ else _) = _
  split_ifs <;> rfl

theorem next_eq_some :
    self.next decompress = .ok (some (after, event)) ↔
      ∃ frame parsed handled, self.tryParseFrame = .ok (some (frame, parsed)) ∧
        parsed.handleFrame decompress frame = .ok (handled, event) ∧ after = handled.count := by
  unfold next
  constructor
  · intro taken
    obtain ⟨parsed, parse, taken⟩ := bind_eq_ok.mp taken
    cases parsed with
    | none => cases taken
    | some parsed =>
      obtain ⟨frame, parsed⟩ := parsed
      obtain ⟨handled, handle, made⟩ := bind_eq_ok.mp taken
      cases made
      exact ⟨frame, parsed, _, parse, handle, rfl⟩
  · rintro ⟨frame, parsed, handled, parse, handle, rfl⟩
    simp only [parse, handle, ok_bind]
    rfl

theorem next_taken (c : Bytes) (taken : self.next decompress = .ok (some (after, event))) :
    (self.read c).next decompress = .ok (some (after.read c, event)) := by
  obtain ⟨frame, parsed, handled, parse, handle, rfl⟩ := next_eq_some.mp taken
  refine next_eq_some.mpr ⟨frame, parsed.read c, handled.read c, tryParseFrame_taken c parse, ?_,
    (count_read handled c).symm⟩
  rw [handleFrame_read, handle]
  rfl

theorem next_failed (c : Bytes) (failed : self.next decompress = .error e) :
    (self.read c).next decompress = .error e := by
  unfold next at failed ⊢
  cases parse : self.tryParseFrame with
  | error e' =>
    rw [tryParseFrame_failed c parse]
    rw [parse] at failed
    exact failed
  | ok parsed =>
    cases parsed with
    | none =>
      rw [parse] at failed
      cases failed
    | some parsed =>
      obtain ⟨frame, parsed⟩ := parsed
      rw [tryParseFrame_taken c parse]
      simp only [parse, ok_bind, handleFrame_read] at failed ⊢
      cases handle : parsed.handleFrame decompress frame with
      | error e' =>
        rw [handle] at failed
        exact failed
      | ok handled =>
        rw [handle] at failed
        cases failed

theorem next_shrinks (taken : self.next decompress = .ok (some (after, event))) :
    after.buf.length < self.buf.length := by
  obtain ⟨frame, parsed, handled, parse, handle, rfl⟩ := next_eq_some.mp taken
  have shorter := tryParseFrame_shrinks parse
  rw [count_buf, handleFrame_buf handle]
  omega

theorem next_nil (empty : self.buf = []) : self.next decompress = .ok none := by
  unfold next tryParseFrame
  rw [empty]
  rfl

/-! ### Any cutting -/

variable (decompress) in
/-- **The parser reads in pieces**: what it decides on the bytes it has never changes. -/
def machine : Incremental (WsParser I) Byte WsEvent WsError where
  step self := (self.next decompress).map (Option.map fun r => (r.1, r.2.toList))
  give := read
  size self := self.buf.length
  give_append self c d := read_read self c d
  shrinks step := by
    simp only [map_eq_ok, Option.map_eq_some_iff] at step
    obtain ⟨_, taken, ⟨after, event⟩, rfl, made⟩ := step
    cases made
    exact next_shrinks taken
  failed c failure := by
    rw [map_eq_error] at failure ⊢
    exact next_failed c failure
  taken c step := by
    simp only [map_eq_ok, Option.map_eq_some_iff] at step
    obtain ⟨_, taken, ⟨after, event⟩, rfl, made⟩ := step
    cases made
    rw [next_taken c taken]
    rfl

theorem machine_step {result : Except WsError (Option (WsParser I × Option WsEvent))}
    (is : self.next decompress = result) :
    (machine decompress).step self = result.map (Option.map fun r => (r.1, r.2.toList)) := by
  rw [← is]
  rfl

/-- A decoding call takes steps of the machine, and fails where they fail. -/
theorem drainLoop_steps (budget fuel : Nat) (self : WsParser I) (decoded : Nat)
    (events : List WsEvent) :
    (∃ e, drainLoop decompress budget fuel self decoded events = .error e ∧
      (machine decompress).Ends self (.error e)) ∨
    ∃ after out, drainLoop decompress budget fuel self decoded events = .ok (after, events ++ out) ∧
      (machine decompress).Steps self out after := by
  induction fuel generalizing self decoded events with
  | zero => exact .inr ⟨self, [], by rw [append_nil]; rfl, .refl self⟩
  | succ fuel ih =>
    rw [drainLoop]
    cases taken : self.next decompress with
    | error e => exact .inl ⟨e, rfl, .fails (.refl self) (machine_step taken)⟩
    | ok result =>
      cases result with
      | none => exact .inr ⟨self, [], by rw [append_nil]; rfl, .refl self⟩
      | some result =>
        obtain ⟨next, event⟩ := result
        simp only [ok_bind]
        have first := Incremental.Steps.single (machine_step taken)
        split_ifs
        · exact .inr ⟨next, event.toList, rfl, first⟩
        · rcases ih next (min (decoded + decodedBytes event) usizeMax) (events ++ event.toList)
            with ⟨e, failed, ends⟩ | ⟨after, out, ran, steps⟩
          · exact .inl ⟨e, failed, ends.of_steps first⟩
          · refine .inr ⟨after, event.toList ++ out, ?_, first.trans steps⟩
            rw [ran, append_assoc]

/-- One call of the connection's task: bytes that were read, or decoding with a budget. -/
inductive Call
  | read (data : Bytes)
  | drain (budget : Nat)

/-- The bytes given in a run, in order. -/
def given : List Call → Bytes
  | [] => []
  | .read data :: calls => data ++ given calls
  | .drain _ :: calls => given calls

variable (decompress) in
/-- A run of calls, with all events that were delivered. -/
def run : WsParser I → List Call → Except WsError (WsParser I × List WsEvent)
  | self, [] => .ok (self, [])
  | self, .read data :: calls => run (self.read data) calls
  | self, .drain budget :: calls => do
    let (self, events) ← self.drainEventsInto decompress [] budget
    let (self, more) ← run self calls
    return (self, events ++ more)

/-- A run is over when it failed, or when no whole frame is left in the buffer. -/
def Settled : Except WsError (WsParser I × List WsEvent) → Prop
  | .error _ => True
  | .ok (self, _) => self.tryParseFrame = .ok none

theorem next_eq_none : self.next decompress = .ok none ↔ self.tryParseFrame = .ok none := by
  unfold next
  constructor
  · intro waits
    obtain ⟨parsed, parse, waits⟩ := bind_eq_ok.mp waits
    cases parsed with
    | none => exact parse
    | some parsed =>
      obtain ⟨_, _, made⟩ := bind_eq_ok.mp waits
      cases made
  · intro waits
    rw [waits]
    rfl

/-- **A run that is over is at the one end of its byte stream.** -/
theorem run_ends {calls : List Call} (settled : Settled (run decompress self calls)) :
    (machine decompress).Ends (self.read (given calls)) (run decompress self calls) := by
  induction calls generalizing self with
  | nil =>
    have same : self.read (given []) = self := by simp [read, given]
    rw [same]
    exact .waits (.refl self) (machine_step (next_eq_none.mpr settled))
  | cons call calls ih =>
    cases call with
    | read data =>
      rw [run] at settled ⊢
      rw [given, ← read_read]
      exact ih settled
    | drain budget =>
      rw [run] at settled ⊢
      rw [given]
      rcases drainLoop_steps budget self.buf.length self 0 [] with
        ⟨e, failed, ends⟩ | ⟨after, out, drained, steps⟩
      · have failure : self.drainEventsInto decompress [] budget = .error e := failed
        rw [failure]
        exact ends.of_later (given calls)
      · have ok : self.drainEventsInto decompress [] budget = .ok (after, out) := drained
        rw [ok, ok_bind] at settled ⊢
        simp only at settled ⊢
        have rest := (steps.give (given calls))
        cases ran : run decompress after calls with
        | error e =>
          have ends := @ih after (by rw [ran]; trivial)
          rw [ran] at ends
          exact ends.of_steps rest
        | ok final =>
          rw [ran] at settled
          have ends := @ih after (by rw [ran]; exact settled)
          rw [ran] at ends
          exact ends.of_steps rest

/-! ### Decoding comes to an end -/

theorem Steps.shorter {out : List WsEvent} (steps : (machine decompress).Steps self out after) :
    after.buf.length ≤ self.buf.length := by
  induction steps with
  | refl self => exact le_rfl
  | head first _ ih => exact ih.trans ((machine decompress).shrinks first).le

/-- A decoding call uses bytes when there is a frame, whatever its budget. -/
theorem drainEventsInto_shrinks {next : WsParser I} {events : List WsEvent} {budget : Nat}
    (taken : self.next decompress = .ok (some (next, event)))
    (drained : self.drainEventsInto decompress [] budget = .ok (after, events)) :
    after.buf.length < self.buf.length := by
  have shrinks := next_shrinks taken
  obtain ⟨fuel, length⟩ : ∃ fuel, self.buf.length = fuel + 1 := ⟨self.buf.length - 1, by omega⟩
  unfold drainEventsInto at drained
  rw [length, drainLoop, taken] at drained
  simp only [ok_bind] at drained
  split_ifs at drained
  · cases drained
    exact shrinks
  · rcases drainLoop_steps budget fuel next (min (0 + decodedBytes event) usizeMax)
      ([] ++ event.toList) with ⟨e, failed, _⟩ | ⟨final, out, ran, steps⟩
    · rw [failed] at drained
      cases drained
    · rw [ran] at drained
      cases drained
      exact (Steps.shorter steps).trans_lt shrinks

theorem drainEventsInto_failed {budget : Nat} (failed : self.next decompress = .error e) :
    self.drainEventsInto decompress [] budget = .error e := by
  have something : self.buf ≠ [] := by
    intro empty
    rw [next_nil empty] at failed
    cases failed
  obtain ⟨fuel, length⟩ : ∃ fuel, self.buf.length = fuel + 1 :=
    Nat.exists_eq_succ_of_ne_zero (by simpa using something)
  unfold drainEventsInto
  rw [length, drainLoop, failed]
  rfl

theorem Settled.append {result : Except WsError (WsParser I × List WsEvent)}
    (settled : Settled result) (events : List WsEvent) :
    Settled (do
      let (self, more) ← result
      return (self, events ++ more)) := by
  cases result with
  | error e => trivial
  | ok final => exact settled

/-- **Repeated decoding gets to the end with any budget.** -/
theorem drains_settle (self : WsParser I) (budget : Nat) :
    ∃ n, Settled (run decompress self (List.replicate n (.drain budget))) := by
  -- Induction on the buffer: a call that leaves a frame has used bytes.
  induction length : self.buf.length using Nat.strongRecOn generalizing self with
  | _ size ih =>
    cases taken : self.next decompress with
    | error e =>
      refine ⟨1, ?_⟩
      rw [replicate_one, run, drainEventsInto_failed taken]
      trivial
    | ok result =>
      cases result with
      | none => exact ⟨0, next_eq_none.mp taken⟩
      | some result =>
        cases drained : self.drainEventsInto decompress [] budget with
        | error e =>
          refine ⟨1, ?_⟩
          rw [replicate_one, run, drained]
          trivial
        | ok after =>
          obtain ⟨after, events⟩ := after
          have shorter := drainEventsInto_shrinks taken drained
          obtain ⟨n, settled⟩ := ih _ (length ▸ shorter) after rfl
          refine ⟨n + 1, ?_⟩
          rw [replicate_succ, run, drained, ok_bind]
          exact settled.append events

theorem run_append (self : WsParser I) (calls calls' : List Call) :
    run decompress self (calls ++ calls') = (do
      let (self, events) ← run decompress self calls
      let (self, more) ← run decompress self calls'
      return (self, events ++ more)) := by
  induction calls generalizing self with
  | nil =>
    show run decompress self calls' = _
    rw [run, ok_bind]
    simp only
    cases run decompress self calls' <;> rfl
  | cons call calls ih =>
    cases call with
    | read data =>
      rw [cons_append, run, ih, run]
    | drain budget =>
      rw [cons_append, run, run]
      cases self.drainEventsInto decompress [] budget with
      | error e => rfl
      | ok drained =>
        simp only [ok_bind, ih]
        cases run decompress drained.1 calls with
        | error e => rfl
        | ok middle =>
          show (run decompress middle.1 calls' >>= _) >>= _ = run decompress middle.1 calls' >>= _
          cases run decompress middle.1 calls' with
          | error e => rfl
          | ok final =>
            show Except.ok _ = Except.ok _
            rw [append_assoc]

theorem run_settles (self : WsParser I) (calls : List Call) (budget : Nat) :
    ∃ n, Settled (run decompress self (calls ++ List.replicate n (.drain budget))) := by
  cases ran : run decompress self calls with
  | error e =>
    refine ⟨0, ?_⟩
    rw [replicate_zero, append_nil, ran]
    trivial
  | ok middle =>
    obtain ⟨middle, events⟩ := middle
    obtain ⟨n, settled⟩ := @drains_settle I decompress middle budget
    refine ⟨n, ?_⟩
    rw [run_append, ran, ok_bind]
    exact settled.append events

end Handling

end WsParser

end Wok.Ws
