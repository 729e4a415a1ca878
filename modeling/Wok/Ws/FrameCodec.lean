/-
**Frames written and read back.**

`encodeFrame` writes a frame as its role must: a server plain, a client under a mask that changes
with every frame. Messages go out in one frame or in fragments with control frames between them.

* `applyMask_applyMask` — a mask undoes itself.
* `tryParseFrame_encodeFrame` — **the other side parses a written frame back**, in each of the three
  length encodings.
* `items_carry` — messages and control frames are delivered in their order.
* `parser_faithful` — the parser is independent of how its input is cut, and delivers what the
  other role's encoder was given.
-/

import Wok.Ws.Frame

namespace Wok.Ws

open Wok.Library Wok.Event List

/-! ### Masks -/

theorem Byte.xor_xor (a m : Byte) : a ^^^ m ^^^ m = a := by
  apply Fin.ext
  rw [Fin.xor_val_of_two_pow (w := 8), Fin.xor_val_of_two_pow (w := 8), Nat.xor_assoc,
    Nat.xor_self, Nat.xor_zero]

/-- **A mask undoes itself.** -/
theorem applyMask_applyMask (mask : Mask) (payload : Bytes) :
    applyMask mask (applyMask mask payload) = payload := by
  induction payload using applyMask.induct with
  | case1 a b c d rest ih => simp [applyMask, Byte.xor_xor, ih]
  | case2 remainder short =>
    match remainder, short with
    | [], _ => rfl
    | [a], _ => simp [applyMask, Byte.xor_xor]
    | [a, b], _ => simp [applyMask, Byte.xor_xor]
    | [a, b, c], _ => simp [applyMask, Byte.xor_xor]
    | a :: b :: c :: d :: rest, short => exact (short a b c d rest rfl).elim

theorem length_applyMask (mask : Mask) (payload : Bytes) :
    (applyMask mask payload).length = payload.length := by
  induction payload using applyMask.induct with
  | case1 a b c d rest ih => simp [applyMask, ih]
  | case2 remainder short =>
    match remainder, short with
    | [], _ => rfl
    | [a], _ => rfl
    | [a, b], _ => rfl
    | [a, b, c], _ => rfl
    | a :: b :: c :: d :: rest, short => exact (short a b c d rest rfl).elim

/-! ### The encoder -/

/-- The encoder; its compressor is used by whole messages only. -/
structure WsEncoder where
  role : Role
  maskCounter : UInt32

namespace WsEncoder

def withRole (role : Role) : WsEncoder := { role, maskCounter := 0x9e3779b9 }

/-- The generator of the masks. -/
def xorshift (x : UInt32) : UInt32 :=
  let x := x ^^^ (x <<< 13)
  let x := x ^^^ (x >>> 17)
  x ^^^ (x <<< 5)

/-- `to_be_bytes` of a mask. -/
def maskOf (x : UInt32) : Mask :=
  ⟨Fin.ofNat 256 (x.toNat / 2 ^ 24), Fin.ofNat 256 (x.toNat / 2 ^ 16),
    Fin.ofNat 256 (x.toNat / 2 ^ 8), Fin.ofNat 256 x.toNat⟩

/-- The second byte and the length after it. -/
def lengthBytes (maskBit : Byte) (len : Nat) : Bytes :=
  if len < 126 then [maskBit ||| Fin.ofNat 256 len]
  else if len ≤ 0xFFFF then (maskBit ||| 126) :: beBytes 2 len
  else (maskBit ||| 127) :: beBytes 8 len

def maskBit : Role → Byte
  | .server => 0
  | .client => 0x80

/-- The frame appended to `out`, and the encoder after it. -/
def encodeFrame (self : WsEncoder) (fin rsv1 : Bool) (opcode : Byte) (payload out : Bytes) :
    WsEncoder × Bytes :=
  let b0 : Byte := (if fin then 0x80 else 0) ||| (if rsv1 then 0x40 else 0) ||| opcode
  let out := out ++ b0 :: lengthBytes (maskBit self.role) payload.length
  match self.role with
  | .client =>
    let x := xorshift self.maskCounter
    let mask := maskOf x
    ({ self with maskCounter := x },
      out ++ [mask.m0, mask.m1, mask.m2, mask.m3] ++ applyMask mask payload)
  | .server => (self, out ++ payload)

/-- Frames one after the other. -/
def encodeFrames (self : WsEncoder) : List RawFrame → Bytes → WsEncoder × Bytes
  | [], out => (self, out)
  | frame :: frames, out =>
    let (self, out) := self.encodeFrame frame.fin frame.rsv1 frame.opcode frame.payload out
    self.encodeFrames frames out

theorem encodeFrame_role (self : WsEncoder) (fin rsv1 : Bool) (opcode : Byte)
    (payload out : Bytes) : (self.encodeFrame fin rsv1 opcode payload out).1.role = self.role := by
  unfold encodeFrame
  cases is : self.role <;> simp [is]

theorem encodeFrame_out (self : WsEncoder) (fin rsv1 : Bool) (opcode : Byte)
    (payload out : Bytes) :
    self.encodeFrame fin rsv1 opcode payload out =
      ((self.encodeFrame fin rsv1 opcode payload []).1,
        out ++ (self.encodeFrame fin rsv1 opcode payload []).2) := by
  unfold encodeFrame
  cases self.role <;> simp

theorem encodeFrames_out (self : WsEncoder) (frames : List RawFrame) (out : Bytes) :
    self.encodeFrames frames out =
      ((self.encodeFrames frames []).1, out ++ (self.encodeFrames frames []).2) := by
  induction frames generalizing self out with
  | nil => simp [encodeFrames]
  | cons frame frames ih =>
    simp only [encodeFrames]
    rw [encodeFrame_out, ih, ih _ (self.encodeFrame _ _ _ _ []).2]
    simp

theorem encodeFrames_role (self : WsEncoder) (frames : List RawFrame) (out : Bytes) :
    (self.encodeFrames frames out).1.role = self.role := by
  induction frames generalizing self out with
  | nil => rfl
  | cons frame frames ih =>
    simp only [encodeFrames]
    rw [ih, encodeFrame_role]

theorem encodeFrames_append (self : WsEncoder) (frames frames' : List RawFrame) (out : Bytes) :
    self.encodeFrames (frames ++ frames') out =
      (self.encodeFrames frames out).1.encodeFrames frames' (self.encodeFrames frames out).2 := by
  induction frames generalizing self out with
  | nil => rfl
  | cons frame frames ih =>
    simp only [cons_append, encodeFrames]
    rw [ih]

end WsEncoder

/-! ### One frame back -/

/-- The opcodes that are used. -/
def opcodes : List Byte := [opCont, opText, opBinary, opClose, opPing, opPong]

/-- A frame that may be sent to a parser of this size limit. -/
structure RawFrame.Sendable (frame : RawFrame) (maxMessage : Nat) : Prop where
  opcode : frame.opcode ∈ opcodes
  plain : frame.rsv1 = false
  control : 0x8 ≤ frame.opcode → frame.fin = true ∧ frame.payload.length ≤ 125
  fits : frame.payload.length ≤ maxMessage
  /-- A `Vec` holds at most `isize::MAX` bytes. -/
  vec : frame.payload.length < 2 ^ 63

theorem firstByte : ∀ fin : Bool, ∀ opcode ∈ opcodes,
    let b0 : Byte := (if fin then 0x80 else 0) ||| 0 ||| opcode
    (b0 &&& 0x80 != 0) = fin ∧ (b0 &&& 0x40 != 0) = false ∧ b0 &&& 0x0F = opcode ∧
      b0 &&& 0x20 = 0 ∧ b0 &&& 0x10 = 0 := by
  intro fin
  cases fin <;> decide +kernel

theorem secondByte : ∀ role : Role, ∀ n : Fin 128,
    (WsEncoder.maskBit role ||| Fin.ofNat 256 n.val) &&& 0x7F = Fin.ofNat 256 n.val ∧
      ((WsEncoder.maskBit role ||| Fin.ofNat 256 n.val) &&& 0x80 != 0) =
        decide (role = .client) := by
  intro role
  cases role <;> decide +kernel

namespace WsParser

variable {I : Type}

/-- **Each length encoding is read back.** -/
theorem readLength_lengthBytes (role : Role) {len : Nat} (vec : len < 2 ^ 63) (rest : Bytes) :
    ∃ b1 more, WsEncoder.lengthBytes (WsEncoder.maskBit role) len = b1 :: more ∧
      (b1 &&& 0x80 != 0) = decide (role = .client) ∧
      readLength b1 (more ++ rest) = .ok (some (len, rest)) := by
  unfold WsEncoder.lengthBytes readLength
  split_ifs with short two
  · obtain ⟨bits, masked⟩ := secondByte role ⟨len, by omega⟩
    refine ⟨_, [], rfl, masked, ?_⟩
    have value : ((WsEncoder.maskBit role ||| Fin.ofNat 256 len) &&& 0x7F).val = len := by
      rw [bits]
      exact Nat.mod_eq_of_lt (by omega)
    simp only [value]
    rw [if_neg (by omega), if_neg (by omega)]
    rfl
  · obtain ⟨bits, masked⟩ := secondByte role ⟨126, by omega⟩
    have value : ((WsEncoder.maskBit role ||| 126) &&& 0x7F).val = 126 := congrArg Fin.val bits
    refine ⟨_, _, rfl, masked, ?_⟩
    have length : (beBytes 2 len).length = 2 := by simp
    simp only [value]
    rw [if_pos trivial, if_neg (by simp; omega), take_left' length, drop_left' length,
      beVal_beBytes (by omega)]
  · obtain ⟨bits, masked⟩ := secondByte role ⟨127, by omega⟩
    have value : ((WsEncoder.maskBit role ||| 127) &&& 0x7F).val = 127 := congrArg Fin.val bits
    refine ⟨_, _, rfl, masked, ?_⟩
    have length : (beBytes 8 len).length = 8 := by simp
    have low : len.testBit 63 = false := Nat.testBit_lt_two_pow vec
    simp only [value]
    rw [if_neg (by omega), if_pos trivial, if_neg (by simp), take_left' length,
      drop_left' length, beVal_beBytes (by omega), low, if_neg Bool.false_ne_true]

/-- The head of a sent frame passes the checks of the other side. -/
theorem checkHead_sent {parser : WsParser I} {role : Role} (opposite : role ≠ parser.role)
    {frame : RawFrame} (sendable : frame.Sendable parser.maxMessage) {b1 : Byte}
    (masked : (b1 &&& 0x80 != 0) = decide (role = .client)) :
    parser.checkHead ((if frame.fin then 0x80 else 0) ||| (if frame.rsv1 then 0x40 else 0) |||
      frame.opcode) b1 =
      .ok ⟨frame.fin, frame.rsv1, frame.opcode, decide (role = .client)⟩ := by
  obtain ⟨fin, rsv1, opcode, clear, clear'⟩ := firstByte frame.fin frame.opcode sendable.opcode
  unfold checkHead
  rw [sendable.plain]
  simp only [Bool.false_eq_true, if_false, fin, rsv1, opcode, clear, clear', masked]
  cases role with
  | server =>
    have other : parser.role = .client := by
      cases is : parser.role <;> simp_all
    simp only [other]
    rfl
  | client =>
    have other : parser.role = .server := by
      cases is : parser.role <;> simp_all
    simp only [other]
    rfl

/-- **The other side parses a written frame back.** -/
theorem tryParseFrame_encodeFrame {parser : WsParser I} (empty : parser.buf = [])
    {encoder : WsEncoder} (opposite : encoder.role ≠ parser.role) {frame : RawFrame}
    (sendable : frame.Sendable parser.maxMessage) (rest : Bytes) :
    (parser.read ((encoder.encodeFrame frame.fin frame.rsv1 frame.opcode frame.payload []).2
      ++ rest)).tryParseFrame = .ok (some (frame, parser.read rest)) := by
  have fits : parser.checkLength ⟨frame.fin, frame.rsv1, frame.opcode,
      decide (encoder.role = .client)⟩ frame.payload.length = .ok () := by
    unfold checkLength
    simp only [bind_eq_ok, onlyIf_eq_ok, ensure_eq_ok]
    refine ⟨(), fun control => ?_, sendable.fits⟩
    obtain ⟨whole, short⟩ := sendable.control control
    exact ⟨(), whole, short⟩
  unfold WsEncoder.encodeFrame
  cases is : encoder.role with
  | server =>
    rw [is] at opposite fits
    obtain ⟨b1, more, spelled, masked, length⟩ :=
      readLength_lengthBytes .server sendable.vec (frame.payload ++ rest)
    refine tryParseFrame_eq_some.mpr ⟨_, b1, more ++ (frame.payload ++ rest), _, _, _, rest, ?_,
      checkHead_sent opposite sendable masked, length, fits, ?_, rfl, ?_⟩
    · simp [read, empty, spelled]
    · simp [readPayload]
    · simp [read, empty]
  | client =>
    rw [is] at opposite fits
    let mask := WsEncoder.maskOf (WsEncoder.xorshift encoder.maskCounter)
    obtain ⟨b1, more, spelled, masked, length⟩ :=
      readLength_lengthBytes .client sendable.vec
        ([mask.m0, mask.m1, mask.m2, mask.m3] ++ applyMask mask frame.payload ++ rest)
    refine tryParseFrame_eq_some.mpr ⟨_, b1,
      more ++ ([mask.m0, mask.m1, mask.m2, mask.m3] ++ applyMask mask frame.payload ++ rest), _, _,
      _, rest, ?_, checkHead_sent opposite sendable masked, length, fits, ?_, rfl, ?_⟩
    · simp [read, empty, spelled, mask]
    · have whole : (applyMask mask frame.payload).length = frame.payload.length :=
        length_applyMask mask frame.payload
      simp only [readPayload, decide_true, if_true, cons_append, nil_append]
      rw [if_neg (by simp [whole]), take_left' whole, drop_left' whole,
        applyMask_applyMask]
    · simp [read, empty]

end WsParser

/-! ### Messages and control frames -/

inductive Control
  | ping
  | pong
  | close

structure ControlFrame where
  control : Control
  payload : Bytes

/-- A Close body: empty, or a status code that may be sent with a UTF-8 reason. -/
def ValidClose (body : Bytes) : Prop :=
  body = [] ∨ ∃ code reason, code < 2 ^ 16 ∧ closeCodeAllowed code = true ∧
    utf8Valid reason = true ∧ body = beBytes 2 code ++ reason

namespace ControlFrame

def opcode (self : ControlFrame) : Byte :=
  match self.control with
  | .ping => opPing
  | .pong => opPong
  | .close => opClose

def event (self : ControlFrame) : WsEvent :=
  match self.control with
  | .ping => .ping self.payload
  | .pong => .pong self.payload
  | .close => .close self.payload

def frame (self : ControlFrame) : RawFrame := ⟨true, false, self.opcode, self.payload⟩

def Valid (self : ControlFrame) : Prop :=
  self.payload.length ≤ 125 ∧ (self.opcode = opClose → ValidClose self.payload)

end ControlFrame

def MessageKind.opcode : MessageKind → Byte
  | .text => opText
  | .binary => opBinary

theorem MessageKind.opcode_data (kind : MessageKind) :
    kind.opcode ∈ [opCont, opText, opBinary] := by
  cases kind <;> decide

/-- What is sent: a control frame, or a message with its further fragments, each after the control
frames that go before it. -/
inductive Item
  | control (frame : ControlFrame)
  | message (kind : MessageKind) (first : Bytes) (more : List (List ControlFrame × Bytes))

/-- The frames after the first of a message. -/
def continuation : List (List ControlFrame × Bytes) → List RawFrame
  | [] => []
  | (controls, payload) :: more =>
    controls.map ControlFrame.frame ++ ⟨more.isEmpty, false, opCont, payload⟩ :: continuation more

namespace Item

def frames : Item → List RawFrame
  | control frame => [frame.frame]
  | message kind first more => ⟨more.isEmpty, false, kind.opcode, first⟩ :: continuation more

/-- A message is delivered with its last fragment, so after the control frames inside it. -/
def events : Item → List WsEvent
  | control frame => [frame.event]
  | message kind first more =>
    (more.flatMap fun part => part.1.map ControlFrame.event) ++
      [.message kind (first ++ more.flatMap Prod.snd)]

def controls : Item → List ControlFrame
  | control frame => [frame]
  | message _ _ more => more.flatMap Prod.fst

/-- Messages are within the size limit (and a `Vec`), control frames are valid. -/
def Valid (maxMessage : Nat) (item : Item) : Prop :=
  (∀ frame ∈ item.controls, frame.Valid) ∧
    match item with
    | control _ => True
    | message _ first more =>
      (first ++ more.flatMap Prod.snd).length ≤ maxMessage ∧
        (first ++ more.flatMap Prod.snd).length < 2 ^ 63

/-- The control frames are within the size limit as well. -/
def ControlsFit (maxMessage : Nat) (item : Item) : Prop :=
  ∀ frame ∈ item.controls, frame.payload.length ≤ maxMessage

end Item

theorem checkClose_valid {body : Bytes} (valid : ValidClose body) : checkClose body = .ok () := by
  rcases valid with rfl | ⟨code, reason, small, allowed, utf8, rfl⟩
  · rfl
  · obtain ⟨hi, lo, spelled⟩ : ∃ hi lo, beBytes 2 code = [hi, lo] := ⟨_, _, rfl⟩
    have value : beVal [hi, lo] = code := by
      rw [← spelled]
      exact beVal_beBytes (by omega)
    rw [spelled]
    simp [checkClose, value, allowed, utf8]

variable {maxMessage : Nat}

theorem ControlFrame.sendable {frame : ControlFrame} (valid : frame.Valid)
    (fits : frame.payload.length ≤ maxMessage) : frame.frame.Sendable maxMessage where
  opcode := by
    show frame.opcode ∈ opcodes
    unfold ControlFrame.opcode
    cases frame.control <;> decide
  plain := rfl
  control _ := ⟨rfl, valid.1⟩
  fits := fits
  vec := by
    have short := valid.1
    show frame.payload.length < 2 ^ 63
    omega

/-- Within the size limit and a `Vec`. -/
def Sized (maxMessage : Nat) (payload : Bytes) : Prop :=
  payload.length ≤ maxMessage ∧ payload.length < 2 ^ 63

theorem Sized.of_append {s t : Bytes} (sized : Sized maxMessage (s ++ t)) :
    Sized maxMessage s ∧ Sized maxMessage t := by
  unfold Sized at *
  rw [length_append] at sized
  omega

theorem dataFrame_sendable {fin : Bool} {opcode : Byte} (data : opcode ∈ [opCont, opText, opBinary])
    {payload : Bytes} (sized : Sized maxMessage payload) :
    RawFrame.Sendable ⟨fin, false, opcode, payload⟩ maxMessage where
  opcode := mem_of_mem_take (i := 3) data
  plain := rfl
  control high := by
    have low : ∀ opcode ∈ [opCont, opText, opBinary], ¬0x8 ≤ opcode := by decide +kernel
    exact absurd high (low opcode data)
  fits := sized.1
  vec := sized.2

/-! ### Delivery -/

namespace WsParser

section Delivery

variable {I : Type} (decompress : I → Bytes → Nat → Except WsError (Bytes × I))

/-- Frames of any encoder of the other role lead the parser from one state to the other and deliver
these events, whatever bytes follow. -/
def Delivers (parser : WsParser I) (frames : List RawFrame) (events : List WsEvent)
    (after : WsParser I) : Prop :=
  after.role = parser.role ∧ ∀ encoder : WsEncoder, encoder.role ≠ parser.role → ∀ rest,
    (machine decompress).Steps (parser.read ((encoder.encodeFrames frames []).2 ++ rest)) events
      (after.read rest)

/-- The parser has read everything; `opened` is the message whose fragments it holds. -/
structure Ready (parser : WsParser I) (maxMessage : Nat) (opened : Option (MessageKind × Bytes)) :
    Prop where
  limit : parser.maxMessage = maxMessage
  empty : parser.buf = []
  fragOpcode : parser.fragOpcode = opened.map fun o => o.1.opcode
  frag : ∀ o ∈ opened, parser.fragRsv1 = false ∧ parser.frag = o.2

/-- Frames lead any parser that is ready with one open message to one that is ready with the other,
and deliver these events. -/
def Carries (maxMessage : Nat) (opened : Option (MessageKind × Bytes)) (frames : List RawFrame)
    (events : List WsEvent) (opened' : Option (MessageKind × Bytes)) : Prop :=
  ∀ parser : WsParser I, parser.Ready maxMessage opened →
    ∃ after, after.Ready maxMessage opened' ∧ Delivers decompress parser frames events after

variable {decompress}
variable {parser : WsParser I} {maxMessage : Nat} {opened opened' : Option (MessageKind × Bytes)}
  {held payload : Bytes} {kind : MessageKind} {frames : List RawFrame} {events : List WsEvent}

theorem Delivers.refl (parser : WsParser I) : Delivers decompress parser [] [] parser :=
  ⟨rfl, fun _ _ _ => .refl _⟩

theorem Delivers.trans {first middle last : WsParser I} {frames' : List RawFrame}
    {events' : List WsEvent} (one : Delivers decompress first frames events middle)
    (two : Delivers decompress middle frames' events' last) :
    Delivers decompress first (frames ++ frames') (events ++ events') last := by
  refine ⟨two.1.trans one.1, fun encoder opposite rest => ?_⟩
  have opposite' : (encoder.encodeFrames frames []).1.role ≠ middle.role := by
    rw [WsEncoder.encodeFrames_role, one.1]
    exact opposite
  have steps := one.2 encoder opposite
    (((encoder.encodeFrames frames []).1.encodeFrames frames' []).2 ++ rest)
  rw [WsEncoder.encodeFrames_append, WsEncoder.encodeFrames_out, append_assoc]
  exact steps.trans (two.2 _ opposite' rest)

theorem Delivers.single {handled : WsParser I} {frame : RawFrame} {event : Option WsEvent}
    (empty : parser.buf = []) (sendable : frame.Sendable parser.maxMessage)
    (handle : parser.handleFrame decompress frame = .ok (handled, event))
    (role : handled.role = parser.role) :
    Delivers decompress parser [frame] event.toList handled.count := by
  refine ⟨?_, fun encoder opposite rest => ?_⟩
  · rw [← role]
    unfold count
    split_ifs <;> rfl
  · refine Incremental.Steps.single (machine_step (next_eq_some.mpr ⟨frame, parser.read rest,
      handled.read rest, tryParseFrame_encodeFrame empty opposite sendable rest, ?_,
      (count_read handled rest).symm⟩))
    rw [handleFrame_read, handle]
    rfl

theorem Ready.count (ready : parser.Ready maxMessage opened) :
    parser.count.Ready maxMessage opened := by
  unfold WsParser.count
  split_ifs
  · exact ⟨ready.limit, ready.empty, ready.fragOpcode, ready.frag⟩
  · exact ready

theorem Carries.refl : Carries decompress maxMessage opened [] [] opened :=
  fun parser ready => ⟨parser, ready, .refl parser⟩

theorem Carries.trans {opened'' : Option (MessageKind × Bytes)} {frames' : List RawFrame}
    {events' : List WsEvent} (one : Carries decompress maxMessage opened frames events opened')
    (two : Carries decompress maxMessage opened' frames' events' opened'') :
    Carries decompress maxMessage opened (frames ++ frames') (events ++ events') opened'' := by
  intro parser ready
  obtain ⟨middle, ready', first⟩ := one parser ready
  obtain ⟨after, ready'', rest⟩ := two middle ready'
  exact ⟨after, ready'', first.trans rest⟩

theorem Carries.single {frame : RawFrame} (event : Option WsEvent)
    (sendable : frame.Sendable maxMessage)
    (handles : ∀ parser : WsParser I, parser.Ready maxMessage opened →
      ∃ handled : WsParser I, handled.Ready maxMessage opened' ∧ handled.role = parser.role ∧
        parser.handleFrame decompress frame = .ok (handled, event)) :
    Carries decompress maxMessage opened [frame] event.toList opened' := by
  intro parser ready
  obtain ⟨handled, ready', role, handle⟩ := handles parser ready
  exact ⟨_, ready'.count, .single ready.empty (ready.limit ▸ sendable) handle role⟩

theorem control_carries {frame : ControlFrame} (valid : frame.Valid)
    (fits : frame.payload.length ≤ maxMessage) :
    Carries decompress maxMessage opened [frame.frame] [frame.event] opened := by
  refine Carries.single (some frame.event) (frame.sendable valid fits) fun parser ready =>
    ⟨parser, ready, rfl, ?_⟩
  obtain ⟨control, payload⟩ := frame
  cases control with
  | ping => rfl
  | pong => rfl
  | close =>
    show (checkClose payload >>= _) = _
    rw [checkClose_valid (valid.2 rfl)]
    rfl

theorem controls_carry {controls : List ControlFrame} (valid : ∀ frame ∈ controls, frame.Valid)
    (fits : ∀ frame ∈ controls, frame.payload.length ≤ maxMessage) :
    Carries decompress maxMessage opened (controls.map ControlFrame.frame)
      (controls.map ControlFrame.event) opened := by
  induction controls with
  | nil => exact .refl
  | cons frame controls ih =>
    obtain ⟨first, rest⟩ := forall_mem_cons.mp valid
    obtain ⟨fit, fits⟩ := forall_mem_cons.mp fits
    exact (control_carries first fit).trans (ih rest fits)

/-- A fragment in the middle of a message is kept. -/
theorem fragment_carries (sized : Sized maxMessage (held ++ payload)) :
    Carries decompress maxMessage (some (kind, held)) [⟨false, false, opCont, payload⟩] []
      (some (kind, held ++ payload)) := by
  refine Carries.single none (dataFrame_sendable (by decide) sized.of_append.2)
    fun parser ready => ?_
  obtain ⟨rsv1, frag⟩ := ready.frag _ rfl
  refine ⟨{ parser with frag := held ++ payload },
    ⟨ready.limit, ready.empty, ready.fragOpcode, ?_⟩, rfl, ?_⟩
  · rintro o ⟨⟩
    exact ⟨rsv1, rfl⟩
  · show parser.continueMessage decompress _ = _
    unfold continueMessage
    rw [ready.fragOpcode]
    simp only [Option.map_some, frag]
    rw [ensure_of (ready.limit ▸ sized.1)]
    rfl

theorem messageKind_opcode (kind : MessageKind) : messageKind kind.opcode = kind := by
  cases kind <;> rfl

theorem last_carries (sized : Sized maxMessage (held ++ payload)) :
    Carries decompress maxMessage (some (kind, held)) [⟨true, false, opCont, payload⟩]
      [.message kind (held ++ payload)] none := by
  refine Carries.single (some _) (dataFrame_sendable (by decide) sized.of_append.2)
    fun parser ready => ?_
  obtain ⟨rsv1, frag⟩ := ready.frag _ rfl
  refine ⟨{ parser with fragOpcode := none, frag := [] },
    ⟨ready.limit, ready.empty, rfl, by simp⟩, rfl, ?_⟩
  show parser.continueMessage decompress _ = _
  unfold continueMessage
  rw [ready.fragOpcode]
  simp only [Option.map_some, frag, rsv1]
  rw [ensure_of (ready.limit ▸ sized.1), messageKind_opcode]
  rfl

theorem handleFrame_data (parser : WsParser I) (fin : Bool) (kind : MessageKind)
    (payload : Bytes) : parser.handleFrame decompress ⟨fin, false, kind.opcode, payload⟩ =
      parser.startMessage decompress ⟨fin, false, kind.opcode, payload⟩ := by
  cases kind <;> rfl

theorem Ready.idle (ready : parser.Ready maxMessage none) :
    parser.fragOpcode = none := ready.fragOpcode

theorem first_carries (kind : MessageKind) (sized : Sized maxMessage payload) :
    Carries decompress maxMessage none [⟨false, false, kind.opcode, payload⟩] []
      (some (kind, payload)) := by
  refine Carries.single none (dataFrame_sendable kind.opcode_data sized)
    fun parser ready =>
      ⟨{ parser with fragOpcode := some kind.opcode, fragRsv1 := false, frag := payload },
        ⟨ready.limit, ready.empty, rfl, ?_⟩, rfl, ?_⟩
  · rintro o ⟨⟩
    exact ⟨rfl, rfl⟩
  · rw [handleFrame_data]
    unfold startMessage
    rw [ensure_of ready.idle, ok_bind, if_neg Bool.false_ne_true,
      ensure_of (ready.limit ▸ sized.1)]
    rfl

/-- A message in one frame is delivered at once. -/
theorem whole_carries (kind : MessageKind) (sized : Sized maxMessage payload) :
    Carries decompress maxMessage none [⟨true, false, kind.opcode, payload⟩]
      [.message kind payload] none := by
  refine Carries.single (some _) (dataFrame_sendable kind.opcode_data sized)
    fun parser ready => ⟨parser, ready, rfl, ?_⟩
  rw [handleFrame_data]
  unfold startMessage
  rw [ensure_of ready.idle, ok_bind, if_pos rfl]
  show Except.ok (parser, some (WsEvent.message (messageKind kind.opcode) payload)) = _
  rw [messageKind_opcode]

/-- The rest of a fragmented message, with the control frames inside it. -/
theorem continuation_carries {more : List (List ControlFrame × Bytes)} (unfinished : more ≠ [])
    (valid : ∀ frame ∈ more.flatMap Prod.fst, frame.Valid)
    (fit : ∀ frame ∈ more.flatMap Prod.fst, frame.payload.length ≤ maxMessage)
    (sized : Sized maxMessage (held ++ more.flatMap Prod.snd)) :
    Carries decompress maxMessage (some (kind, held)) (continuation more)
      ((more.flatMap fun part => part.1.map ControlFrame.event) ++
        [.message kind (held ++ more.flatMap Prod.snd)]) none := by
  induction more generalizing held with
  | nil => exact absurd rfl unfinished
  | cons part more ih =>
    obtain ⟨controls, payload⟩ := part
    simp only [flatMap_cons, forall_mem_append, ← append_assoc] at valid fit sized ⊢
    have between := @controls_carry I decompress maxMessage (some (kind, held)) _ valid.1 fit.1
    cases more with
    | nil => simpa [continuation] using between.trans (last_carries sized.of_append.1)
    | cons next more =>
      rw [append_assoc]
      exact between.trans ((fragment_carries sized.of_append.1).trans
        (ih (cons_ne_nil _ _) valid.2 fit.2 sized))

/-- **An item is delivered as it is.** -/
theorem item_carries {item : Item} (valid : item.Valid maxMessage)
    (fit : item.ControlsFit maxMessage) :
    Carries decompress maxMessage none item.frames item.events none := by
  cases item with
  | control frame =>
    exact control_carries (valid.1 frame mem_cons_self) (fit frame mem_cons_self)
  | message kind first more =>
    obtain ⟨controls, (sized : Sized maxMessage _)⟩ := valid
    cases more with
    | nil =>
      have whole := @whole_carries I decompress _ _ kind sized
      simpa [Item.frames, Item.events, continuation] using whole
    | cons part more =>
      exact (first_carries kind sized.of_append.1).trans
        (continuation_carries (cons_ne_nil part more) controls fit sized)

/-- **A sequence of items is delivered in its order.** -/
theorem items_carry {items : List Item} (valid : ∀ item ∈ items, item.Valid maxMessage)
    (fit : ∀ item ∈ items, item.ControlsFit maxMessage) :
    Carries decompress maxMessage none (items.flatMap Item.frames) (items.flatMap Item.events)
      none := by
  induction items with
  | nil => exact .refl
  | cons item items ih =>
    obtain ⟨first, rest⟩ := forall_mem_cons.mp valid
    obtain ⟨fits, fit⟩ := forall_mem_cons.mp fit
    exact (item_carries first fits).trans (ih rest fit)

theorem ready_withRole (maxMessage : Nat) (inflater : Option I) (role : Role) :
    (withRole maxMessage inflater role).Ready maxMessage none :=
  ⟨rfl, rfl, rfl, fun _ member => nomatch member⟩

end Delivery

end WsParser

/-- **The parser and the other side's encoder.** Without permessage-deflate, whatever the role and
the size limit: two runs over one byte stream that have decoded all they can end the same, in their
events and in what is left of the bytes, or with the same failure; repeated decoding with any budget
gets there; and the frames of the other role for any messages within the limit and valid control
frames within it are delivered as exactly these. -/
theorem parser_faithful {I : Type} (decompress : I → Bytes → Nat → Except WsError (Bytes × I))
    (maxMessage : Nat) (role : Role) :
    (∀ calls calls', WsParser.given calls = WsParser.given calls' →
      WsParser.Settled (WsParser.run decompress (.withRole maxMessage none role) calls) →
      WsParser.Settled (WsParser.run decompress (.withRole maxMessage none role) calls') →
      WsParser.run decompress (.withRole maxMessage none role) calls =
        WsParser.run decompress (.withRole maxMessage none role) calls') ∧
    (∀ calls budget, ∃ n, WsParser.Settled (WsParser.run decompress
      (.withRole maxMessage none role) (calls ++ List.replicate n (.drain budget)))) ∧
    ∀ items : List Item, (∀ item ∈ items, item.Valid maxMessage) →
      (∀ item ∈ items, item.ControlsFit maxMessage) →
      ∀ encoder : WsEncoder, encoder.role ≠ role → ∀ calls,
        WsParser.given calls = (encoder.encodeFrames (items.flatMap Item.frames) []).2 →
        WsParser.Settled (WsParser.run decompress (.withRole maxMessage none role) calls) →
        ∃ parser, WsParser.run decompress (.withRole maxMessage none role) calls =
          .ok (parser, items.flatMap Item.events) ∧ parser.buf = [] := by
  refine ⟨?_, fun calls budget => WsParser.run_settles _ calls budget, ?_⟩
  · intro calls calls' same settled settled'
    have ends := WsParser.run_ends settled
    rw [same] at ends
    exact ends.unique (WsParser.run_ends settled')
  · intro items valid fit encoder opposite calls sent settled
    obtain ⟨parser, ready, _, delivers⟩ := @WsParser.items_carry I decompress _ _ valid fit _
      (WsParser.ready_withRole maxMessage none role)
    have steps := delivers encoder opposite []
    have same : parser.read [] = parser := by simp [WsParser.read]
    rw [append_nil, ← sent, same] at steps
    have waits : parser.next decompress = .ok none := WsParser.next_nil ready.empty
    exact ⟨parser, (WsParser.run_ends settled).unique (.waits steps (WsParser.machine_step waits)),
      ready.empty⟩

/-- A text in two fragments with a Ping between them, cut anywhere. -/
theorem parser_faithful_fragments : ∃ calls parser,
    WsParser.given calls = ((WsEncoder.withRole .client).encodeFrames (Item.frames
      (.message .text [104] [([⟨.ping, [1]⟩], [105])])) []).2 ∧
    WsParser.run (fun i payload _ => .ok (payload, i)) (.withRole 10 (none : Option Unit) .server)
      calls = .ok (parser, [.ping [1], .message .text [104, 105]]) := by
  have faithful := parser_faithful (fun (i : Unit) payload _ => .ok (payload, i)) 10 .server
  obtain ⟨n, settled⟩ := faithful.2.1 [.read ((WsEncoder.withRole .client).encodeFrames (Item.frames
      (.message .text [104] [([⟨.ping, [1]⟩], [105])])) []).2] 0
  have given : ∀ n data, WsParser.given ([.read data] ++ List.replicate n (.drain 0)) = data := by
    intro n data
    induction n with
    | zero => simp [WsParser.given]
    | succ n ih => simpa [replicate_succ, WsParser.given] using ih
  obtain ⟨parser, ran, _⟩ := faithful.2.2 [.message .text [104] [([⟨.ping, [1]⟩], [105])]]
    (by simp [Item.Valid, Item.controls, ControlFrame.Valid, ControlFrame.opcode, opPing, opClose])
    (by simp [Item.ControlsFit, Item.controls]) (WsEncoder.withRole .client) (by decide) _
    (given n _) settled
  exact ⟨_, parser, given n _, ran⟩

/-- A valid Ping of one byte is refused by a parser whose size limit is zero; and with budget zero one
decoding call after two Pings delivers one of them, while a call after each delivers both. -/
theorem ping_past_limit :
    (¬∀ items : List Item, (∀ item ∈ items, item.Valid 0) → ∀ calls,
      WsParser.given calls =
        ((WsEncoder.withRole .client).encodeFrames (items.flatMap Item.frames) []).2 →
      WsParser.Settled (WsParser.run (fun i payload _ => .ok (payload, i))
        (.withRole 0 (none : Option Unit) .server) calls) →
      ∃ parser, WsParser.run (fun i payload _ => .ok (payload, i))
        (.withRole 0 (none : Option Unit) .server) calls =
          .ok (parser, items.flatMap Item.events)) ∧
    ∃ ping, WsParser.run (fun i payload _ => .ok (payload, i))
        (.withRole 125 (none : Option Unit) .server) [.read (ping ++ ping), .drain 0] ≠
      WsParser.run (fun i payload _ => .ok (payload, i)) (.withRole 125 none .server)
        [.read ping, .drain 0, .read ping, .drain 0] := by
  refine ⟨fun delivered => ?_,
    ((WsEncoder.withRole .client).encodeFrames [ControlFrame.frame ⟨.ping, [7]⟩] []).2,
    fun same => absurd (congrArg (fun ran => ran.toOption.map (·.2.length)) same) (by decide)⟩
  have refused : WsParser.run (fun i payload _ => .ok (payload, i))
      (.withRole 0 (none : Option Unit) .server)
      [.read ((WsEncoder.withRole .client).encodeFrames [ControlFrame.frame ⟨.ping, [7]⟩] []).2,
        .drain 1] = .error .messageTooLarge := rfl
  obtain ⟨parser, ran⟩ := delivered [.control ⟨.ping, [7]⟩]
    (by simp [Item.Valid, Item.controls, ControlFrame.Valid, ControlFrame.opcode, opPing, opClose])
    [.read ((WsEncoder.withRole .client).encodeFrames [ControlFrame.frame ⟨.ping, [7]⟩] []).2,
      .drain 1] (append_nil _) (by rw [refused]; trivial)
  rw [refused] at ran
  cases ran

end Wok.Ws
