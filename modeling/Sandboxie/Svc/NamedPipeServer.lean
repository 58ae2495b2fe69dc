import Sandboxie.Common.Text
import Sandboxie.Lib.Access
import Sandboxie.Lib.Bytes

/-!
# Requests for pipes and ports

`SetHandler`, `WriteHandler`, `LpcConnectHandler`, `LpcRequestHandler` and `AlpcRequestHandler` of
`core/svc/namedpipeserver.cpp`, as the accesses that they make to the message that was received,
to their reply, to the buffer in which a port puts a message, and to a view that it maps.

What Windows does with the memory that it is given stays within the lengths that it is given.
Sums of lengths are those of 32-bit numbers.
-/

namespace Sandboxie.NamedPipeServer

open Access Bytes List

inductive Block
  | message
  | reply
  | receive
  | view
deriving DecidableEq

/-- A message; `h.length` is the number of its bytes, and it has a header. -/
structure Message where
  bytes : List UInt8
  length_ge : 8 ≤ bytes.length

def Message.length (msg : Message) : Nat := msg.bytes.length

def PIPE_MAX_DATA_LEN : Nat := 0x00FFFFFF
def PAGE_SIZE : Nat := 0x1000
/-- `data[328]`, the longest message of a port. -/
def MAX_PORTMSG_LENGTH : Nat := 328

/-- How `NtAlpcSendWaitReceivePort` ends that is given a receive buffer for a length. -/
structure AlpcResult (room : Nat) where
  success : Bool
  msgLen : Nat
  msgLen_le : msgLen ≤ room
  /-- `TotalLength` of the message that was received -/
  totalLength : Nat
  receiveFlags : Nat
  viewBase : Bool
  viewSize : Nat

/-- How `NtConnectPort` ends that is given connection data of a length. -/
structure ConnectResult (room : Nat) where
  success : Bool
  infoLen : Nat
  infoLen_le : infoLen ≤ room

/-- What Windows and the rest of the server say. -/
structure Machine where
  towlower : WChar → WChar
  win64 : Bool
  find : Nat → Bool
  restrictToken : Bool
  /-- `LONG_REPLY` and `HeapAlloc`, for a size -/
  grantReply : Nat → Bool
  grantReceive : Nat → Bool
  /-- `m_ProxyHandle->Create` -/
  createHandle : Bool
  connectPort : ∀ room, ConnectResult room
  /-- `m_pNtAlpcConnectPort` succeeds, and is there. -/
  alpcConnectPort : Bool
  /-- `m_pNtAlpcSendWaitReceivePort` is there. -/
  hasAlpcSend : Bool
  alpcSend : ∀ room, AlpcResult room
  /-- The length of what `NtRequestWaitReplyPort` puts into the reply. -/
  portReply : Nat
  portReply_le : portReply ≤ MAX_PORTMSG_LENGTH

/-- A sum of two `ULONG`. -/
def add32 (a b : Nat) : Nat := (a + b) % 2 ^ 32

/-- The accesses of a handler, and the sizes of its reply, its receive buffer and the view. -/
structure Trace where
  accesses : List (Access Block)
  reply : Nat := 0
  receive : Nat := 0
  view : Nat := 0

/-- The handler reads `h.length` and gives up. -/
def Trace.refused (accesses : List (Access Block)) : Trace := { accesses }

/-! ### Pipes -/

/-- The two handlers that hand data of the message to Windows, with the largest length, whether
the data is handed over, and the size of the reply with the offset of its `iosb`. -/
def dataHandler (m : Machine) (msg : Message) (maxLen : Nat) (handed : Bool)
    (sizeofRpl iosb : Nat) : Trace :=
  if msg.length < 20 then .refused [⟨.message, 0, 4⟩]
  else
    let dataLen := u32 msg.bytes 12
    let fields := [⟨.message, 0, 4⟩, ⟨.message, 12, 4⟩]
    if dataLen > maxLen then .refused fields
    else if add32 16 dataLen > msg.length then .refused fields
    else if m.find (u32 msg.bytes 8) = false then .refused (fields ++ [⟨.message, 8, 4⟩])
    else if m.grantReply sizeofRpl = false then .refused (fields ++ [⟨.message, 8, 4⟩])
    else
      { accesses := fields ++ [⟨.message, 8, 4⟩, ⟨.message, 16, if handed then dataLen else 0⟩,
          ⟨.reply, 4, 4⟩, ⟨.reply, iosb, 16⟩]
        reply := sizeofRpl }

def setHandler (m : Machine) (msg : Message) : Trace :=
  dataHandler m msg PIPE_MAX_DATA_LEN true 32 16

def writeHandler (m : Machine) (msg : Message) : Trace :=
  dataHandler m msg (PAGE_SIZE * 4) m.restrictToken 24 8

/-! ### Connecting to a port -/

/-- `req->name` -/
def nameAt (msg : Message) (i : Nat) : WChar := u16 msg.bytes (8 + 2 * i)

/-- `_wcsicmp` of the name and a literal, from a character on: the number of characters that are
read, and whether there is no difference. -/
def wcsicmp (towlower : WChar → WChar) (name : Nat → WChar) : List WChar → Nat → Nat × Bool
  | [], i => (i + 1, name i == 0)
  | c :: rest, i =>
    if towlower (name i) == towlower c then wcsicmp towlower name rest (i + 1) else (i + 1, false)

def ntsvcs : List WChar := wide "ntsvcs".toList
def plugplay : List WChar := wide "plugplay".toList

/-- The characters of the name that are read to compare it, and whether it is one of the two. -/
def portName (m : Machine) (msg : Message) : Nat × Bool :=
  let first := wcsicmp m.towlower (nameAt msg) ntsvcs 0
  if first.2 then first
  else
    let second := wcsicmp m.towlower (nameAt msg) plugplay 0
    (max first.1 second.1, second.2)

def lpcConnectHandler (m : Machine) (msg : Message) : Trace :=
  if msg.length < 148 then .refused [⟨.message, 0, 4⟩]
  else
    let name := portName m msg
    -- read once more for `wcscat`
    let fields := [⟨.message, 0, 4⟩, ⟨.message, 8, 2 * name.1⟩]
    if name.2 = false then .refused fields
    else
      let infoLen := u32 msg.bytes 140
      let fields := fields ++ [⟨.message, 140, 4⟩]
      if infoLen > PIPE_MAX_DATA_LEN then .refused fields
      else if add32 144 infoLen > msg.length then .refused fields
      else if m.restrictToken = false then .refused fields
      else
        let old := u32 msg.bytes 136 == 0xFFFFFFFF
        let result := m.connectPort infoLen
        let fields := fields ++ [⟨.message, 136, 4⟩] ++
          if old then [⟨.message, 144, infoLen⟩, ⟨.message, 140, 4⟩] else []
        if (if old then result.success else m.alpcConnectPort) = false then .refused fields
        else
          let infoLen := if old then result.infoLen else infoLen
          let rplLen := add32 24 infoLen
          if m.grantReply rplLen = false then .refused fields
          else
            { accesses := fields ++ [⟨.reply, 8, 4⟩] ++
                (if m.createHandle && old then
                  [⟨.reply, 12, 8⟩, ⟨.message, 144, infoLen⟩, ⟨.reply, 20, infoLen⟩] else []) ++
                [⟨.reply, 4, 4⟩]
              reply := rplLen }

/-! ### Requests to a port -/

/-- The offset of `BufferLen` in a `PORT_DATA_INFO`, and of `Buffer` in front of it. -/
def bufferLenOffset (m : Machine) : Nat := if m.win64 then 16 else 8

def bufferOffset (m : Machine) : Nat := if m.win64 then 8 else 4

/-- The request on the port, with the data that a `PORT_DATA_INFO` at `info` points to. -/
def lpcRequest (m : Machine) (msg : Message) (fields : List (Access Block)) (info : Option Nat)
    (infoLen : Nat) : Trace :=
  let fields := fields ++ [⟨.message, 8, 4⟩]
  let rplLen := add32 (344 + 64) infoLen
  if m.find (u32 msg.bytes 8) = false then .refused fields
  else if m.grantReply rplLen = false then .refused fields
  else if m.restrictToken = false then
    { accesses := fields ++ [⟨.reply, 4, 4⟩], reply := rplLen }
  else
    { accesses := fields ++
        (match info with
        | some info => [⟨.message, info + bufferOffset m, bufferLenOffset m - bufferOffset m⟩,
            ⟨.message, 340, infoLen⟩, ⟨.reply, 336, infoLen⟩]
        | none => []) ++
        -- what the port reads and writes
        [⟨.message, 12, u16 msg.bytes 14⟩, ⟨.reply, 8, m.portReply⟩, ⟨.reply, 336, infoLen⟩,
          ⟨.reply, 4, 4⟩]
      reply := rplLen }

def lpcRequestHandler (m : Machine) (msg : Message) : Trace :=
  if msg.length < 344 then .refused [⟨.message, 0, 4⟩]
  else
    let totalLength := u16 msg.bytes 14
    let dataInfoOffset := u16 msg.bytes 18
    let fields := [⟨.message, 0, 4⟩, ⟨.message, 14, 2⟩]
    if add32 12 totalLength > msg.length then .refused fields
    else
      let fields := fields ++ [⟨.message, 18, 2⟩]
      if dataInfoOffset = 0 then lpcRequest m msg fields none 0
      else if dataInfoOffset ≥ totalLength then .refused fields
      else
        let info := 12 + dataInfoOffset
        let fields := fields ++ [⟨.message, info, 4⟩]
        if u32 msg.bytes info ≠ 1 then .refused fields
        else
          let infoLen := u32 msg.bytes (info + bufferLenOffset m)
          let fields := fields ++ [⟨.message, info + bufferLenOffset m, 4⟩]
          if infoLen > PIPE_MAX_DATA_LEN then .refused fields
          else if add32 340 infoLen > msg.length then .refused fields
          else lpcRequest m msg fields (some info) infoLen

/-! ### Requests to an ALPC port -/

def copiedView {room : Nat} (result : AlpcResult room) : Nat :=
  if result.receiveFlags &&& 0x40000000 ≠ 0 ∧ result.viewBase ∧ result.viewSize ≠ 0 then
    min result.viewSize (PIPE_MAX_DATA_LEN / 2)
  else 0

/-- What is done with a message that was received. -/
def alpcReply (m : Machine) (fields : List (Access Block)) (receive room : Nat)
    (result : AlpcResult room) : Trace :=
  let viewSize := copiedView result
  let rplLen := add32 (add32 (add32 48 result.msgLen) viewSize) 8
  if m.grantReply rplLen = false then { accesses := fields, receive }
  else
    { accesses := fields ++ [⟨.reply, 8, 16⟩, ⟨.receive, 0, result.msgLen⟩,
        ⟨.reply, 24, result.msgLen⟩, ⟨.view, 0, viewSize⟩,
        ⟨.reply, 24 + add32 result.msgLen 7 / 8 * 8, viewSize⟩, ⟨.reply, 4, 4⟩]
      reply := rplLen
      receive
      view := result.viewSize }

def alpcRequestHandler (m : Machine) (msg : Message) : Trace :=
  if m.hasAlpcSend = false then .refused []
  else if msg.length < 48 ∨ msg.length > PIPE_MAX_DATA_LEN then .refused [⟨.message, 0, 4⟩]
  else
    let totalLength := u16 msg.bytes 26
    let msgLen := u32 msg.bytes 12
    let fields := [⟨.message, 0, 4⟩, ⟨.message, 26, 2⟩]
    if totalLength > PIPE_MAX_DATA_LEN / 2 ∨ add32 24 totalLength > msg.length then
      .refused fields
    else
      let fields := fields ++ [⟨.message, 30, 2⟩, ⟨.message, 12, 12⟩]
      if u16 msg.bytes 30 ≠ 0 ∨ msgLen > PIPE_MAX_DATA_LEN / 2 then .refused fields
      else if u32 msg.bytes 16 &&& 0x9FFFFFFF ≠ 0 ∨ u32 msg.bytes 20 &&& 0x9FFFFFFF ≠ 0 then
        .refused fields
      else
        let fields := fields ++ [⟨.message, 8, 4⟩]
        let receive := max totalLength msgLen
        if m.find (u32 msg.bytes 8) = false then .refused fields
        else if m.grantReceive receive = false ∨ m.restrictToken = false then .refused fields
        else
          let result := m.alpcSend msgLen
          let fields := fields ++ [⟨.message, 24, totalLength⟩, ⟨.receive, 0, msgLen⟩]
          if result.success = false then { accesses := fields, receive }
          else if result.msgLen > PIPE_MAX_DATA_LEN / 2 then { accesses := fields, receive }
          else
            -- `TotalLength` of what was received
            let fields := fields ++ [⟨.receive, 2, 2⟩]
            if result.totalLength > PIPE_MAX_DATA_LEN / 2 then { accesses := fields, receive }
            else alpcReply m fields receive msgLen result

/-! ### Inside of the blocks -/

def blockSize (msg : Message) (t : Trace) : Block → Nat
  | .message => msg.length
  | .reply => t.reply
  | .receive => t.receive
  | .view => t.view

def StaysInside (msg : Message) (t : Trace) : Prop := AllInside (blockSize msg t) t.accesses

inductive Handler
  | set
  | write
  | lpcConnect
  | lpcRequest
  | alpcRequest

def handle (m : Machine) (msg : Message) : Handler → Trace
  | .set => setHandler m msg
  | .write => writeHandler m msg
  | .lpcConnect => lpcConnectHandler m msg
  | .lpcRequest => lpcRequestHandler m msg
  | .alpcRequest => alpcRequestHandler m msg

/-- The `PORT_DATA_INFO` that a request on a port points to is in the message: its first field,
and if that is one also its length. -/
def InfoInside (m : Machine) (msg : Message) : Prop :=
  344 ≤ msg.length → 12 + u16 msg.bytes 14 ≤ msg.length → u16 msg.bytes 18 ≠ 0 →
    u16 msg.bytes 18 < u16 msg.bytes 14 →
      12 + u16 msg.bytes 18 + 4 ≤ msg.length ∧ (u32 msg.bytes (12 + u16 msg.bytes 18) = 1 →
        12 + u16 msg.bytes 18 + bufferLenOffset m + 4 ≤ msg.length)

/-- A request on an ALPC port comes to the port. -/
structure AlpcIssued (m : Machine) (msg : Message) : Prop where
  hasAlpcSend : m.hasAlpcSend = true
  length_ge : 48 ≤ msg.length
  length_le : msg.length ≤ PIPE_MAX_DATA_LEN
  total : 24 + u16 msg.bytes 26 ≤ msg.length
  dataInfo : u16 msg.bytes 30 = 0
  msgLen : u32 msg.bytes 12 ≤ PIPE_MAX_DATA_LEN / 2
  sendFlags : u32 msg.bytes 16 &&& 0x9FFFFFFF = 0
  receiveFlags : u32 msg.bytes 20 &&& 0x9FFFFFFF = 0
  find : m.find (u32 msg.bytes 8) = true
  grant : m.grantReceive (max (u16 msg.bytes 26) (u32 msg.bytes 12)) = true
  restrictToken : m.restrictToken = true

/-- When an ALPC port succeeds, the receive buffer has room for the lengths of a message. -/
def ReceiveInside (m : Machine) (msg : Message) : Prop :=
  AlpcIssued m msg → (m.alpcSend (u32 msg.bytes 12)).success = true →
    4 ≤ max (u16 msg.bytes 26) (u32 msg.bytes 12)

/-- The condition for each of the handlers. -/
def InBounds (m : Machine) (msg : Message) : Handler → Prop
  | .lpcRequest => InfoInside m msg
  | .alpcRequest => ReceiveInside m msg
  | _ => True

variable {m : Machine} {msg : Message} {t : Trace} {off size : Nat}
  {fields : List (Access Block)}

theorem message_inside (h : off + size ≤ msg.length) :
    Inside (blockSize msg t) ⟨.message, off, size⟩ := inside_of_le h

theorem reply_inside (h : off + size ≤ t.reply) :
    Inside (blockSize msg t) ⟨.reply, off, size⟩ := inside_of_le h

theorem receive_inside (h : off + size ≤ t.receive) :
    Inside (blockSize msg t) ⟨.receive, off, size⟩ := inside_of_le h

/-- Fields of the message that are in it, whatever the other blocks are. -/
def FieldsInside (msg : Message) (fields : List (Access Block)) : Prop :=
  ∀ t, AllInside (blockSize msg t) fields

theorem fieldsInside_nil : FieldsInside msg [] := fun _ => allInside_nil

theorem FieldsInside.cons (h : FieldsInside msg fields) (hle : off + size ≤ msg.length) :
    FieldsInside msg (⟨.message, off, size⟩ :: fields) :=
  fun t => allInside_cons.mpr ⟨message_inside hle, h t⟩

theorem FieldsInside.add (h : FieldsInside msg fields) (off size : Nat)
    (hle : off + size ≤ msg.length) :
    FieldsInside msg (fields ++ [⟨.message, off, size⟩]) :=
  fun t => allInside_append.mpr ⟨h t, allInside_cons.mpr ⟨message_inside hle, allInside_nil⟩⟩

theorem header_inside (msg : Message) : FieldsInside msg [⟨.message, 0, 4⟩] :=
  fieldsInside_nil.cons (Nat.le_trans (by decide) msg.length_ge)

theorem add32_eq {a b : Nat} (h : a + b < 2 ^ 32) : add32 a b = a + b := Nat.mod_eq_of_lt h

/-! ### Pipes and connections -/

theorem dataHandler_inside (m : Machine) (msg : Message) {maxLen sizeofRpl iosb : Nat}
    (handed : Bool) (hmax : maxLen ≤ PIPE_MAX_DATA_LEN) (hrpl : 8 ≤ sizeofRpl)
    (hiosb : iosb + 16 ≤ sizeofRpl) :
    StaysInside msg (dataHandler m msg maxLen handed sizeofRpl iosb) := by
  unfold dataHandler
  split
  · exact header_inside msg _
  next hlong =>
    have hfields : FieldsInside msg [⟨.message, 0, 4⟩, ⟨.message, 12, 4⟩] :=
      (fieldsInside_nil.cons (by omega)).cons (by omega)
    have hhandle := hfields.add 8 4 (by omega)
    dsimp only
    split
    · exact hfields _
    next hle =>
      have hsum : add32 16 (u32 msg.bytes 12) = 16 + u32 msg.bytes 12 :=
        add32_eq (by unfold PIPE_MAX_DATA_LEN at hmax; omega)
      rw [hsum]
      split
      · exact hfields _
      next hdata =>
        split
        · exact hhandle _
        split
        · exact hhandle _
        refine allInside_append.mpr ⟨hfields _, ?_⟩
        simp only [allInside_cons, allInside_nil, and_true]
        refine ⟨message_inside (by omega), message_inside ?_, reply_inside hrpl,
          reply_inside hiosb⟩
        split <;> omega

theorem wcsicmp_le (towlower : WChar → WChar) (name : Nat → WChar) :
    ∀ (literal : List WChar) (i : Nat),
      (wcsicmp towlower name literal i).1 ≤ i + literal.length + 1 := by
  intro literal
  induction literal with
  | nil => exact fun i => Nat.le_refl _
  | cons c rest ih =>
    intro i
    rw [wcsicmp, length_cons]
    split
    · have hle := ih (i + 1)
      omega
    · show i + 1 ≤ _
      omega

theorem portName_le (m : Machine) (msg : Message) : (portName m msg).1 ≤ 9 := by
  have hfirst := wcsicmp_le m.towlower (nameAt msg) ntsvcs 0
  have hsecond := wcsicmp_le m.towlower (nameAt msg) plugplay 0
  have hlength : ntsvcs.length = 6 := rfl
  have hlength' : plugplay.length = 8 := rfl
  unfold portName
  dsimp only
  split
  · omega
  · show max _ _ ≤ 9
    omega

theorem lpcConnectHandler_inside (m : Machine) (msg : Message) :
    StaysInside msg (lpcConnectHandler m msg) := by
  have hname := portName_le m msg
  unfold lpcConnectHandler
  split
  · exact header_inside msg _
  next hlong =>
    have hfields : FieldsInside msg [⟨.message, 0, 4⟩, ⟨.message, 8, 2 * (portName m msg).1⟩] :=
      (fieldsInside_nil.cons (by omega)).cons (by omega)
    dsimp only
    split
    · exact hfields _
    have hfields := hfields.add 140 4 (by omega)
    split
    · exact hfields _
    next hmax =>
      unfold PIPE_MAX_DATA_LEN at hmax
      rw [add32_eq (by omega)]
      split
      · exact hfields _
      next hinfo =>
        split
        · exact hfields _
        have hresult := (m.connectPort (u32 msg.bytes 140)).infoLen_le
        have hfields' := hfields.add 136 4 (by omega)
        cases u32 msg.bytes 136 == 0xFFFFFFFF with
        | true =>
          have hfields' : FieldsInside msg (_ ++
              [⟨.message, 144, u32 msg.bytes 140⟩, ⟨.message, 140, 4⟩]) := fun t =>
            allInside_append.mpr ⟨hfields' t, ((fieldsInside_nil.cons (by omega)).cons
              (by omega)) t⟩
          simp only [if_pos]
          split
          · exact hfields' _
          rw [add32_eq (by omega)]
          split
          · exact hfields' _
          refine allInside_append.mpr ⟨allInside_append.mpr ⟨allInside_append.mpr ⟨hfields' _, ?_⟩,
            ?_⟩, ?_⟩
          · exact allInside_cons.mpr ⟨reply_inside (by dsimp only; omega), allInside_nil⟩
          · split
            · simp only [allInside_cons, allInside_nil, and_true]
              exact ⟨reply_inside (by dsimp only; omega), message_inside (by omega),
                reply_inside (by dsimp only; omega)⟩
            · exact allInside_nil
          · exact allInside_cons.mpr ⟨reply_inside (by dsimp only; omega), allInside_nil⟩
        | false =>
          simp only [if_neg Bool.false_ne_true, append_nil, Bool.and_false]
          split
          · exact hfields' _
          rw [add32_eq (by omega)]
          split
          · exact hfields' _
          refine allInside_append.mpr ⟨allInside_append.mpr ⟨hfields' _, ?_⟩, ?_⟩
          · exact allInside_cons.mpr ⟨reply_inside (by dsimp only; omega), allInside_nil⟩
          · exact allInside_cons.mpr ⟨reply_inside (by dsimp only; omega), allInside_nil⟩

/-! ### Requests to a port -/

theorem bufferOffset_le (m : Machine) : bufferOffset m ≤ bufferLenOffset m := by
  unfold bufferOffset bufferLenOffset
  split <;> decide

theorem lpcRequest_inside {info : Option Nat} {infoLen : Nat} (hfields : FieldsInside msg fields)
    (hlong : 344 ≤ msg.length) (htotal : 12 + u16 msg.bytes 14 ≤ msg.length)
    (hmax : infoLen ≤ PIPE_MAX_DATA_LEN) (hdata : infoLen = 0 ∨ 340 + infoLen ≤ msg.length)
    (hinfo : ∀ i, info = some i → i + bufferLenOffset m ≤ msg.length) :
    StaysInside msg (lpcRequest m msg fields info infoLen) := by
  have hfields := hfields.add 8 4 (by omega)
  have hport := m.portReply_le
  unfold MAX_PORTMSG_LENGTH at hport
  unfold PIPE_MAX_DATA_LEN at hmax
  unfold lpcRequest
  rw [add32_eq (by omega)]
  dsimp only
  split
  · exact hfields _
  split
  · exact hfields _
  have hstatus : ∀ accesses, Inside (blockSize msg ⟨accesses, 344 + 64 + infoLen, 0, 0⟩)
      ⟨.reply, 4, 4⟩ := fun accesses => reply_inside (by dsimp only; omega)
  split
  · exact allInside_append.mpr ⟨hfields _, allInside_cons.mpr ⟨hstatus _, allInside_nil⟩⟩
  refine allInside_append.mpr ⟨allInside_append.mpr ⟨hfields _, ?_⟩, ?_⟩
  · cases info with
    | none => exact allInside_nil
    | some i =>
      have hoffset := bufferOffset_le m
      have hi := hinfo i rfl
      simp only [allInside_cons, allInside_nil, and_true]
      exact ⟨message_inside (by omega), hdata.imp_right fun h => h,
        reply_inside (by dsimp only; omega)⟩
  · simp only [allInside_cons, allInside_nil, and_true]
    exact ⟨message_inside htotal, reply_inside (by dsimp only; omega),
      reply_inside (by dsimp only; omega), hstatus _⟩

theorem mem_lpcRequest {info : Option Nat} {infoLen : Nat} {a : Access Block} (ha : a ∈ fields) :
    a ∈ (lpcRequest m msg fields info infoLen).accesses := by
  have hfields : a ∈ fields ++ [⟨.message, 8, 4⟩] := mem_append_left _ ha
  unfold lpcRequest
  dsimp only
  split
  · exact hfields
  split
  · exact hfields
  split
  · exact mem_append_left _ hfields
  · exact mem_append_left _ (mem_append_left _ hfields)

theorem u16_lt (b : List UInt8) (off : Nat) : u16 b off < 2 ^ 16 := by
  have h0 := (byteAt b off).toNat_lt
  have h1 := (byteAt b (off + 1)).toNat_lt
  unfold u16
  omega

theorem lpcRequestHandler_iff (m : Machine) (msg : Message) :
    StaysInside msg (lpcRequestHandler m msg) ↔ InfoInside m msg := by
  have htotal16 := u16_lt msg.bytes 14
  unfold lpcRequestHandler InfoInside
  by_cases hlong : msg.length < 344
  · rw [if_pos hlong]
    exact iff_of_true (header_inside msg _) fun h => absurd hlong (Nat.not_lt.mpr h)
  have hfields : FieldsInside msg [⟨.message, 0, 4⟩, ⟨.message, 14, 2⟩] :=
    (fieldsInside_nil.cons (by omega)).cons (by omega)
  rw [if_neg hlong, forall_prop_of_true (Nat.not_lt.mp hlong)]
  dsimp only
  rw [add32_eq (by omega)]
  by_cases htotal : 12 + u16 msg.bytes 14 > msg.length
  · rw [if_pos htotal]
    exact iff_of_true (hfields _) fun h => absurd htotal (Nat.not_lt.mpr h)
  have hfields := hfields.add 18 2 (by omega)
  rw [if_neg htotal, forall_prop_of_true (Nat.not_lt.mp htotal)]
  by_cases hnone : u16 msg.bytes 18 = 0
  · rw [if_pos hnone]
    refine iff_of_true ?_ fun h => absurd hnone h
    exact lpcRequest_inside hfields (Nat.not_lt.mp hlong) (Nat.not_lt.mp htotal) (Nat.zero_le _)
      (.inl rfl) nofun
  rw [if_neg hnone, forall_prop_of_true hnone]
  by_cases hbehind : u16 msg.bytes 18 ≥ u16 msg.bytes 14
  · rw [if_pos hbehind]
    exact iff_of_true (hfields _) fun h => absurd h (Nat.not_lt.mpr hbehind)
  rw [if_neg hbehind, forall_prop_of_true (Nat.not_le.mp hbehind)]
  -- the first field of the data info
  have hfirst : ∀ {t : Trace}, Inside (blockSize msg t) ⟨.message, 12 + u16 msg.bytes 18, 4⟩ ↔
      12 + u16 msg.bytes 18 + 4 ≤ msg.length := inside_iff (by decide)
  by_cases hone : u32 msg.bytes (12 + u16 msg.bytes 18) ≠ 1
  · rw [if_pos hone]
    refine Iff.trans allInside_append ?_
    rw [allInside_cons, hfirst, and_iff_right (hfields _), and_iff_left allInside_nil]
    exact ⟨fun h => ⟨h, fun h' => absurd h' hone⟩, And.left⟩
  rw [if_neg hone, forall_prop_of_true (Classical.not_not.mp hone)]
  -- then its length
  have hsecond : ∀ {t : Trace}, Inside (blockSize msg t)
      ⟨.message, 12 + u16 msg.bytes 18 + bufferLenOffset m, 4⟩ ↔
        12 + u16 msg.bytes 18 + bufferLenOffset m + 4 ≤ msg.length := inside_iff (by decide)
  have hrefused : ∀ {t : Trace}, AllInside (blockSize msg t)
      (((([⟨.message, 0, 4⟩, ⟨.message, 14, 2⟩] : List (Access Block)) ++ [⟨.message, 18, 2⟩]) ++
        [⟨.message, 12 + u16 msg.bytes 18, 4⟩]) ++
          [⟨.message, 12 + u16 msg.bytes 18 + bufferLenOffset m, 4⟩]) ↔
        12 + u16 msg.bytes 18 + 4 ≤ msg.length ∧
          12 + u16 msg.bytes 18 + bufferLenOffset m + 4 ≤ msg.length := by
    intro t
    rw [allInside_append, allInside_append, and_iff_right (hfields t), allInside_cons,
      allInside_cons, hfirst, hsecond, and_iff_left allInside_nil, and_iff_left allInside_nil]
  split
  · exact hrefused
  next hmax =>
    rw [add32_eq (by unfold PIPE_MAX_DATA_LEN at hmax; omega)]
    split
    · exact hrefused
    next hdata =>
      constructor
      · intro h
        exact (@hrefused (lpcRequest m msg _ _ _)).mp fun a ha => h a (mem_lpcRequest ha)
      · intro h
        refine lpcRequest_inside (fun t => hrefused.mpr h) (Nat.not_lt.mp hlong)
          (Nat.not_lt.mp htotal) (Nat.not_lt.mp hmax) (.inr (Nat.not_lt.mp hdata)) fun i hi => ?_
        rw [← Option.some.inj hi]
        omega

/-! ### Requests to an ALPC port -/

variable {receive room : Nat} {result : AlpcResult room}

theorem alpcReply_receive :
    (alpcReply m fields receive room result).receive = receive := by
  unfold alpcReply
  dsimp only
  split <;> rfl

theorem mem_alpcReply {a : Access Block}
    (ha : a ∈ fields) : a ∈ (alpcReply m fields receive room result).accesses := by
  unfold alpcReply
  dsimp only
  split
  · exact ha
  · exact mem_append_left _ ha

theorem alpcReply_inside
    (hfields : AllInside (blockSize msg { accesses := fields, receive }) fields)
    (hmessage : ∀ a ∈ fields, a.block = .message ∨ a.block = .receive)
    (hroom : room ≤ receive) (hlen : result.msgLen ≤ PIPE_MAX_DATA_LEN / 2) :
    StaysInside msg (alpcReply m fields receive room result) := by
  have hle := result.msgLen_le
  have hview : copiedView result ≤ min result.viewSize (PIPE_MAX_DATA_LEN / 2) := by
    unfold copiedView
    split
    · exact Nat.le_refl _
    · exact Nat.zero_le _
  unfold alpcReply
  dsimp only
  unfold PIPE_MAX_DATA_LEN at hlen hview
  rw [add32_eq (a := 48) (by omega), add32_eq (a := 48 + _) (by omega),
    add32_eq (b := 8) (by omega),
    add32_eq (b := 7) (by omega)]
  split
  · exact hfields
  refine allInside_append.mpr ⟨fun a ha => ?_, ?_⟩
  · have hinside := hfields a ha
    unfold Inside at hinside ⊢
    rcases hmessage a ha with hblock | hblock
    · rw [hblock] at hinside ⊢
      exact hinside
    · rw [hblock] at hinside ⊢
      exact hinside
  · simp only [allInside_cons, allInside_nil, and_true]
    refine ⟨reply_inside (by dsimp only; omega), receive_inside (by dsimp only; omega),
      reply_inside (by dsimp only; omega), inside_of_le ?_, reply_inside (by dsimp only; omega),
      reply_inside (by dsimp only; omega)⟩
    show 0 + copiedView result ≤ result.viewSize
    omega

theorem alpcRequestHandler_iff (m : Machine) (msg : Message) :
    StaysInside msg (alpcRequestHandler m msg) ↔ ReceiveInside m msg := by
  have htotal16 := u16_lt msg.bytes 26
  -- a request that does not come to the port
  have hvacuous : ¬ AlpcIssued m msg → ReceiveInside m msg := fun hnot h => absurd h hnot
  unfold alpcRequestHandler
  by_cases hsend : m.hasAlpcSend = false
  · rw [if_pos hsend]
    refine iff_of_true allInside_nil (hvacuous fun h => ?_)
    exact Bool.false_ne_true (hsend.symm.trans h.hasAlpcSend)
  rw [if_neg hsend]
  by_cases hlength : msg.length < 48 ∨ msg.length > PIPE_MAX_DATA_LEN
  · rw [if_pos hlength]
    refine iff_of_true (header_inside msg _) (hvacuous fun h => ?_)
    have := h.length_ge
    have := h.length_le
    omega
  rw [if_neg hlength]
  have hfields : FieldsInside msg [⟨.message, 0, 4⟩, ⟨.message, 26, 2⟩] :=
    (fieldsInside_nil.cons (by omega)).cons (by omega)
  dsimp only
  rw [add32_eq (a := 24) (by omega)]
  by_cases htotal : u16 msg.bytes 26 > PIPE_MAX_DATA_LEN / 2 ∨ 24 + u16 msg.bytes 26 > msg.length
  · rw [if_pos htotal]
    refine iff_of_true (hfields _) (hvacuous fun h => ?_)
    have := h.total
    unfold PIPE_MAX_DATA_LEN at htotal
    omega
  rw [if_neg htotal]
  have hfields : FieldsInside msg ([⟨.message, 0, 4⟩, ⟨.message, 26, 2⟩] ++
      [⟨.message, 30, 2⟩, ⟨.message, 12, 12⟩]) := fun t =>
    allInside_append.mpr ⟨hfields t, ((fieldsInside_nil.cons (by omega)).cons (by omega)) t⟩
  by_cases hinfo : u16 msg.bytes 30 ≠ 0 ∨ u32 msg.bytes 12 > PIPE_MAX_DATA_LEN / 2
  · rw [if_pos hinfo]
    refine iff_of_true (hfields _) (hvacuous fun h => ?_)
    have := h.dataInfo
    have := h.msgLen
    omega
  rw [if_neg hinfo]
  by_cases hflags : u32 msg.bytes 16 &&& 0x9FFFFFFF ≠ 0 ∨ u32 msg.bytes 20 &&& 0x9FFFFFFF ≠ 0
  · rw [if_pos hflags]
    exact iff_of_true (hfields _) (hvacuous fun h =>
      hflags.elim (fun h' => h' h.sendFlags) fun h' => h' h.receiveFlags)
  rw [if_neg hflags]
  have hfields := hfields.add 8 4 (by omega)
  by_cases hfind : m.find (u32 msg.bytes 8) = false
  · rw [if_pos hfind]
    exact iff_of_true (hfields _) (hvacuous fun h => Bool.false_ne_true (hfind.symm.trans h.find))
  rw [if_neg hfind]
  by_cases hgrant : m.grantReceive (max (u16 msg.bytes 26) (u32 msg.bytes 12)) = false ∨
      m.restrictToken = false
  · rw [if_pos hgrant]
    refine iff_of_true (hfields _) (hvacuous fun h => ?_)
    rcases hgrant with hgrant | hgrant
    · exact Bool.false_ne_true (hgrant.symm.trans h.grant)
    · exact Bool.false_ne_true (hgrant.symm.trans h.restrictToken)
  rw [if_neg hgrant]
  simp only [not_or, Bool.not_eq_false, Nat.not_lt, gt_iff_lt, ne_eq, Classical.not_not] at *
  have hissued : AlpcIssued m msg := ⟨hsend, hlength.1, hlength.2, htotal.2, hinfo.1, hinfo.2,
    hflags.1, hflags.2, hfind, hgrant.1, hgrant.2⟩
  have hcondition : ReceiveInside m msg ↔ ((m.alpcSend (u32 msg.bytes 12)).success = true →
      4 ≤ max (u16 msg.bytes 26) (u32 msg.bytes 12)) := forall_prop_of_true hissued
  rw [hcondition]
  have hport : ∀ t : Trace, t.receive = max (u16 msg.bytes 26) (u32 msg.bytes 12) →
      AllInside (blockSize msg t) [⟨.message, 24, u16 msg.bytes 26⟩,
        ⟨.receive, 0, u32 msg.bytes 12⟩] := by
    intro t ht
    simp only [allInside_cons, allInside_nil, and_true]
    exact ⟨message_inside htotal.2, receive_inside (by rw [ht]; omega)⟩
  have hcalled := fun t ht => allInside_append.mpr ⟨hfields t, hport t ht⟩
  by_cases hfailed : (m.alpcSend (u32 msg.bytes 12)).success = false
  · rw [if_pos hfailed]
    exact iff_of_true (hcalled _ rfl) fun h => absurd (hfailed.symm.trans h) Bool.false_ne_true
  have hsmall := Nat.le_trans (m.alpcSend (u32 msg.bytes 12)).msgLen_le hinfo.2
  rw [if_neg hfailed, if_neg (Nat.not_lt.mpr hsmall),
    forall_prop_of_true (eq_true_of_ne_false hfailed)]
  -- the length of what was received is read
  have hlength : ∀ t : Trace, t.receive = max (u16 msg.bytes 26) (u32 msg.bytes 12) →
      (Inside (blockSize msg t) ⟨.receive, 2, 2⟩ ↔
        4 ≤ max (u16 msg.bytes 26) (u32 msg.bytes 12)) := by
    intro t ht
    rw [← ht]
    exact inside_iff (by decide)
  have hread : ∀ t : Trace, t.receive = max (u16 msg.bytes 26) (u32 msg.bytes 12) →
      4 ≤ max (u16 msg.bytes 26) (u32 msg.bytes 12) → AllInside (blockSize msg t) _ := fun t ht h =>
    allInside_append.mpr ⟨hcalled t ht,
      allInside_cons.mpr ⟨(hlength t ht).mpr h, allInside_nil⟩⟩
  split
  · exact ⟨fun h => (hlength _ rfl).mp (h _ (mem_append_right _ (mem_singleton.mpr rfl))),
      hread _ rfl⟩
  · refine ⟨fun h => ?_, fun h => alpcReply_inside (hread _ rfl h) ?_ (Nat.le_max_right _ _) hsmall⟩
    · exact (hlength _ alpcReply_receive).mp (h _ (mem_alpcReply
        (mem_append_right _ (mem_singleton.mpr rfl))))
    · simp

/-! ### The handlers -/

/-- **When the handlers stay inside**: two of them depend on what the message says, the data info
of a request on a port, and the lengths of one on an ALPC port. -/
theorem handlers_inside_iff (m : Machine) (msg : Message) (handler : Handler) :
    StaysInside msg (handle m msg handler) ↔ InBounds m msg handler := by
  cases handler with
  | set =>
    exact iff_of_true (dataHandler_inside m msg true (Nat.le_refl _) (by decide) (by decide))
      trivial
  | write =>
    exact iff_of_true (dataHandler_inside m msg m.restrictToken (by decide) (by decide) (by decide))
      trivial
  | lpcConnect => exact iff_of_true (lpcConnectHandler_inside m msg) trivial
  | lpcRequest => exact lpcRequestHandler_iff m msg
  | alpcRequest => exact alpcRequestHandler_iff m msg

/-! ### A data info at the end -/

/-- Windows refuses everything that it can refuse. -/
def refusing : Machine where
  towlower c := c
  win64 := true
  find _ := false
  restrictToken := false
  grantReply _ := false
  grantReceive _ := false
  createHandle := false
  connectPort room := ⟨false, 0, Nat.zero_le room⟩
  alpcConnectPort := false
  hasAlpcSend := false
  alpcSend room := ⟨false, 0, Nat.zero_le room, 0, 0, false, 0⟩
  portReply := 0
  portReply_le := Nat.zero_le _

/-- A request of 344 bytes for a port, whose message of 332 bytes has its data info at its last
byte. -/
def lastByte : Message where
  bytes := ofU32 344 ++ ofU32 0 ++ ofU32 1 ++ ofU16 0 ++ ofU16 332 ++ ofU16 0 ++ ofU16 331 ++
    List.replicate 324 0
  length_ge := by decide +kernel

/-- The data info is read behind the message. -/
theorem not_staysInside_lastByte : ¬ StaysInside lastByte
    (handle refusing lastByte .lpcRequest) := by
  unfold StaysInside
  decide +kernel

end Sandboxie.NamedPipeServer
