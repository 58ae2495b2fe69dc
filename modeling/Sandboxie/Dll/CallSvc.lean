import Sandboxie.Svc.PipeServer

/-!
# Calls over the service port

`core/dll/callsvc.c`: `SbieDll_CallServer` sends a request over the port of the thread in
chunks and collects the chunks of the reply, while `core/svc/PipeServer.cpp` collects the
request and sends the reply.  A connection is `none` on the side of the caller when its
port is closed, otherwise it is what the service keeps for it.
-/

namespace Sandboxie.CallSvc

open Bytes PipeServer

/-- The size of the data in a port message, `MSG_DATA_LEN` and `MaxDataLen`. -/
structure PortSize where
  dataMax : Nat
  header_le : sizeofMsgHeader ≤ dataMax
  dataMax_lt : dataMax < 2 ^ 16

structure Request where
  bytes : List UInt8
  header_le : sizeofMsgHeader ≤ bytes.length
  length_eq : u32 bytes 0 = bytes.length

/-- What becomes of a message: it does not get to the service, or the answer does not get
back, or it is answered. -/
inductive Fate
  | lost
  | cut
  | answered
deriving DecidableEq

/-- One `NtRequestWaitReplyPort`: what is around the message in the service, what its
receive buffer has in it from before, and what becomes of the message. -/
structure Exchange where
  env : Environment
  stale : Nat → UInt8
  fate : Fate

/-- A call: the number that `last_sequence` gives it, whether the port can be connected,
and the exchanges of the call. -/
structure Call where
  req : Request
  sequence : UInt8
  connects : Bool
  exchanges : Nat → Exchange

/-! ### Exchanges -/

abbrev Chunk (p : PortSize) := { d : List UInt8 // d.length ≤ p.dataMax }

/-- The message as the service receives it. -/
def portMessage (p : PortSize) (stale : Nat → UInt8) (data : Chunk p) : PortMessage p.dataMax where
  data := splice ((List.range p.dataMax).map stale) 0 data.1
  dataLength := data.1.length
  length_data := by
    have := data.2
    rw [length_splice] <;> simp [this]
  dataLength_le := data.2
  dataLength_lt := Nat.lt_of_le_of_lt data.2 p.dataMax_lt

/-- A call on its way: the client of the service, how many exchanges there were, and the
messages that a target was called with, each with the target's reply. -/
structure Wire where
  client : Client
  made : Nat
  handed : List (Buffer × Option Buffer)

/-- `NtRequestWaitReplyPort`: the data of the answer, if there is one. -/
def requestWaitReplyPort (p : PortSize) (exchanges : Nat → Exchange) (data : Chunk p)
    (wire : Wire) : Option (Wire × Option (List UInt8)) :=
  let x := exchanges wire.made
  if x.fate = .lost then some ({ wire with made := wire.made + 1 }, none)
  else
    match thread x.env (portMessage p x.stale data) wire.client with
    | none => none
    | some s =>
      let handed := s.called.toList.map fun m => (m, callTarget x.env m)
      some (⟨s.client, wire.made + 1, wire.handed ++ handed⟩,
        if x.fate = .answered then some s.reply else none)

/-! ### `SbieDll_CallServer` -/

/-- The end of sending: no answer, an early reply, or the first chunk of the reply. -/
inductive Sent
  | failed (wire : Wire)
  | early (wire : Wire)
  | done (wire : Wire) (msg : List UInt8)

def chunk (p : PortSize) (sequence : UInt8) (first : Bool) (buf : List UInt8) : Chunk p :=
  ⟨if first then (buf.take p.dataMax).set 3 sequence else buf.take p.dataMax, by
    cases first <;> simp [Nat.min_le_left]⟩

def sendRequest (p : PortSize) (call : Call) : Nat → Bool → List UInt8 → Wire → Option Sent
  | 0, _, _, _ => none
  | fuel + 1, first, buf, wire =>
    let rest := buf.drop p.dataMax
    match requestWaitReplyPort p call.exchanges (chunk p call.sequence first buf) wire with
    | none => none
    | some (wire, none) => some (.failed wire)
    | some (wire, some msg) =>
      if rest = [] then some (.done wire msg)
      else if msg ≠ [] then some (.early wire)
      else sendRequest p call fuel false rest wire

/-- What a call leaves: the connection, what was handed to the targets, and the reply. -/
structure Outcome where
  port : Option Client
  handed : List (Buffer × Option Buffer)
  reply : Option (List UInt8)

/-- The loop that collects the reply, `got` being what `rpl` has in front of `buf`. -/
def collectReply (p : PortSize) (call : Call) (bufLen : Nat) :
    Nat → List UInt8 → List UInt8 → Wire → Option Outcome
  | 0, _, _, _ => none
  | fuel + 1, got, msg, wire =>
    if bufLen < got.length + msg.length then some ⟨none, wire.handed, none⟩
    else
      let got := got ++ msg
      if bufLen ≤ got.length then some ⟨some wire.client, wire.handed, some got⟩
      else
        match requestWaitReplyPort p call.exchanges ⟨[], Nat.zero_le _⟩ wire with
        | none => none
        | some (wire, none) => some ⟨none, wire.handed, none⟩
        | some (wire, some msg) => collectReply p call bufLen fuel got msg wire

/-- `SbieDll_CallServer` from the first chunk of the reply. -/
def inspectReply (p : PortSize) (fuel : Nat) (call : Call) (wire : Wire) (msg : List UInt8) :
    Option Outcome :=
  if sizeofMsgHeader ≤ msg.length then
    if byteAt msg 3 ≠ call.sequence then some ⟨some wire.client, wire.handed, none⟩
    else
      let msg := msg.set 3 0
      let bufLen := u32 msg 0
      if bufLen = 0 then some ⟨some wire.client, wire.handed, none⟩
      else collectReply p call bufLen fuel [] msg wire
  else some ⟨some wire.client, wire.handed, none⟩

/-- `SbieDll_ConnectPort` -/
def connectPort (call : Call) (port : Option Client) : Option Client :=
  match port with
  | some client => some client
  | none => if call.connects then some portConnect else none

/-- `SbieDll_CallServer`; `none` when the service writes outside of a message, or `fuel`
does not last for the reply. -/
def callServer (p : PortSize) (fuel : Nat) (call : Call) (port : Option Client) :
    Option Outcome :=
  match connectPort call port with
  | none => some ⟨none, [], none⟩
  | some client =>
    match sendRequest p call call.req.bytes.length true call.req.bytes ⟨client, 0, []⟩ with
    | none => none
    | some (.failed wire) => some ⟨none, wire.handed, none⟩
    | some (.early wire) => some ⟨some wire.client, wire.handed, none⟩
    | some (.done wire msg) => inspectReply p fuel call wire msg

def run (p : PortSize) (fuel : Nat) :
    List Call → Option Client → Option (List (Call × Outcome))
  | [], _ => some []
  | call :: rest, port =>
    match callServer p fuel call port with
    | none => none
    | some o => (run p fuel rest o.port).map ((call, o) :: ·)

/-! ### Being in step -/

/-- What a target gets is the request, and a reply is what a target has replied to it. -/
def InStep (call : Call) (o : Outcome) : Prop :=
  (∀ h ∈ o.handed, h.1.message = call.req.bytes) ∧
    ∀ rpl, o.reply = some rpl → ∃ m b, (m, some b) ∈ o.handed ∧ rpl = b.message

/-- The message that chunk `i` of a request arrives in. -/
def arrivalOf (p : PortSize) (call : Call) (i : Nat) : PortMessage p.dataMax :=
  portMessage p (call.exchanges i).stale
    (chunk p call.sequence (i = 0) (call.req.bytes.drop (i * p.dataMax)))

/-- The service takes chunk `i` for the beginning of a message, if it is not in one. -/
def Taken (p : PortSize) (call : Call) (i : Nat) : Prop :=
  Accepts (arrivalOf p call i) ∧ (call.exchanges i).env.memory ≠ none

/-- The reply to a request has its size in the length field, and leaves the high byte of
that. -/
def ReplyFits (p : PortSize) (call : Call) : Prop :=
  ∀ m : Buffer, m.message = call.req.bytes → ∀ b,
    callTarget (call.exchanges ((call.req.bytes.length - 1) / p.dataMax)).env m = some b →
      b.length = b.size ∧ b.size < 2 ^ 24

/-- A request that is taken leaves the high byte of its length, and so does the reply; of a
request that is not taken no chunk is. -/
def Clean (p : PortSize) (call : Call) : Prop :=
  (Taken p call 0 ∧ call.req.bytes.length < 2 ^ 24 ∧ ReplyFits p call) ∨
    ∀ i, i * p.dataMax < call.req.bytes.length →
      (∀ j < i, (call.exchanges j).fate = .answered) → ¬ Taken p call i

/-- The connection is closed, or the service has nothing of a request or a reply. -/
def Idle (port : Option Client) : Prop :=
  ∀ client, port = some client → client.replying = false ∧ client.bufHdr = none

end Sandboxie.CallSvc
