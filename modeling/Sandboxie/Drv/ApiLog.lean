import Sandboxie.Drv.LogReader

/-!
# Messages of the driver

`core/drv/api.c`: `Api_AddMessage` logs a message for a session in the log buffer, and
`Api_GetMessage` looks for the next one of the caller's session.

The text of a message is read in one piece from where it begins, so that a text that goes on
at the start of the ring is not read: the access outside of the buffer gives `none`.
-/

namespace Sandboxie.ApiLog

open LogBuff

/-! ### Adding -/

def charBytes (c : UInt16) : List UInt8 := [c.toUInt8, (c >>> 8).toUInt8]

/-- The arguments of `Api_AddMessage`.  The strings are the memory that they point to, which
has the characters of their lengths, or a null character. -/
structure AddArgs where
  errorCode : UInt32
  strings : List (List UInt16)
  lengths : Option (List Nat)
  sessionId : UInt32
  processId : UInt32
  readable : match lengths with
    | some lengths => List.Forall₂ (fun n s => n ≤ s.length) lengths strings
    | none => ∀ s ∈ strings, 0 ∈ s

namespace AddArgs

def texts (args : AddArgs) : List (List UInt16) :=
  match args.lengths with
  | some lengths => List.zipWith List.take lengths args.strings
  | none => args.strings.map fun s => s.takeWhile fun c => c ≠ 0

/-- `data_len`, before it is cut to 32 bits. -/
def dataLen (args : AddArgs) : Nat := (args.texts.map fun t => (t.length + 1) * 2).sum

def entrySize (args : AddArgs) : Nat := (4 + 4 + 4 + args.dataLen) % 2 ^ 32

def textPieces (args : AddArgs) : List (List UInt8) :=
  args.texts.flatMap fun t => [t.flatMap charBytes, charBytes 0]

def pieces (args : AddArgs) : List (List UInt8) :=
  [Bytes.ofU32 args.sessionId.toNat, Bytes.ofU32 args.processId.toNat,
    Bytes.ofU32 args.errorCode.toNat] ++ args.textPieces

def text (args : AddArgs) : List UInt8 := args.textPieces.flatten

end AddArgs

def apiAddMessage (args : AddArgs) (buf : LogBuffer) : Option LogBuffer :=
  match logBufferPushEntry args.entrySize buf true with
  | none => none
  | some (buf, none) => some buf
  | some (buf, some writePtr) => pushPieces args.pieces writePtr buf

/-! ### Getting -/

inductive Status
  | success
  | notImplemented
  | accessDenied
  | invalidParameter
  | noMoreEntries
  | bufferTooSmall
deriving DecidableEq, Repr

/-- The process that calls `Api_GetMessage`. -/
structure Caller where
  sandboxed : Bool
  /-- it is the service -/
  service : Bool
  /-- `Session_GetLeadSession` -/
  leadSession : UInt32
deriving DecidableEq, Repr

/-- `API_GET_MESSAGE_ARGS`: what the pointers point to, and which of them are there. -/
structure GetArgs where
  msgNum : Nat
  sessionId : UInt32
  /-- `msgtext` and its buffer are there -/
  msgtext : Bool
  maximumLength : Nat
  /-- `process_id` is there -/
  processId : Bool
deriving DecidableEq, Repr

/-- What the caller finds afterwards: the status, `*msg_num`, and what was written. -/
structure Answer where
  status : Status
  msgNum : Nat
  msgid : Option Nat := none
  processId : Option Nat := none
  text : Option (List UInt8) := none
deriving DecidableEq, Repr

/-- `memcpy` from a pointer into the log buffer. -/
def memcpyFrom (buf : LogBuffer) : Nat → Int → Option (List UInt8)
  | 0, _ => some []
  | n + 1, ptr =>
    match load buf ptr with
    | none => none
    | some c => (memcpyFrom buf n (ptr + 1)).map fun d => c :: d

def wants (sessionId entrySession : Nat) : Bool :=
  sessionId = 2 ^ 32 - 1 || entrySession = sessionId

/-- The part of the loop of `Api_GetMessage` behind the check of the session. -/
def getEntry (args : GetArgs) (buf : LogBuffer) (entrySize seqNumber : Nat) (readPtr : Int) :
    Option Answer :=
  match logBufferGetBytes 4 readPtr buf with
  | none => none
  | some (processId, readPtr) =>
    match logBufferGetBytes 4 readPtr buf with
    | none => none
    | some (msgid, readPtr) =>
      let entrySize := (entrySize + (2 ^ 32 - 12)) % 2 ^ 32
      let answer : Answer :=
        { status := .success
          msgNum := seqNumber
          msgid := some (Bytes.u32 msgid 0)
          processId := if args.processId then some (Bytes.u32 processId 0) else none }
      if entrySize ≤ args.maximumLength then
        (memcpyFrom buf entrySize readPtr).map fun d => { answer with text := some d }
      else some { answer with status := .bufferTooSmall }

/-- The loop of `Api_GetMessage`.  Each turn goes on by an entry, so `fuel` is a number that
is above the bytes in use. -/
def getLoop (args : GetArgs) (buf : LogBuffer) : Nat → Nat → Option Answer
  | 0, _ => none
  | fuel + 1, seqNumber =>
    match logBufferGetNext seqNumber buf with
    | none => none
    | some none => some { status := .noMoreEntries, msgNum := args.msgNum }
    | some (some readPtr) =>
      match logBufferGetSize readPtr buf with
      | none => none
      | some (entrySize, readPtr) =>
        match logBufferGetSeqNum readPtr buf with
        | none => none
        | some (seqNumber, readPtr) =>
          match logBufferGetBytes 4 readPtr buf with
          | none => none
          | some (sessionId, readPtr) =>
            if wants args.sessionId.toNat (Bytes.u32 sessionId 0) = false then
              getLoop args buf fuel seqNumber
            else getEntry args buf entrySize seqNumber readPtr

/-- The checks in front of the loop. -/
def Caller.refused (caller : Caller) (args : GetArgs) : Option Status :=
  if caller.sandboxed then some .notImplemented
  else if caller.service = false ∧ caller.leadSession ≠ args.sessionId then some .accessDenied
  else if args.msgtext = false then some .invalidParameter
  else none

def apiGetMessage (caller : Caller) (args : GetArgs) (buf : LogBuffer) : Option Answer :=
  match caller.refused args with
  | some status => some { status := status, msgNum := args.msgNum }
  | none => getLoop args buf (buf.bufferUsed + 1) args.msgNum

/-! ### Runs -/

/-- What happens to the log: a message is added, or the reader asks with a buffer of some
length. -/
inductive Event
  | add (args : AddArgs)
  | get (maximumLength : Nat)

structure Log where
  buf : LogBuffer
  msgNum : Nat
  answers : List Answer

structure Client where
  caller : Caller
  sessionId : UInt32
  /-- the checks let the reader through -/
  allowed : caller.sandboxed = false ∧ (caller.service = true ∨ caller.leadSession = sessionId)

/-- The call of the reader, with the last number that it was given. -/
def Client.args (client : Client) (msgNum maximumLength : Nat) : GetArgs :=
  { msgNum := msgNum
    sessionId := client.sessionId
    msgtext := true
    maximumLength := maximumLength
    processId := true }

def Log.step (client : Client) (log : Log) : Event → Option Log
  | .add args => (apiAddMessage args log.buf).map fun buf => { log with buf := buf }
  | .get maximumLength =>
    (apiGetMessage client.caller (client.args log.msgNum maximumLength) log.buf).map fun a =>
      { log with msgNum := a.msgNum, answers := log.answers ++ [a] }

def Log.run (client : Client) (log : Log) : List Event → Option Log
  | [] => some log
  | e :: events =>
    match log.step client e with
    | none => none
    | some log => log.run client events

def Log.start (memory : List UInt8) : Log := ⟨logBufferInit memory, 0, []⟩

/-! ### The ideal reader -/

/-- The messages that were logged, the queue of their entries, how many messages the reader
is past, and what it was told. -/
structure Ideal where
  fifo : Fifo
  messages : List AddArgs
  seen : Nat
  answers : List Answer

namespace Ideal

def start : Ideal := ⟨Fifo.empty, [], 0, []⟩

/-- The first message that the session wants, with how many are in front of it. -/
def firstWanted (sessionId : UInt32) : List AddArgs → Option (Nat × AddArgs)
  | [] => none
  | message :: messages =>
    if wants sessionId.toNat message.sessionId.toNat then some (0, message)
    else (firstWanted sessionId messages).map fun r => (r.1 + 1, r.2)

/-- The place of the first message that is still there and that the reader is not past. -/
def place (i : Ideal) : Nat := max i.fifo.popped i.seen

def next (sessionId : UInt32) (i : Ideal) : Option (Nat × AddArgs) :=
  (firstWanted sessionId (i.messages.drop i.place)).map fun r => (i.place + r.1, r.2)

/-- A message is logged unless it is too long for the buffer, and the oldest ones make room. -/
def add (bufferSize : Nat) (args : AddArgs) (h : args.pieces.flatten.length < 2 ^ 32)
    (i : Ideal) : Ideal :=
  let r := i.fifo.push bufferSize ⟨args.pieces, h⟩ true
  { i with
    fifo := r.1
    messages := if r.2 then i.messages ++ [args] else i.messages }

/-- The reader is told of the next message, with all of its bytes, and is past it when they
fit. -/
def get (sessionId : UInt32) (maximumLength : Nat) (i : Ideal) : Ideal :=
  match i.next sessionId with
  | none =>
    { i with
      answers := i.answers ++ [{ status := .noMoreEntries, msgNum := i.seen % 2 ^ 32 }] }
  | some (place, message) =>
    let answer : Answer :=
      { status := .success
        msgNum := (place + 1) % 2 ^ 32
        msgid := some message.errorCode.toNat
        processId := some message.processId.toNat }
    if message.text.length ≤ maximumLength then
      { i with
        seen := place + 1
        answers := i.answers ++ [{ answer with text := some message.text }] }
    else
      { i with
        answers := i.answers ++
          [{ answer with status := .bufferTooSmall, msgNum := i.seen % 2 ^ 32 }] }

def step (client : Client) (bufferSize : Nat) (i : Ideal) : Event → Ideal
  | .add args =>
    if h : args.pieces.flatten.length < 2 ^ 32 then i.add bufferSize args h else i
  | .get maximumLength => i.get client.sessionId maximumLength

def run (client : Client) (bufferSize : Nat) (i : Ideal) (events : List Event) : Ideal :=
  events.foldl (step client bufferSize) i

end Ideal

/-! ### When the code does the same -/

/-- The text behind the tags of an entry at an offset from the start of the ring is in one
piece in the memory. -/
def InOnePiece (buf : LogBuffer) (offset length : Nat) : Prop :=
  length = 0 ∨ (buf.bufferStartPtr + offset + 19) % buf.bufferSize + 1 + length ≤ buf.bufferSize

instance (buf : LogBuffer) (offset length : Nat) : Decidable (InOnePiece buf offset length) :=
  inferInstanceAs (Decidable (_ ∨ _))

/-- A message is not too long to say its size in 32 bits.  When the reader asks, it is less
than a whole turn of the numbers behind, and the text of the next message fits its buffer
and is in one piece. -/
def Meets (client : Client) (log : Log) (i : Ideal) : Event → Prop
  | .add args => 4 + 4 + 4 + args.dataLen < 2 ^ 32
  | .get maximumLength =>
    i.messages.length < i.seen + 2 ^ 32 ∧
      ∀ r ∈ i.next client.sessionId,
        r.2.text.length ≤ maximumLength ∧
          InOnePiece log.buf (usedBy (i.fifo.entries.take (r.1 - i.fifo.popped))) r.2.text.length

instance (client : Client) (log : Log) (i : Ideal) (e : Event) :
    Decidable (Meets client log i e) :=
  match e with
  | .add _ => inferInstanceAs (Decidable (_ < _))
  | .get _ => inferInstanceAs (Decidable (_ ∧ ∀ r ∈ _, _ ∧ _))

def Clean (client : Client) : Log → Ideal → List Event → Prop
  | _, _, [] => True
  | log, i, e :: events =>
    Meets client log i e ∧
      match log.step client e with
      | none => True
      | some log' => Clean client log' (i.step client log.buf.bufferSize e) events

instance decidableClean (client : Client) : ∀ (events : List Event) (log : Log) (i : Ideal),
    Decidable (Clean client log i events)
  | [], _, _ => inferInstanceAs (Decidable True)
  | e :: events, log, i =>
    match hstep : log.step client e with
    | none =>
      decidable_of_iff (Meets client log i e) (by
        unfold Clean
        rw [hstep]
        simp only [and_true])
    | some log' =>
      have := decidableClean client events log' (i.step client log.buf.bufferSize e)
      decidable_of_iff (Meets client log i e ∧
          Clean client log' (i.step client log.buf.bufferSize e) events) (by
        conv_rhs => unfold Clean
        rw [hstep])

end Sandboxie.ApiLog
