import Mathlib.Data.List.Basic
import Sandboxie.Common.Pattern

/-!
# The queue server

`core/svc/queueserver.cpp`: queues on which processes put requests for the process that
created the queue, which takes them and puts replies.  A handler runs under the lock of the
server from beginning to end, so a run is a list of messages one after the other.

What Windows, the driver and the heap say while a message is handled is its `Env`.  Event
handles are left out: the server only sets and closes them.
-/

namespace Sandboxie.QueueServer

abbrev statusSuccess : Nat := 0
abbrev statusInvalidCid : Nat := 0xC000000B
abbrev statusInvalidParameter : Nat := 0xC000000D
abbrev statusEndOfFile : Nat := 0xC0000011
abbrev statusAccessDenied : Nat := 0xC0000022
abbrev statusObjectNameInvalid : Nat := 0xC0000033
abbrev statusObjectNameNotFound : Nat := 0xC0000034
abbrev statusObjectNameCollision : Nat := 0xC0000035
abbrev statusSharingViolation : Nat := 0xC0000043
abbrev statusInsufficientResources : Nat := 0xC000009A

abbrev NtSuccess (status : Nat) : Prop := status < 2 ^ 31

abbrev queueNameMaxlen : Nat := 64
abbrev pipeMaxDataLen : Nat := 0x00FFFFFF
abbrev sizeofQueueCreateReq : Nat := 144
abbrev sizeofQueueGetreqReq : Nat := 136
abbrev sizeofQueuePutrplReq : Nat := 148
/-- `FIELD_OFFSET(QUEUE_PUTRPL_REQ, data)` -/
abbrev putrplDataOffset : Nat := 144
abbrev sizeofQueuePutreqReq : Nat := 152
/-- `FIELD_OFFSET(QUEUE_PUTREQ_REQ, data)` -/
abbrev putreqDataOffset : Nat := 148
abbrev sizeofQueueGetrplReq : Nat := 140

/-! ### Objects -/

/-- `REQUEST_OBJ`.  A pointer to data is `none` or the data, which are not empty.  The
address of an object is the number of the message that made it: its `tag`. -/
structure RequestObj where
  tag : Nat
  clientPid : Nat
  clientTid : Nat
  requestId : Nat
  reqData : Option (List UInt8)
  rplData : Option (List UInt8)
deriving DecidableEq, Repr

structure QueueObj where
  tag : Nat
  serverCreateTime : Nat
  serverPid : Nat
  requests : List RequestObj
  queueName : List WChar
deriving DecidableEq, Repr

/-- `QueueServer`, with the number of messages that it has handled. -/
structure Server where
  handled : Nat
  requestId : Nat
  queues : List QueueObj
deriving DecidableEq, Repr

def init : Server := ⟨0, 1, []⟩

/-- What the world says while a message is handled: of the caller whether it can be opened,
is sandboxed, what its IPC path and thread are and whether its event can be duplicated; of
any process whether it is active and when it was created; whether there is memory; and how
the start of a proxy process went. -/
structure Env where
  openStatus : Nat
  boxed : Bool
  ipcPath : Option (List WChar)
  threadId : Nat
  eventStatus : Nat
  active : Nat → Bool
  createTime : Nat → Option Nat
  nameMemory : Bool
  objectMemory : Bool
  dataMemory : Bool
  replyMemory : Bool
  startStatus : Nat

/-- The messages.  `length` is the one in the header; the data are what the message has from
its data field on. -/
inductive Body
  | startup (length : Nat) (queueName : List WChar)
  | create (length : Nat) (queueName : List WChar)
  | getReq (length : Nat) (queueName : List WChar)
  | putRpl (length : Nat) (queueName : List WChar) (reqId dataLen : Nat) (data : List UInt8)
  | putReq (length : Nat) (queueName : List WChar) (dataLen : Nat) (data : List UInt8)
  | getRpl (length : Nat) (queueName : List WChar) (reqId : Nat)
  | notification

/-- The checks of the lengths of a message with data. -/
def Body.Valid : Body → Prop
  | .putRpl length _ _ dataLen _ =>
    sizeofQueuePutrplReq ≤ length ∧ dataLen ≠ 0 ∧ dataLen ≤ pipeMaxDataLen ∧
      putrplDataOffset + dataLen ≤ length
  | .putReq length _ dataLen _ =>
    sizeofQueuePutreqReq ≤ length ∧ dataLen ≠ 0 ∧ dataLen ≤ pipeMaxDataLen ∧
      putreqDataOffset + dataLen ≤ length
  | _ => True

/-- A message of a process.  A notification is about the process, which is gone. -/
structure Message where
  idProcess : Nat
  env : Env
  body : Body

inductive Reply
  | short (status : Nat)
  | getReq (clientPid clientTid reqId : Nat) (data : List UInt8)
  | putReq (reqId : Nat)
  | getRpl (data : List UInt8)
  | none
deriving DecidableEq, Repr

/-! ### Handlers -/

/-- `MakeQueueName`: the name, if there is one, and the status. -/
def makeQueueName (env : Env) (reqName : List WChar) : Option (List WChar) × Nat :=
  let reqName := Text.cut (reqName.take (queueNameMaxlen - 1))
  if reqName.head? = some Pattern.star then
    if env.nameMemory = false then (none, statusInsufficientResources)
    else
      (some ([Pattern.star, Pattern.backslash] ++ reqName),
        if env.boxed then statusAccessDenied else statusSuccess)
  else if env.boxed = false then (none, statusAccessDenied)
  else
    match env.ipcPath with
    | none => (none, statusObjectNameInvalid)
    | some path =>
      if env.nameMemory = false then (none, statusInsufficientResources)
      else (some (path ++ [Pattern.backslash] ++ reqName), statusSuccess)

def deleteQueueObj (tag : Nat) (s : Server) : Server :=
  { s with queues := s.queues.filter fun q => q.tag ≠ tag }

/-- The server process of the queue is active, and is the one that created the queue. -/
def serverIsActive (env : Env) (q : QueueObj) : Bool :=
  env.active q.serverPid && env.createTime q.serverPid == some q.serverCreateTime

section Handlers

variable (towlower : WChar → WChar)

/-- `FindQueueObj`: a queue whose server process is gone is deleted. -/
def findQueueObj (env : Env) (queueName : List WChar) (s : Server) : Server × Option QueueObj :=
  match s.queues.find? fun q => q.queueName.length == queueName.length &&
      Text.sameNoCase towlower q.queueName queueName with
  | none => (s, none)
  | some q => if serverIsActive env q then (s, some q) else (deleteQueueObj q.tag s, none)

/-- What the handlers of requests and replies do to get to a queue: `OpenProcess`,
`MakeQueueName` and `FindQueueObj`. -/
def openQueue (env : Env) (queueName : List WChar) (s : Server) : Server × Except Nat QueueObj :=
  if ¬ NtSuccess env.openStatus then (s, .error env.openStatus)
  else
    match makeQueueName env queueName with
    | (none, status) => (s, .error status)
    | (some name, _) =>
      match findQueueObj towlower env name s with
      | (s, none) => (s, .error statusObjectNameNotFound)
      | (s, some q) => (s, .ok q)

def createHandler (idProcess : Nat) (env : Env) (length : Nat) (queueName : List WChar)
    (s : Server) : Server × Reply :=
  if length < sizeofQueueCreateReq then (s, .short statusInvalidParameter)
  else if ¬ NtSuccess env.openStatus then (s, .short env.openStatus)
  else
    match makeQueueName env queueName with
    | (none, status) => (s, .short status)
    | (some name, status) =>
      if status = statusAccessDenied then (s, .short status)
      else
        match findQueueObj towlower env name s with
        | (s, some _) => (s, .short statusObjectNameCollision)
        | (s, none) =>
          match env.createTime idProcess with
          | none => (s, .short statusInvalidCid)
          | some time =>
            if ¬ NtSuccess env.eventStatus then (s, .short env.eventStatus)
            else if env.objectMemory = false then (s, .short statusInsufficientResources)
            else
              ({ s with queues := s.queues ++ [⟨s.handled, time, idProcess, [], name⟩] },
                .short statusSuccess)

def startupHandler (env : Env) (length : Nat) (queueName : List WChar) (s : Server) :
    Server × Reply :=
  if length < sizeofQueueCreateReq then (s, .short statusInvalidParameter)
  else
    match makeQueueName env queueName with
    | (none, status) => (s, .short status)
    | (some name, _) =>
      match findQueueObj towlower env name s with
      | (s, some _) => (s, .short statusSuccess)
      | (s, none) =>
        if ¬ NtSuccess env.openStatus then (s, .short env.openStatus)
        else if ¬ NtSuccess env.eventStatus then (s, .short env.eventStatus)
        else (s, .short env.startStatus)

def setRequests (tag : Nat) (f : List RequestObj → List RequestObj) (s : Server) : Server :=
  { s with
    queues := s.queues.map fun q => if q.tag = tag then { q with requests := f q.requests } else q }

def deleteRequestObj (tag : Nat) (requests : List RequestObj) : List RequestObj :=
  requests.filter fun r => r.tag ≠ tag

def setRequest (tag : Nat) (f : RequestObj → RequestObj) (requests : List RequestObj) :
    List RequestObj :=
  requests.map fun r => if r.tag = tag then f r else r

def getReqHandler (idProcess : Nat) (env : Env) (length : Nat) (queueName : List WChar)
    (s : Server) : Server × Reply :=
  if length < sizeofQueueGetreqReq then (s, .short statusInvalidParameter)
  else
    match openQueue towlower env queueName s with
    | (s, .error status) => (s, .short status)
    | (s, .ok q) =>
      if q.serverPid ≠ idProcess then (s, .short statusAccessDenied)
      else
        match q.requests.find? fun r => r.reqData.isSome with
        | none => (s, .short statusEndOfFile)
        | some r =>
          if env.replyMemory = false then (s, .short statusInsufficientResources)
          else
            (setRequests q.tag (setRequest r.tag fun r => { r with reqData := none }) s,
              .getReq r.clientPid r.clientTid r.requestId (r.reqData.getD []))

def putRplHandler (idProcess : Nat) (env : Env) (length : Nat) (queueName : List WChar)
    (reqId dataLen : Nat) (data : List UInt8) (s : Server) : Server × Reply :=
  if length < sizeofQueuePutrplReq then (s, .short statusInvalidParameter)
  else if dataLen = 0 ∨ pipeMaxDataLen < dataLen then (s, .short statusInvalidParameter)
  else if length < putrplDataOffset + dataLen then (s, .short statusInvalidParameter)
  else
    match openQueue towlower env queueName s with
    | (s, .error status) => (s, .short status)
    | (s, .ok q) =>
      if q.serverPid ≠ idProcess then (s, .short statusAccessDenied)
      else
        match q.requests.find? fun r => r.requestId = reqId with
        | none => (s, .short statusEndOfFile)
        | some r =>
          if r.reqData.isSome then
            (setRequests q.tag (deleteRequestObj r.tag) s, .short statusSharingViolation)
          else if env.dataMemory = false then
            (setRequests q.tag (deleteRequestObj r.tag) s, .short statusInsufficientResources)
          else
            (setRequests q.tag
                (setRequest r.tag fun r => { r with rplData := some (data.take dataLen) }) s,
              .short statusSuccess)

/-- The loop that skips the reserved numbers; two turns of it are enough. -/
def skipReserved : Nat → Nat → Nat
  | 0, id => id
  | fuel + 1, id =>
    if id = 0 ∨ id = 2 ^ 32 - 1 then skipReserved fuel ((id + 1) % 2 ^ 32) else id

def putReqHandler (idProcess : Nat) (env : Env) (length : Nat) (queueName : List WChar)
    (dataLen : Nat) (data : List UInt8) (s : Server) : Server × Reply :=
  if length < sizeofQueuePutreqReq then (s, .short statusInvalidParameter)
  else if dataLen = 0 ∨ pipeMaxDataLen < dataLen then (s, .short statusInvalidParameter)
  else if length < putreqDataOffset + dataLen then (s, .short statusInvalidParameter)
  else
    match openQueue towlower env queueName s with
    | (s, .error status) => (s, .short status)
    | (s, .ok q) =>
      if ¬ NtSuccess env.eventStatus then (s, .short env.eventStatus)
      else if env.objectMemory = false then (s, .short statusInsufficientResources)
      else if env.dataMemory = false then (s, .short statusInsufficientResources)
      else
        let id := (s.requestId + 1) % 2 ^ 32
        let r : RequestObj :=
          ⟨s.handled, idProcess, env.threadId, id, some (data.take dataLen), none⟩
        let s := { s with requestId := skipReserved 2 id }
        if env.replyMemory = false then (s, .short statusInsufficientResources)
        else (setRequests q.tag (fun requests => requests ++ [r]) s, .putReq id)

def getRplHandler (idProcess : Nat) (env : Env) (length : Nat) (queueName : List WChar)
    (reqId : Nat) (s : Server) : Server × Reply :=
  if length < sizeofQueueGetrplReq then (s, .short statusInvalidParameter)
  else
    match openQueue towlower env queueName s with
    | (s, .error status) => (s, .short status)
    | (s, .ok q) =>
      match q.requests.find? fun r => r.requestId = reqId with
      | none => (s, .short statusEndOfFile)
      | some r =>
        if r.clientPid ≠ idProcess then (s, .short statusAccessDenied)
        else
          match r.rplData with
          | none => (setRequests q.tag (deleteRequestObj r.tag) s, .short statusEndOfFile)
          | some data =>
            if env.replyMemory = false then (s, .short statusInsufficientResources)
            else (setRequests q.tag (deleteRequestObj r.tag) s, .getRpl data)

def notifyHandler (idProcess : Nat) (s : Server) : Server × Reply :=
  ({ s with
      queues := (s.queues.filter fun q => q.serverPid ≠ idProcess).map fun q =>
        { q with requests := q.requests.filter fun r => r.clientPid ≠ idProcess } },
    .none)

def handler (msg : Message) (s : Server) : Server × Reply :=
  match msg.body with
  | .startup length queueName => startupHandler towlower msg.env length queueName s
  | .create length queueName => createHandler towlower msg.idProcess msg.env length queueName s
  | .getReq length queueName => getReqHandler towlower msg.idProcess msg.env length queueName s
  | .putRpl length queueName reqId dataLen data =>
    putRplHandler towlower msg.idProcess msg.env length queueName reqId dataLen data s
  | .putReq length queueName dataLen data =>
    putReqHandler towlower msg.idProcess msg.env length queueName dataLen data s
  | .getRpl length queueName reqId =>
    getRplHandler towlower msg.idProcess msg.env length queueName reqId s
  | .notification => notifyHandler msg.idProcess s

def step (msg : Message) (s : Server) : Server × Reply :=
  let r := handler towlower msg s
  ({ r.1 with handled := s.handled + 1 }, r.2)

def after (msgs : List Message) : Server := msgs.foldl (fun s msg => (step towlower msg s).1) init

end Handlers

end Sandboxie.QueueServer
