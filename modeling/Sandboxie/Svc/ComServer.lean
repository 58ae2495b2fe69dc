import Mathlib.Data.List.Basic
import Mathlib.Logic.Function.Basic
import Sandboxie.Common.Text
import Sandboxie.Lib.CriticalSection
import Sandboxie.Lib.Run

/-!
# The COM proxy server

`core/svc/comserver.cpp`: the service has a slave process for each user, box and session, and
hands it the requests of the sandboxed programs.  A request is written to a map that the service
and the slave share; `hEvent1` tells the slave that it is there, and `hEvent2` tells the service
that the answer is.

A step of a thread is what it does between two points at which another thread or the slave can
come in.  What is in a map is told by who wrote it: `tag` counts the requests.
-/

namespace Sandboxie.ComServer

abbrev SlaveId := Nat

/-- The names of the shared objects are made of it.  The texts are compared without case. -/
structure Key where
  SidString : List WChar := []
  BoxName : List WChar := []
  SessionId : Nat := 0
  IsWow64 : Bool := false
deriving DecidableEq

/-- What is in the `COM_SLAVE_MAP`. -/
inductive Content
  | zero
  /-- `LockSlave` has written the beginning of a request. -/
  | header (tag : Nat)
  | request (tag : Nat)
  /-- `msgid` is -1. -/
  | exit
  /-- The slave has answered what it took for a request, with `exc` zero, and `ProcNum` -1. -/
  | answer (tag : Option Nat) (exc0 procNum1 : Bool)
  /-- An answer into which a request has been written, which does not change `exc`. -/
  | torn (exc0 : Bool)
deriving DecidableEq

namespace Content

/-- `exc`, which is the place of `msgid`, is zero. -/
def exc0 : Content → Bool
  | zero => true
  | answer _ exc0 _ | torn exc0 => exc0
  | _ => false

/-- `ProcNum` is -1. -/
def procNum1 : Content → Bool
  | answer _ _ procNum1 => procNum1
  | _ => false

def tag : Content → Option Nat
  | request tag => some tag
  | _ => none

end Content

/-- The map and the events of a key. -/
structure Channel where
  map : Content := .zero
  hEvent1 : Bool := false
  hEvent2 : Bool := false
deriving DecidableEq

/-- Where `RunSlave` is. -/
inductive Process
  | waiting
  | working (tag : Option Nat)
  | dead
deriving DecidableEq

/-- `COM_SLAVE`, with its process.  `posted` is the last request that was handed over. -/
structure Slave (T : Type) where
  key : Key := {}
  lock : CriticalSection T := none
  not_responding : Bool := false
  non_com_request : Bool := false
  process : Process := .waiting
  freed : Bool := false
  posted : Option Nat := none

/-- How the caller of `DeleteSlave` goes on. -/
inductive Then
  | retry (key : Key) (msgid : Nat)
  | create (key : Key) (msgid : Nat)
  | failed
  | notify (rest : List SlaveId) (any_slaves_skipped : Bool) (retry_count : Nat)
deriving DecidableEq

inductive Place
  | idle
  | lockSlave (key : Key) (msgid : Nat)
  /-- In `LockSlave`, with `m_SlavesLock` and no slave. -/
  | create (key : Key) (msgid : Nat)
  /-- In a handler, with the slave. -/
  | write (slave : SlaveId) (msgid tag : Nat)
  | wait (slave : SlaveId) (callid tag : Nat)
  /-- `CallSlave` has returned. -/
  | answered (slave : SlaveId) (tag : Nat) (exc0 : Bool)
  /-- `CallSlave` has failed, and is going to delete the slave. -/
  | fail (slave : SlaveId) (tag : Nat)
  /-- In `DeleteSlave`, where the slave is told to end. -/
  | deleting (slave : SlaveId) (next : Then)
  | notify (retry_count : Nat)
  /-- The rest of the list, which does not change but by the thread itself. -/
  | notifyNext (rest : List SlaveId) (any_slaves_skipped : Bool) (retry_count : Nat)
  | notifyWait (slave : SlaveId) (rest : List SlaveId) (any_slaves_skipped : Bool)
      (retry_count tag : Nat)
deriving DecidableEq

inductive Event
  /-- The slave takes what is in the map for a request. -/
  | saw (map : Content) (posted : Option Nat)
  /-- A handler builds a successful reply to its request. -/
  | replied (map : Content) (tag : Nat)
deriving DecidableEq

structure State (T : Type) where
  m_SlavesLock : CriticalSection T := none
  m_SlavesList : List SlaveId := []
  slaves : SlaveId → Slave T := fun _ => {}
  nextSlave : SlaveId := 0
  chans : Key → Channel := fun _ => {}
  threads : T → Place := fun _ => .idle
  nextTag : Nat := 0
  log : List Event := []

/-- What a step reads from outside. -/
structure Answers where
  /-- The request is one that is handed to the slave. -/
  valid : Bool := true
  /-- Someone has the slave for more than `SLAVE_TIMEOUT_SECONDS * 2`. -/
  tooLong : Bool := false
  /-- A wait for the slave takes `SLAVE_TIMEOUT_SECONDS`. -/
  timeout : Bool := false
  /-- The process of a new slave, and what it needs, can be made. -/
  created : Bool := true
deriving DecidableEq

inductive Action
  | request (key : Key) (msgid : Nat)
  | notification
  /-- The thread goes on. -/
  | go (a : Answers)
deriving DecidableEq

/-- What the process of a slave does. -/
inductive SlaveAction
  | wake
  | finish (exc0 procNum1 : Bool)
  | die
deriving DecidableEq

def MSGID_COM_GET_CLASS_OBJECT : Nat := 0x1B01
def MSGID_COM_COPY_PROXY : Nat := 0x1B0A
def MSGID_COM_UNMARSHAL_INTERFACE : Nat := 0x1B06
def MSGID_COM_NOTIFICATION : Nat := 0x1BFF

/-- `callid`, where a handler calls the slave: the ten COM requests, and the others. -/
def callid (msgid : Nat) : Option Nat :=
  if MSGID_COM_GET_CLASS_OBJECT ≤ msgid ∧ msgid ≤ MSGID_COM_COPY_PROXY then
    some (msgid - MSGID_COM_GET_CLASS_OBJECT + 0x31)
  else if 0x80 < msgid % 256 then some (msgid % 256)
  else none

def creates (msgid : Nat) : Bool :=
  msgid == MSGID_COM_GET_CLASS_OBJECT || msgid == MSGID_COM_UNMARSHAL_INTERFACE ||
    decide (0x80 < msgid % 256)

namespace State

variable {T : Type}

/-! ### Parts of a step -/

def note (e : Event) (s : State T) : State T := { s with log := e :: s.log }

def setSlave (slave : SlaveId) (record : Slave T) (s : State T) : State T :=
  { s with slaves := Function.update s.slaves slave record }

def chan (s : State T) (slave : SlaveId) : Channel := s.chans (s.slaves slave).key

def setChan (slave : SlaveId) (c : Channel) (s : State T) : State T :=
  { s with chans := Function.update s.chans (s.slaves slave).key c }

def named (s : State T) (key : Key) : Bool :=
  (List.range s.nextSlave).any fun slave =>
    !(s.slaves slave).freed && decide ((s.slaves slave).key = key)

variable [DecidableEq T]

def goto (t : T) (place : Place) (s : State T) : State T :=
  { s with threads := Function.update s.threads t place }

def leaveSlaves (t : T) (s : State T) : State T :=
  { s with m_SlavesLock := CriticalSection.leave t s.m_SlavesLock }

def leaveSlave (t : T) (slave : SlaveId) (s : State T) : State T :=
  s.setSlave slave { s.slaves slave with
    lock := CriticalSection.leave t (s.slaves slave).lock }

/-- `SetEvent(slave->hEvent1)`, with the request in the map. -/
def post (slave : SlaveId) (tag : Nat) (map : Content) (s : State T) : State T :=
  (s.setChan slave { s.chan slave with map := map, hEvent1 := true }).setSlave slave
    { s.slaves slave with posted := some tag }

/-! ### `DeleteSlave` -/

/-- With both locks: the slave leaves the list and is told to end. -/
def deleteSlave (t : T) (slave : SlaveId) (next : Then) (s : State T) : State T :=
  let s := { s with m_SlavesList := s.m_SlavesList.erase slave }
  let s := s.setChan slave { s.chan slave with map := .exit, hEvent1 := true }
  (s.setSlave slave { s.slaves slave with posted := none }).goto t (.deleting slave next)

/-- `TerminateProcess`, and what follows it. -/
def free (slave : SlaveId) (s : State T) : State T :=
  s.setSlave slave { s.slaves slave with lock := none, process := .dead, freed := true }

/-! ### `LockSlave` -/

/-- What the main loop finds. -/
inductive Found
  | none
  | delete (slave : SlaveId) (lock : CriticalSection T)
  | slave (slave : SlaveId)

def search (t : T) (key : Key) (s : State T) : List SlaveId → Found (T := T)
  | [] => .none
  | slave :: rest =>
    if (s.slaves slave).not_responding then
      match CriticalSection.enter t (s.slaves slave).lock with
      | some lock => .delete slave lock
      | none => s.search t key rest
    else if (s.slaves slave).key = key then .slave slave
    else s.search t key rest

/-- The slave is locked: its map gets the beginning of the request. -/
def locked (t : T) (slave : SlaveId) (msgid : Nat) (s : State T) : State T :=
  let tag := s.nextTag
  let s := s.setChan slave { s.chan slave with map := .header tag }
  ({ s with nextTag := tag + 1 }.leaveSlaves t).goto t (.write slave msgid tag)

/-- A new slave, where the request is one to create it for.  Objects that are still there under
the names are opened. -/
def createSlave (t : T) (key : Key) (msgid : Nat) (a : Answers) (s : State T) : State T :=
  if creates msgid = false then (s.leaveSlaves t).goto t .idle
  else if a.created then
    let slave := s.nextSlave
    let c := if s.named key then s.chans key else {}
    let s := s.setSlave slave { key := key, lock := some (t, 0) }
    let s := { s with
      m_SlavesList := s.m_SlavesList ++ [slave]
      nextSlave := slave + 1
      chans := Function.update s.chans key c }
    s.locked t slave msgid
  -- `DeleteSlave` of a slave that is not in the list yet: without neighbours, it is taken for
  -- the last of the list, and the list is empty then
  else ({ s with m_SlavesList := [] }.leaveSlaves t).goto t .idle

/-- With `m_SlavesLock`. -/
def lockSlave (t : T) (key : Key) (msgid : Nat) (a : Answers) (s : State T) : State T :=
  match s.search t key s.m_SlavesList with
  | .none => s.goto t (.create key msgid)
  | .delete slave lock =>
    (s.setSlave slave { s.slaves slave with lock := lock }).deleteSlave t slave (.retry key msgid)
  | .slave slave =>
    match CriticalSection.enter t (s.slaves slave).lock with
    | some lock =>
      let s := s.setSlave slave { s.slaves slave with lock := lock, not_responding := false }
      if (s.slaves slave).process = .dead then s.deleteSlave t slave (.create key msgid)
      else s.locked t slave msgid
    | none =>
      if a.tooLong && !(s.slaves slave).non_com_request then
        (s.setSlave slave { s.slaves slave with not_responding := true }).goto t
          (.create key msgid)
      -- waits for `m_SlaveReleasedEvent`
      else (s.leaveSlaves t).goto t (.lockSlave key msgid)

/-! ### `CallSlave` -/

/-- A handler writes the rest of the request, and calls the slave. -/
def write (t : T) (slave : SlaveId) (msgid tag : Nat) (a : Answers) (s : State T) : State T :=
  match callid msgid, a.valid with
  | some callid, true =>
    let map := match (s.chan slave).map with
      | .header tag' => if tag' = tag then .request tag else .torn false
      | map => .torn map.exc0
    let s := s.post slave tag map
    let s := if 0x80 < callid then
        s.setSlave slave { s.slaves slave with non_com_request := true }
      else s
    s.goto t (.wait slave callid tag)
  | _, _ => (s.leaveSlave t slave).goto t .idle

/-- `WaitForMultipleObjects`, which has no timeout for other requests than those of COM; nothing
while the wait goes on. -/
def wait (t : T) (slave : SlaveId) (callid tag : Nat) (a : Answers) (s : State T) :
    Option (State T) :=
  let c := s.chan slave
  if (s.slaves slave).process = .dead then some (s.goto t (.fail slave tag))
  else if c.hEvent2 then
    let s := s.setChan slave { c with hEvent2 := false }
    let s := s.setSlave slave { s.slaves slave with non_com_request := false }
    some (s.goto t (.answered slave tag c.map.exc0))
  else if a.timeout && decide (callid ≤ 0x80) then some (s.goto t (.fail slave tag))
  else none

def reply (t : T) (slave : SlaveId) (tag : Nat) (exc0 : Bool) (s : State T) : State T :=
  let s := if exc0 then s.note (.replied (s.chan slave).map tag) else s
  (s.leaveSlave t slave).goto t .idle

/-! ### `NotifyAllSlaves3` -/

def notifyNext (t : T) (rest : List SlaveId) (any_slaves_skipped : Bool) (retry_count : Nat)
    (s : State T) : State T :=
  match rest with
  | [] =>
    (s.leaveSlaves t).goto t
      (if any_slaves_skipped && decide (retry_count < 5) then .notify (retry_count + 1) else .idle)
  | slave :: rest =>
    match CriticalSection.enter t (s.slaves slave).lock with
    | none => s.goto t (.notifyNext rest true retry_count)
    | some lock =>
      let tag := s.nextTag
      let s := s.setSlave slave { s.slaves slave with lock := lock }
      let s := s.post slave tag (.request tag)
      { s with nextTag := tag + 1 }.goto t
        (.notifyWait slave rest any_slaves_skipped retry_count tag)

/-- Whatever ends the wait, the map is looked at. -/
def notifyWait (t : T) (slave : SlaveId) (rest : List SlaveId) (any_slaves_skipped : Bool)
    (retry_count : Nat) (a : Answers) (s : State T) : Option (State T) :=
  let c := s.chan slave
  if (s.slaves slave).process = .dead ∨ c.hEvent2 = true ∨ a.timeout = true then
    let s := if (s.slaves slave).process = .dead then s
      else s.setChan slave { c with hEvent2 := false }
    if c.map.procNum1 then
      some (s.deleteSlave t slave (.notify rest any_slaves_skipped retry_count))
    else some ((s.leaveSlave t slave).goto t (.notifyNext rest any_slaves_skipped retry_count))
  else none

/-! ### Steps -/

def deleted (t : T) (slave : SlaveId) (next : Then) (s : State T) : State T :=
  let s := s.free slave
  match next with
  | .retry key msgid => (s.leaveSlaves t).goto t (.lockSlave key msgid)
  | .create key msgid => s.goto t (.create key msgid)
  | .failed => (s.leaveSlaves t).goto t .idle
  | .notify rest any_slaves_skipped retry_count =>
    s.goto t (.notifyNext rest any_slaves_skipped retry_count)

def enterSlaves (t : T) (s : State T) : Option (State T) :=
  (CriticalSection.enter t s.m_SlavesLock).map fun lock => { s with m_SlavesLock := lock }

/-- A thread goes on from its place; not where it has to wait. -/
def go (t : T) (a : Answers) (s : State T) : Option (State T) :=
  match s.threads t with
  | .idle => none
  | .lockSlave key msgid => (s.enterSlaves t).map (lockSlave t key msgid a)
  | .write slave msgid tag => some (s.write t slave msgid tag a)
  | .create key msgid => some (s.createSlave t key msgid a)
  | .wait slave callid tag => s.wait t slave callid tag a
  | .answered slave tag exc0 => some (s.reply t slave tag exc0)
  | .fail slave _ => (s.enterSlaves t).map (deleteSlave t slave .failed)
  | .deleting slave next => some (s.deleted t slave next)
  | .notify retry_count =>
    (s.enterSlaves t).map fun s => s.goto t (.notifyNext s.m_SlavesList false retry_count)
  | .notifyNext rest any_slaves_skipped retry_count =>
    some (s.notifyNext t rest any_slaves_skipped retry_count)
  | .notifyWait slave rest any_slaves_skipped retry_count _ =>
    s.notifyWait t slave rest any_slaves_skipped retry_count a

def runSlave (slave : SlaveId) (action : SlaveAction) (s : State T) : Option (State T) :=
  let record := s.slaves slave
  let c := s.chan slave
  match action, record.process with
  | .wake, .waiting =>
    if c.hEvent1 then
      let s := s.setChan slave { c with hEvent1 := false }
      if c.map = .exit then some (s.setSlave slave { record with process := .dead })
      else some ((s.setSlave slave { record with process := .working c.map.tag }).note
        (.saw c.map record.posted))
    else none
  | .finish exc0 procNum1, .working tag =>
    let s := s.setChan slave { c with map := .answer tag exc0 procNum1, hEvent2 := true }
    some (s.setSlave slave { record with process := .waiting })
  | .die, _ => some (s.setSlave slave { record with process := .dead })
  | _, _ => none

def step (s : State T) (e : (T × Action) ⊕ (SlaveId × SlaveAction)) : Option (State T) :=
  match e with
  | .inl (t, .request key msgid) =>
    if s.threads t = .idle ∧ msgid ≠ MSGID_COM_NOTIFICATION then
      some (s.goto t (.lockSlave key msgid))
    else none
  | .inl (t, .notification) => if s.threads t = .idle then some (s.goto t (.notify 0)) else none
  | .inl (t, .go a) => s.go t a
  | .inr (slave, action) => if slave < s.nextSlave then s.runSlave slave action else none

end State

end Sandboxie.ComServer
