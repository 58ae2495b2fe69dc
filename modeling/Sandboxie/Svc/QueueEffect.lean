import Sandboxie.Svc.QueueServer

/-!
# What a message does to the queue server

`handler_effect` says what a message can do to the queues, and with which reply, once for all
handlers.
-/

namespace Sandboxie.QueueServer

open List

/-! ### What a message can do -/

def Names (towlower : WChar → WChar) (env : Env) (queueName : List WChar) (q : QueueObj) : Prop :=
  ∃ name status, makeQueueName env queueName = (some name, status) ∧
    Text.sameNoCase towlower q.queueName name = true

/-- The message comes from the process that created the queue: its number and the time of
its creation are the recorded ones. -/
def IsServer (msg : Message) (q : QueueObj) : Prop :=
  msg.idProcess = q.serverPid ∧ msg.env.createTime msg.idProcess = some q.serverCreateTime

/-- What `FindQueueObj` may do to the server on the way: delete a queue whose server process
is gone. -/
inductive Found (env : Env) (s : Server) : Server → Prop
  | same : Found env s s
  | deleted {q : QueueObj} (hq : q ∈ s.queues) (hgone : serverIsActive env q = false) :
      Found env s (deleteQueueObj q.tag s)

/-- **What a message does**, in all cases. -/
inductive Effect (towlower : WChar → WChar) (msg : Message) (s : Server) : Server → Reply → Prop
  | nothing {s' : Server} {status : Nat} (hfound : Found msg.env s s')
      (hstatus : status = statusSuccess → ∃ length queueName, msg.body = .startup length queueName)
      (hbody : msg.body ≠ .notification) :
      Effect towlower msg s s' (.short status)
  | created {s' : Server} {length time : Nat} {queueName name : List WChar}
      (hfound : Found msg.env s s') (hbody : msg.body = .create length queueName)
      (hname : makeQueueName msg.env queueName = (some name, statusSuccess))
      (hnew : ∀ q ∈ s'.queues, Text.sameNoCase towlower q.queueName name = true →
        ∃ q0 ∈ s.queues, Text.sameNoCase towlower q0.queueName name = true ∧ q0.tag ≠ q.tag)
      (htime : msg.env.createTime msg.idProcess = some time) :
      Effect towlower msg s
        { s' with queues := s'.queues ++ [⟨s'.handled, time, msg.idProcess, [], name⟩] }
        (.short statusSuccess)
  | taken {q : QueueObj} {r : RequestObj} {length : Nat} {queueName : List WChar}
      {data : List UInt8} (hq : q ∈ s.queues) (hbody : msg.body = .getReq length queueName)
      (hnames : Names towlower msg.env queueName q) (hserver : IsServer msg q)
      (hfirst : q.requests.find? (fun r => r.reqData.isSome) = some r)
      (hdata : r.reqData = some data) :
      Effect towlower msg s
        (setRequests q.tag (setRequest r.tag fun r => { r with reqData := none }) s)
        (.getReq r.clientPid r.clientTid r.requestId data)
  | refused {q : QueueObj} {r : RequestObj} {length dataLen status : Nat}
      {queueName : List WChar} {data : List UInt8} (hq : q ∈ s.queues)
      (hbody : msg.body = .putRpl length queueName r.requestId dataLen data)
      (hvalid : msg.body.Valid) (hnames : Names towlower msg.env queueName q)
      (hserver : IsServer msg q) (hr : r ∈ q.requests) (hstatus : status ≠ statusSuccess) :
      Effect towlower msg s (setRequests q.tag (deleteRequestObj r.tag) s) (.short status)
  | replied {q : QueueObj} {r : RequestObj} {length dataLen : Nat} {queueName : List WChar}
      {data : List UInt8} (hq : q ∈ s.queues)
      (hbody : msg.body = .putRpl length queueName r.requestId dataLen data)
      (hvalid : msg.body.Valid) (hnames : Names towlower msg.env queueName q)
      (hserver : IsServer msg q) (hr : r ∈ q.requests) (htaken : r.reqData = none) :
      Effect towlower msg s
        (setRequests q.tag
          (setRequest r.tag fun r => { r with rplData := some (data.take dataLen) }) s)
        (.short statusSuccess)
  | numbered {q : QueueObj} {length dataLen : Nat} {queueName : List WChar} {data : List UInt8}
      (hq : q ∈ s.queues) (hbody : msg.body = .putReq length queueName dataLen data)
      (hvalid : msg.body.Valid) (hnames : Names towlower msg.env queueName q) :
      Effect towlower msg s
        { s with requestId := skipReserved 2 ((s.requestId + 1) % 2 ^ 32) }
        (.short statusInsufficientResources)
  | put {q : QueueObj} {length dataLen : Nat} {queueName : List WChar} {data : List UInt8}
      (hq : q ∈ s.queues) (hbody : msg.body = .putReq length queueName dataLen data)
      (hvalid : msg.body.Valid) (hnames : Names towlower msg.env queueName q) :
      Effect towlower msg s
        (setRequests q.tag
          (fun requests => requests ++ [⟨s.handled, msg.idProcess, msg.env.threadId,
            (s.requestId + 1) % 2 ^ 32, some (data.take dataLen), none⟩])
          { s with requestId := skipReserved 2 ((s.requestId + 1) % 2 ^ 32) })
        (.putReq ((s.requestId + 1) % 2 ^ 32))
  | early {q : QueueObj} {r : RequestObj} {length : Nat} {queueName : List WChar}
      (hq : q ∈ s.queues) (hbody : msg.body = .getRpl length queueName r.requestId)
      (hclient : r.clientPid = msg.idProcess) (hr : r ∈ q.requests) :
      Effect towlower msg s (setRequests q.tag (deleteRequestObj r.tag) s)
        (.short statusEndOfFile)
  | delivered {q : QueueObj} {r : RequestObj} {length : Nat} {queueName : List WChar}
      {data : List UInt8} (hq : q ∈ s.queues)
      (hbody : msg.body = .getRpl length queueName r.requestId)
      (hnames : Names towlower msg.env queueName q) (hclient : r.clientPid = msg.idProcess)
      (hr : r ∈ q.requests) (hdata : r.rplData = some data) :
      Effect towlower msg s (setRequests q.tag (deleteRequestObj r.tag) s) (.getRpl data)
  | gone (hbody : msg.body = .notification) :
      Effect towlower msg s (notifyHandler msg.idProcess s).1 .none

section Effects

variable {towlower : WChar → WChar} {s s' : Server} {env : Env} {name : List WChar}

theorem findQueueObj_none (h : findQueueObj towlower env name s = (s', none)) : Found env s s' := by
  rw [findQueueObj] at h
  split at h
  · cases h
    exact .same
  · rename_i q hfind
    split at h
    · cases h
    · rename_i hactive
      cases h
      exact .deleted (mem_of_find?_eq_some hfind) (by simpa using hactive)

theorem find_name {s : Server} {q : QueueObj} (hq : q ∈ s.queues)
    (hsame : Text.sameNoCase towlower q.queueName name = true) :
    ∃ q0, s.queues.find? (fun q => q.queueName.length == name.length &&
      Text.sameNoCase towlower q.queueName name) = some q0 ∧ q0 ∈ s.queues ∧
        Text.sameNoCase towlower q0.queueName name = true := by
  have hlength : q.queueName.length = name.length := by
    rw [Text.sameNoCase, beq_iff_eq] at hsame
    simpa using congrArg List.length hsame
  cases hfind : s.queues.find? (fun q => q.queueName.length == name.length &&
      Text.sameNoCase towlower q.queueName name) with
  | none =>
    have hnone := find?_eq_none.mp hfind q hq
    simp [hlength, hsame] at hnone
  | some q0 =>
    have hsame0 := find?_some hfind
    rw [Bool.and_eq_true] at hsame0
    exact ⟨q0, rfl, mem_of_find?_eq_some hfind, hsame0.2⟩

theorem findQueueObj_new (h : findQueueObj towlower env name s = (s', none)) : ∀ q ∈ s'.queues,
      Text.sameNoCase towlower q.queueName name = true →
        ∃ q0 ∈ s.queues, Text.sameNoCase towlower q0.queueName name = true ∧ q0.tag ≠ q.tag := by
  intro q hq hsame
  rw [findQueueObj] at h
  split at h
  · rename_i hfind
    cases h
    obtain ⟨q0, hfind0, _⟩ := find_name hq hsame
    rw [hfind0] at hfind
    cases hfind
  · rename_i q0 hfind
    split at h
    · cases h
    · cases h
      have hsame0 := find?_some hfind
      rw [Bool.and_eq_true] at hsame0
      have hne : q.tag ≠ q0.tag := by simpa using (mem_filter.mp hq).2
      exact ⟨q0, mem_of_find?_eq_some hfind, hsame0.2, hne.symm⟩

theorem findQueueObj_some {q : QueueObj} (h : findQueueObj towlower env name s = (s', some q)) :
    s' = s ∧ q ∈ s.queues ∧ serverIsActive env q = true ∧
      Text.sameNoCase towlower q.queueName name = true := by
  rw [findQueueObj] at h
  split at h
  · cases h
  rename_i q' hfind
  split at h
  · rename_i hactive
    cases h
    have hsame := find?_some hfind
    rw [Bool.and_eq_true] at hsame
    exact ⟨rfl, mem_of_find?_eq_some hfind, hactive, hsame.2⟩
  · cases h

variable {queueName : List WChar} {status : Nat}

theorem openQueue_error
    (h : openQueue towlower env queueName s = (s', .error status)) : Found env s s' := by
  rw [openQueue] at h
  split at h
  · cases h
    exact .same
  split at h
  · cases h
    exact .same
  · split at h
    · rename_i hfind
      cases h
      exact findQueueObj_none hfind
    · cases h

theorem openQueue_ok {q : QueueObj} (h : openQueue towlower env queueName s = (s', .ok q)) :
    s' = s ∧ q ∈ s.queues ∧ serverIsActive env q = true ∧ Names towlower env queueName q := by
  rw [openQueue] at h
  split at h
  · cases h
  split at h
  · cases h
  · rename_i name status hname
    split at h
    · cases h
    · rename_i hfind
      cases h
      obtain ⟨rfl, hq, hactive, hsame⟩ := findQueueObj_some hfind
      exact ⟨rfl, hq, hactive, name, status, hname, hsame⟩

variable {msg : Message}

theorem isServer_of_active {q : QueueObj} (hactive : serverIsActive msg.env q = true)
    (hpid : ¬ q.serverPid ≠ msg.idProcess) : IsServer msg q := by
  rw [ne_eq, not_not] at hpid
  rw [serverIsActive, Bool.and_eq_true, beq_iff_eq] at hactive
  exact ⟨hpid.symm, hpid ▸ hactive.2⟩

theorem makeQueueName_status {queueName name : List WChar}
    (h : makeQueueName env queueName = (some name, status)) :
    status = statusSuccess ∨ status = statusAccessDenied := by
  unfold makeQueueName at h
  dsimp only at h
  split at h
  · split at h
    · cases h
    · obtain ⟨_, rfl⟩ := Prod.mk.inj h
      split <;> simp
  · split at h
    · cases h
    · split at h
      · cases h
      · split at h
        · cases h
        · exact Or.inl (Prod.mk.inj h).2.symm

theorem makeQueueName_error
    (h : makeQueueName env queueName = (none, status)) : status ≠ statusSuccess := by
  unfold makeQueueName at h
  dsimp only at h
  split at h
  · split at h
    · obtain ⟨_, rfl⟩ := Prod.mk.inj h
      decide
    · cases h
  · split at h
    · obtain ⟨_, rfl⟩ := Prod.mk.inj h
      decide
    · split at h
      · obtain ⟨_, rfl⟩ := Prod.mk.inj h
        decide
      · split at h
        · obtain ⟨_, rfl⟩ := Prod.mk.inj h
          decide
        · cases h

theorem ne_success_of_not_ntSuccess (h : ¬ NtSuccess status) :
    status ≠ statusSuccess := by
  rintro rfl
  exact h (by decide)

theorem openQueue_status
    (h : openQueue towlower env queueName s = (s', .error status)) : status ≠ statusSuccess := by
  rw [openQueue] at h
  split at h
  · rename_i hopen
    cases h
    exact ne_success_of_not_ntSuccess hopen
  split at h
  · rename_i hname
    cases h
    exact makeQueueName_error hname
  · split at h
    · cases h
      decide
    · cases h

theorem Effect.failed (hbody : msg.body ≠ .notification) (hfound : Found msg.env s s')
    (hstatus : status ≠ statusSuccess) : Effect towlower msg s s' (.short status) :=
  .nothing hfound (fun h => absurd h hstatus) hbody

variable {length : Nat}

theorem startupHandler_effect (hbody : msg.body = .startup length queueName) (s : Server) :
    Effect towlower msg s (startupHandler towlower msg.env length queueName s).1
      (startupHandler towlower msg.env length queueName s).2 := by
  have hstartup : ∀ {s' : Server} {status : Nat}, Found msg.env s s' →
      Effect towlower msg s s' (.short status) :=
    fun hfound => .nothing hfound (fun _ => ⟨length, queueName, hbody⟩) (by rw [hbody]; nofun)
  rw [startupHandler]
  split
  · exact hstartup .same
  split
  · exact hstartup .same
  · split
    · rename_i hfind
      obtain ⟨rfl, _⟩ := findQueueObj_some hfind
      exact hstartup .same
    · rename_i hfind
      have hfound := findQueueObj_none hfind
      split
      · exact hstartup hfound
      · split <;> exact hstartup hfound

theorem createHandler_effect (hbody : msg.body = .create length queueName) (s : Server) :
    Effect towlower msg s (createHandler towlower msg.idProcess msg.env length queueName s).1
      (createHandler towlower msg.idProcess msg.env length queueName s).2 := by
  have hmsg : msg.body ≠ .notification := by rw [hbody]; nofun
  rw [createHandler]
  split
  · exact .failed hmsg .same (by decide)
  split
  · rename_i hopen
    exact .failed hmsg .same (ne_success_of_not_ntSuccess hopen)
  · split
    · rename_i hname
      exact .failed hmsg .same (makeQueueName_error hname)
    · rename_i name status hname
      split
      · rename_i hdenied
        exact .failed hmsg .same (by rw [hdenied]; decide)
      rename_i hdenied
      have hsuccess := (makeQueueName_status hname).resolve_right hdenied
      subst hsuccess
      split
      · rename_i hfind
        obtain ⟨rfl, _⟩ := findQueueObj_some hfind
        exact .failed hmsg .same (by decide)
      rename_i hfind
      have hfound := findQueueObj_none hfind
      split
      · exact .failed hmsg hfound (by decide)
      · rename_i time htime
        split
        · rename_i hevent
          exact .failed hmsg hfound (ne_success_of_not_ntSuccess hevent)
        · split
          · exact .failed hmsg hfound (by decide)
          · exact .created hfound hbody hname (findQueueObj_new hfind) htime

theorem getReqHandler_effect (hbody : msg.body = .getReq length queueName) (s : Server) :
    Effect towlower msg s (getReqHandler towlower msg.idProcess msg.env length queueName s).1
      (getReqHandler towlower msg.idProcess msg.env length queueName s).2 := by
  have hmsg : msg.body ≠ .notification := by rw [hbody]; nofun
  rw [getReqHandler]
  split
  · exact .failed hmsg .same (by decide)
  split
  · rename_i hopen
    exact .failed hmsg (openQueue_error hopen) (openQueue_status hopen)
  · rename_i q hopen
    obtain ⟨rfl, hq, hactive, hnames⟩ := openQueue_ok hopen
    split
    · exact .failed hmsg .same (by decide)
    rename_i hpid
    split
    · exact .failed hmsg .same (by decide)
    · rename_i r hfirst
      split
      · exact .failed hmsg .same (by decide)
      · have hsome : r.reqData.isSome = true := by simpa using find?_some hfirst
        obtain ⟨data, hdata⟩ := Option.isSome_iff_exists.mp hsome
        rw [hdata]
        exact .taken hq hbody hnames (isServer_of_active hactive hpid) hfirst hdata

theorem putRplHandler_effect {reqId dataLen : Nat} {data : List UInt8}
    (hbody : msg.body = .putRpl length queueName reqId dataLen data) (s : Server) :
    Effect towlower msg s
      (putRplHandler towlower msg.idProcess msg.env length queueName reqId dataLen data s).1
      (putRplHandler towlower msg.idProcess msg.env length queueName reqId dataLen data s).2 := by
  have hmsg : msg.body ≠ .notification := by rw [hbody]; nofun
  rw [putRplHandler]
  split
  · exact .failed hmsg .same (by decide)
  rename_i hlength
  split
  · exact .failed hmsg .same (by decide)
  rename_i hdataLen
  split
  · exact .failed hmsg .same (by decide)
  rename_i hfits
  have hvalid : msg.body.Valid := by
    rw [not_or] at hdataLen
    rw [hbody]
    exact ⟨Nat.not_lt.mp hlength, hdataLen.1, Nat.not_lt.mp hdataLen.2, Nat.not_lt.mp hfits⟩
  split
  · rename_i hopen
    exact .failed hmsg (openQueue_error hopen) (openQueue_status hopen)
  rename_i q hopen
  obtain ⟨rfl, hq, hactive, hnames⟩ := openQueue_ok hopen
  split
  · exact .failed hmsg .same (by decide)
  rename_i hpid
  have hserver := isServer_of_active hactive hpid
  split
  · exact .failed hmsg .same (by decide)
  rename_i r hfind
  have hr := mem_of_find?_eq_some hfind
  have hid : r.requestId = reqId := by simpa using find?_some hfind
  rw [← hid] at hbody
  split
  · exact .refused hq hbody hvalid hnames hserver hr (by decide)
  · rename_i htaken
    split
    · exact .refused hq hbody hvalid hnames hserver hr (by decide)
    · exact .replied hq hbody hvalid hnames hserver hr (by simpa using htaken)

theorem putReqHandler_effect {dataLen : Nat}
    {data : List UInt8} (hbody : msg.body = .putReq length queueName dataLen data) (s : Server) :
    Effect towlower msg s
      (putReqHandler towlower msg.idProcess msg.env length queueName dataLen data s).1
      (putReqHandler towlower msg.idProcess msg.env length queueName dataLen data s).2 := by
  have hmsg : msg.body ≠ .notification := by rw [hbody]; nofun
  rw [putReqHandler]
  split
  · exact .failed hmsg .same (by decide)
  rename_i hlength
  split
  · exact .failed hmsg .same (by decide)
  rename_i hdataLen
  split
  · exact .failed hmsg .same (by decide)
  rename_i hfits
  have hvalid : msg.body.Valid := by
    rw [not_or] at hdataLen
    rw [hbody]
    exact ⟨Nat.not_lt.mp hlength, hdataLen.1, Nat.not_lt.mp hdataLen.2, Nat.not_lt.mp hfits⟩
  split
  · rename_i hopen
    exact .failed hmsg (openQueue_error hopen) (openQueue_status hopen)
  rename_i q hopen
  obtain ⟨rfl, hq, _, hnames⟩ := openQueue_ok hopen
  split
  · rename_i hevent
    exact .failed hmsg .same (ne_success_of_not_ntSuccess hevent)
  split
  · exact .failed hmsg .same (by decide)
  · split
    · exact .failed hmsg .same (by decide)
    · dsimp only
      split
      · exact .numbered hq hbody hvalid hnames
      · exact .put hq hbody hvalid hnames

theorem getRplHandler_effect {reqId : Nat}
    (hbody : msg.body = .getRpl length queueName reqId) (s : Server) :
    Effect towlower msg s (getRplHandler towlower msg.idProcess msg.env length queueName reqId s).1
      (getRplHandler towlower msg.idProcess msg.env length queueName reqId s).2 := by
  have hmsg : msg.body ≠ .notification := by rw [hbody]; nofun
  rw [getRplHandler]
  split
  · exact .failed hmsg .same (by decide)
  split
  · rename_i hopen
    exact .failed hmsg (openQueue_error hopen) (openQueue_status hopen)
  · rename_i q hopen
    obtain ⟨rfl, hq, _, hnames⟩ := openQueue_ok hopen
    split
    · exact .failed hmsg .same (by decide)
    rename_i r hfind
    have hr := mem_of_find?_eq_some hfind
    have hid : r.requestId = reqId := by simpa using find?_some hfind
    rw [← hid] at hbody
    split
    · exact .failed hmsg .same (by decide)
    rename_i hclient
    rw [ne_eq, not_not] at hclient
    split
    · exact .early hq hbody hclient hr
    · rename_i data hdata
      split
      · exact .failed hmsg .same (by decide)
      · exact .delivered hq hbody hnames hclient hr hdata

theorem handler_effect (msg : Message) (s : Server) :
    Effect towlower msg s (handler towlower msg s).1 (handler towlower msg s).2 := by
  rw [handler]
  split
  · rename_i hbody
    exact startupHandler_effect hbody s
  · rename_i hbody
    exact createHandler_effect hbody s
  · rename_i hbody
    exact getReqHandler_effect hbody s
  · rename_i hbody
    exact putRplHandler_effect hbody s
  · rename_i hbody
    exact putReqHandler_effect hbody s
  · rename_i hbody
    exact getRplHandler_effect hbody s
  · rename_i hbody
    exact .gone hbody

end Effects

end Sandboxie.QueueServer
