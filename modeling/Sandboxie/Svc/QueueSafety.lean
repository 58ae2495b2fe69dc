import Sandboxie.Svc.QueueFate
import Sandboxie.Svc.QueueIds

/-!
# The queue server between processes

`history_after`: every queue, request and reply in the server was made by a message of the
run, of the process that the server says.  With the fate of requests and their order this is
`queue_safety`.

A request is not always handed: a client that asks for the reply before there is one takes
its request back, and so does a server that replies to a request that it has not taken.
-/

namespace Sandboxie.QueueServer

open List

/-- A message of the run made the queue, and its process has not gone since. -/
def CreatedBy (towlower : WChar → WChar) (msgs : List Message) (q : QueueObj) : Prop :=
  ∃ a msg b q0, msgs = a ++ msg :: b ∧ q = { q0 with requests := q.requests } ∧
    Created msg (after towlower a) (step towlower msg (after towlower a)).2 q0 ∧
    ∀ m ∈ b, m.body = .notification → m.idProcess ≠ q.serverPid

/-- A message of the run put the request on the queue, and its process has not gone since. -/
def PutBy (towlower : WChar → WChar) (msgs : List Message) (q : QueueObj) (r : RequestObj) :
    Prop :=
  ∃ a msg b q0 r0, msgs = a ++ msg :: b ∧ q = { q0 with requests := q.requests } ∧
    r = { r0 with reqData := r.reqData, rplData := r.rplData } ∧
    (r.reqData = none ∨ r.reqData = r0.reqData) ∧
    Put towlower msg (after towlower a) (step towlower msg (after towlower a)).2 q0 r0 ∧
    ∀ m ∈ b, m.body = .notification → m.idProcess ≠ r.clientPid

/-- A message of the run put the data as the reply to the request of the queue. -/
def RepliedBy (towlower : WChar → WChar) (msgs : List Message) (q : QueueObj) (r : RequestObj)
    (data : List UInt8) : Prop :=
  ∃ a msg b q0 r0, msgs = a ++ msg :: b ∧ q = { q0 with requests := q.requests } ∧
    r = { r0 with reqData := r.reqData, rplData := r.rplData } ∧
    Replied towlower msg (after towlower a) (step towlower msg (after towlower a)).2 q0 r0 data

/-- Everything in the server was made by messages of the run. -/
def History (towlower : WChar → WChar) (msgs : List Message) : Prop :=
  ∀ q ∈ (after towlower msgs).queues, CreatedBy towlower msgs q ∧ ∀ r ∈ q.requests,
    PutBy towlower msgs q r ∧ ∀ d, r.rplData = some d → RepliedBy towlower msgs q r d

section Safety

variable {towlower : WChar → WChar}

/-! ### History -/

variable {msg : Message}

variable {msgs : List Message} {q q' : QueueObj}

theorem CreatedBy.later (h : CreatedBy towlower msgs q)
    (heq : q' = { q with requests := q'.requests })
    (hstay : msg.body = .notification → q.serverPid ≠ msg.idProcess) :
    CreatedBy towlower (msgs ++ [msg]) q' := by
  obtain ⟨a, m, b, q0, rfl, heq0, hcreated, hb⟩ := h
  have hpid : q'.serverPid = q.serverPid := by rw [heq]
  refine ⟨a, m, b ++ [msg], q0, by simp, heq.trans ?_, hcreated, fun x hx hbody => ?_⟩
  · rw [heq0]
  · rw [hpid]
    rcases mem_append.mp hx with hx | hx
    · exact hb x hx hbody
    · obtain rfl := mem_singleton.mp hx
      exact (hstay hbody).symm

theorem PutBy.later {r r' : RequestObj}
    (h : PutBy towlower msgs q r) (heq : q' = { q with requests := q'.requests })
    (hr : r' = { r with reqData := r'.reqData, rplData := r'.rplData })
    (hdata : r'.reqData = none ∨ r'.reqData = r.reqData)
    (hstay : msg.body = .notification → r.clientPid ≠ msg.idProcess) :
    PutBy towlower (msgs ++ [msg]) q' r' := by
  obtain ⟨a, m, b, q0, r0, rfl, heq0, hr0, hdata0, hput, hb⟩ := h
  have hpid : r'.clientPid = r.clientPid := by rw [hr]
  refine ⟨a, m, b ++ [msg], q0, r0, by simp, heq.trans ?_, hr.trans ?_, ?_, hput,
    fun x hx hbody => ?_⟩
  · rw [heq0]
  · rw [hr0]
  · rcases hdata with hnone | hsame
    · exact .inl hnone
    · rw [hsame]
      exact hdata0
  · rw [hpid]
    rcases mem_append.mp hx with hx | hx
    · exact hb x hx hbody
    · obtain rfl := mem_singleton.mp hx
      exact (hstay hbody).symm

theorem RepliedBy.later {r r' : RequestObj} {d : List UInt8} (h : RepliedBy towlower msgs q r d)
    (heq : q' = { q with requests := q'.requests })
    (hr : r' = { r with reqData := r'.reqData, rplData := r'.rplData }) :
    RepliedBy towlower (msgs ++ [msg]) q' r' d := by
  obtain ⟨a, m, b, q0, r0, rfl, heq0, hr0, hreplied⟩ := h
  refine ⟨a, m, b ++ [msg], q0, r0, by simp, heq.trans ?_, hr.trans ?_, hreplied⟩
  · rw [heq0]
  · rw [hr0]

theorem history_after (msgs : List Message) : History towlower msgs := by
  induction msgs using List.reverseRecOn with
  | nil =>
    intro q hq
    cases hq
  | append_singleton msgs msg ih =>
    intro q' hq'
    rw [after_concat] at hq'
    have hq' : q' ∈ (handler towlower msg (after towlower msgs)).1.queues := hq'
    rcases effect_queue (tagged_after msgs).1 (handler_effect msg _) hq' with
      hcreated | ⟨q, hq, heq, hserver, hfrom⟩
    · refine ⟨⟨msgs, msg, [], q', rfl, rfl, hcreated, nofun⟩, fun r hr => ?_⟩
      rw [hcreated.requests] at hr
      cases hr
    obtain ⟨hby, hrequests⟩ := ih q hq
    refine ⟨hby.later heq hserver, fun r' hr' => ?_⟩
    rcases hfrom r' hr' with ⟨r, hr, hmoved, hclient⟩ | hput
    · obtain ⟨hputBy, hrepliedBy⟩ := hrequests r hr
      refine ⟨hputBy.later heq hmoved.ident ?_ hclient, fun d hd => ?_⟩
      · cases hmoved with
        | same => exact .inr rfl
        | taken _ => exact .inl rfl
        | replied _ => exact .inr rfl
      · have hident := hmoved.ident
        cases hmoved with
        | same => exact (hrepliedBy d hd).later heq hident
        | taken _ => exact (hrepliedBy d hd).later heq hident
        | replied hreplied =>
          cases hd
          exact ⟨msgs, msg, [], q, r, rfl, heq, rfl, hreplied⟩
    · refine ⟨⟨msgs, msg, [], q, r', rfl, heq, rfl, .inr rfl, hput, nofun⟩, fun d hd => ?_⟩
      rw [hput.rplData] at hd
      cases hd

/-! ### Replies -/

variable {s : Server}

theorem getReq_handed {clientPid clientTid reqId : Nat}
    {data : List UInt8} (h : (step towlower msg s).2 = .getReq clientPid clientTid reqId data) :
    ∃ q r, Handed towlower msg s (step towlower msg s).2 q r ∧ r.clientPid = clientPid ∧
      r.clientTid = clientTid ∧ r.requestId = reqId ∧ r.reqData = some data := by
  have heffect := @handler_effect towlower msg s
  have hreply : (handler towlower msg s).2 = .getReq clientPid clientTid reqId data := h
  rw [h]
  rw [hreply] at heffect
  generalize (handler towlower msg s).1 = s' at heffect
  cases heffect with
  | taken hq hbody hnames hserver hfirst hdata =>
    exact ⟨_, _, ⟨hq, ⟨_, _, hbody, hnames⟩, hserver, hfirst, _, hdata, rfl⟩, rfl, rfl, rfl, hdata⟩

theorem putRpl_replied {length reqId dataLen : Nat} {queueName : List WChar} {data : List UInt8}
    (hbody : msg.body = .putRpl length queueName reqId dataLen data)
    (h : (step towlower msg s).2 = .short statusSuccess) :
    ∃ q r, Replied towlower msg s (step towlower msg s).2 q r (data.take dataLen) ∧
      r.requestId = reqId := by
  have heffect := @handler_effect towlower msg s
  have hreply : (handler towlower msg s).2 = .short statusSuccess := h
  rw [h]
  rw [hreply] at heffect
  generalize (handler towlower msg s).1 = s' at heffect
  generalize hrep : Reply.short statusSuccess = reply at heffect
  cases heffect with
  | nothing _ hstatus _ =>
    obtain ⟨_, _, hstartup⟩ := hstatus (Reply.short.inj hrep).symm
    rw [hbody] at hstartup
    cases hstartup
  | created _ hbody' _ _ _ =>
    rw [hbody] at hbody'
    cases hbody'
  | refused _ _ _ _ _ _ hstatus => exact absurd (Reply.short.inj hrep).symm hstatus
  | replied hq hbody' hvalid hnames hserver hr htaken =>
    rw [hbody] at hbody'
    obtain ⟨rfl, rfl, rfl, rfl, rfl⟩ := Body.putRpl.inj hbody'
    exact ⟨_, _, ⟨hq, hr, ⟨_, _, _, _, hbody, rfl, hnames⟩, hvalid, hserver, htaken, rfl⟩, rfl⟩
  | numbered _ hbody' _ _ =>
    rw [hbody] at hbody'
    cases hbody'
  | early _ hbody' _ _ =>
    rw [hbody] at hbody'
    cases hbody'
  | _ => cases hrep

theorem getRpl_delivered {data : List UInt8} (h : (step towlower msg s).2 = .getRpl data) :
    ∃ q ∈ s.queues, ∃ r ∈ q.requests, r.clientPid = msg.idProcess ∧ r.rplData = some data ∧
      ∃ length queueName, msg.body = .getRpl length queueName r.requestId ∧
        Names towlower msg.env queueName q := by
  have heffect := @handler_effect towlower msg s
  have hreply : (handler towlower msg s).2 = .getRpl data := h
  rw [hreply] at heffect
  generalize (handler towlower msg s).1 = s' at heffect
  cases heffect with
  | delivered hq hbody hnames hclient hr hdata =>
    exact ⟨_, hq, _, hr, hclient, hdata, _, _, hbody, hnames⟩

theorem putReq_put {id : Nat} (h : (step towlower msg s).2 = .putReq id) :
    ∃ q r, Put towlower msg s (step towlower msg s).2 q r ∧ r.requestId = id ∧
      { q with requests := q.requests ++ [r] } ∈ (step towlower msg s).1.queues := by
  have heffect := @handler_effect towlower msg s
  have hreply : (handler towlower msg s).2 = .putReq id := h
  rw [h]
  show ∃ q r, _ ∧ _ ∧ _ ∈ (handler towlower msg s).1.queues
  rw [hreply] at heffect
  generalize (handler towlower msg s).1 = s' at heffect
  cases heffect with
  | @put q _ dataLen queueName data hq hbody hvalid hnames =>
    refine ⟨q, ⟨s.handled, msg.idProcess, msg.env.threadId, (s.requestId + 1) % 2 ^ 32,
      some (data.take dataLen), none⟩, ⟨hq, ⟨_, _, _, _, hbody, rfl, hnames⟩, hvalid, rfl, rfl,
      rfl, rfl, rfl, rfl⟩, rfl, ?_⟩
    refine mem_map.mpr ⟨q, hq, ?_⟩
    rw [if_pos rfl]

/-! ### Requests that are asked for -/

theorem openQueue_of_names {env : Env} {queueName : List WChar} (h : Tagged s)
    (hnamed : Named towlower s) (hopen : NtSuccess env.openStatus)
    (hq : q ∈ s.queues) (hnames : Names towlower env queueName q)
    (hactive : serverIsActive env q = true) :
    openQueue towlower env queueName s = (s, .ok q) := by
  obtain ⟨name, status, hname, hsame⟩ := hnames
  obtain ⟨q0, hfind, hq0, hsame0⟩ := find_name hq hsame
  obtain rfl := hnamed.unique h hq hq0 ⟨name, status, hname, hsame⟩ ⟨name, status, hname, hsame0⟩
  rw [openQueue, if_neg (not_not.mpr hopen), hname]
  dsimp only
  rw [findQueueObj, hfind]
  dsimp only
  rw [if_pos hactive]

/-- What the server process of a queue needs to get a request: its message is well formed
and names the queue, it is active and can be opened, and there is memory. -/
structure Asks (towlower : WChar → WChar) (msg : Message) (q : QueueObj) : Prop where
  body : ∃ length queueName, msg.body = .getReq length queueName ∧
    sizeofQueueGetreqReq ≤ length ∧ Names towlower msg.env queueName q
  server : IsServer msg q
  active : msg.env.active msg.idProcess = true
  opened : NtSuccess msg.env.openStatus
  memory : msg.env.replyMemory = true

theorem asks_handed {r : RequestObj} (h : Tagged s)
    (hnamed : Named towlower s) (hq : q ∈ s.queues) (hasks : Asks towlower msg q)
    (hfirst : q.requests.find? (fun r => r.reqData.isSome) = some r) :
    Handed towlower msg s (step towlower msg s).2 q r := by
  obtain ⟨length, queueName, hbody, hlength, hnames⟩ := hasks.body
  obtain ⟨hpid, htime⟩ := hasks.server
  have hsome : r.reqData.isSome = true := by simpa using find?_some hfirst
  obtain ⟨data, hdata⟩ := Option.isSome_iff_exists.mp hsome
  have hactive : serverIsActive msg.env q = true := by
    rw [serverIsActive, ← hpid, hasks.active, htime]
    simp
  refine ⟨hq, ⟨length, queueName, hbody, hnames⟩, hasks.server, hfirst, data, hdata, ?_⟩
  show (handler towlower msg s).2 = _
  rw [handler, hbody]
  dsimp only
  rw [getReqHandler, if_neg (Nat.not_lt.mpr hlength),
    openQueue_of_names h hnamed hasks.opened hq hnames hactive]
  dsimp only
  rw [if_neg (not_not.mpr hpid.symm), hfirst]
  dsimp only
  rw [if_neg (by rw [hasks.memory]; decide), hdata]
  rfl

/-! ### Names with an asterisk -/

theorem created_star {reply : Reply} (h : Created msg s reply q) :
    (∀ length queueName, msg.body = .create length queueName →
      queueName.head? = some Pattern.star → msg.env.boxed = false) ∧
    (q.queueName.head? = some Pattern.star → msg.env.boxed = false ∨
      ∃ path, msg.env.ipcPath = some path ∧ path.head? = some Pattern.star) := by
  obtain ⟨length, queueName, hbody, hname⟩ := h.body
  unfold makeQueueName at hname
  dsimp only at hname
  split at hname
  · split at hname
    · cases hname
    · obtain ⟨_, hstatus⟩ := Prod.mk.inj hname
      have hboxed : msg.env.boxed = false := by
        cases hb : msg.env.boxed with
        | false => rfl
        | true =>
          rw [hb] at hstatus
          cases hstatus
      exact ⟨fun _ _ _ _ => hboxed, fun _ => .inl hboxed⟩
  · rename_i hstar
    split at hname
    · cases hname
    split at hname
    · cases hname
    · rename_i path hpath
      split at hname
      · cases hname
      obtain ⟨hq, _⟩ := Prod.mk.inj hname
      refine ⟨fun length' queueName' hbody' hhead => ?_, fun hhead => ?_⟩
      · rw [hbody] at hbody'
        obtain ⟨_, rfl⟩ := Body.create.inj hbody'
        refine absurd ?_ hstar
        cases queueName with
        | nil => cases hhead
        | cons c cs =>
          cases hhead
          rfl
      · refine .inr ⟨path, hpath, ?_⟩
        rw [← Option.some.inj hq] at hhead
        cases path with
        | nil => cases hhead
        | cons c cs => exact hhead

theorem create_created {length : Nat} {queueName : List WChar}
    (hbody : msg.body = .create length queueName)
    (h : (step towlower msg s).2 = .short statusSuccess) :
    ∃ q, Created msg s (step towlower msg s).2 q := by
  have heffect := @handler_effect towlower msg s
  have hreply : (handler towlower msg s).2 = .short statusSuccess := h
  rw [h]
  rw [hreply] at heffect
  generalize (handler towlower msg s).1 = s' at heffect
  generalize hrep : Reply.short statusSuccess = reply at heffect
  cases heffect with
  | nothing _ hstatus _ =>
    obtain ⟨_, _, hstartup⟩ := hstatus (Reply.short.inj hrep).symm
    rw [hbody] at hstartup
    cases hstartup
  | @created _ _ time _ name hfound hbody' hname _ htime =>
    exact ⟨⟨s.handled, time, msg.idProcess, [], name⟩, ⟨_, _, hbody', hname⟩, rfl, rfl, htime,
      rfl, rfl⟩
  | refused _ _ _ _ _ _ hstatus => exact absurd (Reply.short.inj hrep).symm hstatus
  | replied _ hbody' _ _ _ _ _ =>
    rw [hbody] at hbody'
    cases hbody'
  | numbered _ hbody' _ _ =>
    rw [hbody] at hbody'
    cases hbody'
  | early _ hbody' _ _ =>
    rw [hbody] at hbody'
    cases hbody'
  | _ => cases hrep

/-! ### Safety -/

/-- **No two queues have one name**, after every sequence of messages. -/
theorem names_distinct (msgs : List Message) :
    ((after towlower msgs).queues.map fun q => q.queueName.map towlower).Nodup := by
  have htags := (@tagged_after towlower msgs).1.queueTags
  refine htags.of_map.map_on fun q hq q' hq' h => ?_
  exact inj_on_of_nodup_map htags hq hq' (named_after msgs q hq q' hq' h)

/-- What the queue server does for the processes, after any messages: a request that is put
waits at the end of its queue; it is handed once, in its turn, when the process that created
the queue asks, unless it goes away before for a reason; only that process gets requests of
the queue and puts replies; a reply goes to the process that put the request and is one that
was put for it; and no sandboxed process creates a queue with an asterisk. -/
structure Safe (towlower : WChar → WChar) (msgs : List Message) : Prop where
  put : ∀ msg id, (step towlower msg (after towlower msgs)).2 = .putReq id →
    ∃ q r, Put towlower msg (after towlower msgs) (step towlower msg (after towlower msgs)).2 q r ∧
      r.requestId = id ∧
      { q with requests := q.requests ++ [r] } ∈ (after towlower (msgs ++ [msg])).queues
  fate : ∀ more, ∀ q ∈ (after towlower msgs).queues, ∀ r ∈ q.requests, ∀ data,
    r.reqData = some data → Fate towlower msgs more q r
  served : ∀ msg, ∀ q ∈ (after towlower msgs).queues, ∀ r, Asks towlower msg q →
    q.requests.find? (fun r => r.reqData.isSome) = some r →
      Handed towlower msg (after towlower msgs) (step towlower msg (after towlower msgs)).2 q r
  order : ∀ msg q r more msg' q' r',
    Handed towlower msg (after towlower msgs) (step towlower msg (after towlower msgs)).2 q r →
    Handed towlower msg' (after towlower (msgs ++ msg :: more))
      (step towlower msg' (after towlower (msgs ++ msg :: more))).2 q' r' →
    q'.tag = q.tag → r.tag < r'.tag
  handed : ∀ msg clientPid clientTid reqId data,
    (step towlower msg (after towlower msgs)).2 = .getReq clientPid clientTid reqId data →
    ∃ q r, Handed towlower msg (after towlower msgs)
        (step towlower msg (after towlower msgs)).2 q r ∧
      r.clientPid = clientPid ∧ r.clientTid = clientTid ∧ r.requestId = reqId ∧
      r.reqData = some data ∧ CreatedBy towlower msgs q ∧ PutBy towlower msgs q r
  replied : ∀ msg length queueName reqId dataLen data,
    msg.body = .putRpl length queueName reqId dataLen data →
    (step towlower msg (after towlower msgs)).2 = .short statusSuccess →
    ∃ q r, Replied towlower msg (after towlower msgs)
        (step towlower msg (after towlower msgs)).2 q r (data.take dataLen) ∧
      r.requestId = reqId ∧ CreatedBy towlower msgs q
  delivered : ∀ msg data, (step towlower msg (after towlower msgs)).2 = .getRpl data →
    ∃ q ∈ (after towlower msgs).queues, ∃ r ∈ q.requests, r.clientPid = msg.idProcess ∧
      (∃ length queueName, msg.body = .getRpl length queueName r.requestId ∧
        Names towlower msg.env queueName q) ∧
      PutBy towlower msgs q r ∧ RepliedBy towlower msgs q r data
  star : ∀ msg length queueName, msg.body = .create length queueName →
    queueName.head? = some Pattern.star →
    (step towlower msg (after towlower msgs)).2 = .short statusSuccess → msg.env.boxed = false
  starQueue : ∀ q ∈ (after towlower msgs).queues, q.queueName.head? = some Pattern.star →
    ∃ a msg b q0, msgs = a ++ msg :: b ∧ q = { q0 with requests := q.requests } ∧
      Created msg (after towlower a) (step towlower msg (after towlower a)).2 q0 ∧
      (msg.env.boxed = false ∨
        ∃ path, msg.env.ipcPath = some path ∧ path.head? = some Pattern.star)

/-- **The queue server is safe**, after every sequence of messages. -/
theorem queue_safety (towlower : WChar → WChar) (msgs : List Message) : Safe towlower msgs := by
  have htagged := (@tagged_after towlower msgs).1
  have hnamed := @named_after towlower msgs
  have hhistory := @history_after towlower msgs
  refine ⟨?_, ?_, ?_, ?_, ?_, ?_, ?_, ?_, ?_⟩
  · intro msg id h
    rw [after_concat]
    exact putReq_put h
  · intro more q hq r hr data hdata
    exact fate_run more hq hr hdata
  · intro msg q hq r hasks hfirst
    exact asks_handed htagged hnamed hq hasks hfirst
  · intro msg q r more msg' q' r' h h' htag
    exact order_run h h' htag
  · intro msg clientPid clientTid reqId data h
    obtain ⟨q, r, hhanded, hpid, htid, hid, hdata⟩ := getReq_handed h
    obtain ⟨hcreated, hrequests⟩ := hhistory q hhanded.queue
    have hput := (hrequests r (mem_of_find?_eq_some hhanded.first)).1
    exact ⟨q, r, hhanded, hpid, htid, hid, hdata, hcreated, hput⟩
  · intro msg length queueName reqId dataLen data hbody h
    obtain ⟨q, r, hreplied, hid⟩ := putRpl_replied hbody h
    exact ⟨q, r, hreplied, hid, (hhistory q hreplied.queue).1⟩
  · intro msg data h
    obtain ⟨q, hq, r, hr, hclient, hdata, hbody⟩ := getRpl_delivered h
    obtain ⟨hput, hreplied⟩ := (hhistory q hq).2 r hr
    exact ⟨q, hq, r, hr, hclient, hbody, hput, hreplied data hdata⟩
  · intro msg length queueName hbody hhead h
    obtain ⟨q, hcreated⟩ := create_created hbody h
    exact (created_star hcreated).1 length queueName hbody hhead
  · intro q hq hhead
    obtain ⟨a, msg, b, q0, hsplit, heq, hcreated, _⟩ := (hhistory q hq).1
    rw [heq] at hhead
    exact ⟨a, msg, b, q0, hsplit, heq, hcreated, (created_star hcreated).2 hhead⟩

end Safety

def askQ : Message := ⟨2, plainEnv, .getRpl 140 [42, 81] 2⟩

/-- A request is lost although its queue and its client are there: its client asks for the
reply before the server has taken it. -/
theorem asked_early : ¬ ∀ (msgs more : List Message) (q : QueueObj) (r : RequestObj)
    (data : List UInt8), q ∈ (after Text.asciiLower msgs).queues → r ∈ q.requests →
    r.reqData = some data →
    Waits (after Text.asciiLower (msgs ++ more)) q r ∨
    (∃ a msg b q', more = a ++ msg :: b ∧ Handed Text.asciiLower msg
      (after Text.asciiLower (msgs ++ a)) (step Text.asciiLower msg
        (after Text.asciiLower (msgs ++ a))).2 q' r) ∨
    ∃ a msg b, more = a ++ msg :: b ∧
      (msg.body = .notification ∨ serverIsActive msg.env q = false) := by
  intro h
  -- the only message that follows asks for the reply
  have honly : ∀ {a b : List Message} {msg : Message}, [askQ] = a ++ msg :: b → msg = askQ := by
    intro a b msg hsplit
    have hmem : msg ∈ [askQ] := by
      rw [hsplit]
      exact mem_append_right _ mem_cons_self
    exact mem_singleton.mp hmem
  rcases h [createQ, putQ] [askQ]
    ⟨0, 0, 1, [⟨1, 2, 0, 2, some [7], none⟩], [42, 92, 42, 81]⟩ ⟨1, 2, 0, 2, some [7], none⟩ [7]
    (by decide) (by decide) rfl with ⟨q, hq, _, hr⟩ | ⟨a, msg, b, q, hsplit, hhanded⟩ |
      ⟨a, msg, b, hsplit, hgone⟩
  · have hqueues : (after Text.asciiLower ([createQ, putQ] ++ [askQ])).queues =
        [⟨0, 0, 1, [], [42, 92, 42, 81]⟩] := by decide
    obtain rfl := mem_singleton.mp hq
    cases hr
  · obtain ⟨_, _, hbody, _⟩ := hhanded.body
    rw [honly hsplit] at hbody
    cases hbody
  · rw [honly hsplit] at hgone
    rcases hgone with hbody | hgone
    · cases hbody
    · exact absurd hgone (by decide)

end Sandboxie.QueueServer
