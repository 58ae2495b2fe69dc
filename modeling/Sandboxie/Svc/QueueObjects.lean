import Mathlib.Data.List.Induction
import Mathlib.Data.List.Nodup
import Sandboxie.Svc.QueueEffect

/-!
# The objects of the queue server

`Tagged` is what every server satisfies: its objects are different, and the requests of a
queue are in the order in which they were put.  `effect_queue` says where the queues and the
requests after a message come from.
-/

namespace Sandboxie.QueueServer

open List

/-! ### The objects of a server -/

def requestsOf (s : Server) : List RequestObj := s.queues.flatMap QueueObj.requests

/-- The objects have different addresses, all given out before, and each queue has its
requests in the order in which they were put. -/
structure Tagged (s : Server) : Prop where
  queueTags : (s.queues.map QueueObj.tag).Nodup
  queueTag_lt : ∀ t ∈ s.queues.map QueueObj.tag, t < s.handled
  requestTags : ((requestsOf s).map RequestObj.tag).Nodup
  requestTag_lt : ∀ t ∈ (requestsOf s).map RequestObj.tag, t < s.handled
  sorted : ∀ q ∈ s.queues, (q.requests.map RequestObj.tag).Pairwise (· < ·)

variable {s : Server} {q : QueueObj}

theorem mem_requestsOf {r : RequestObj} (hq : q ∈ s.queues)
    (hr : r ∈ q.requests) : r ∈ requestsOf s := mem_flatMap.mpr ⟨q, hq, hr⟩

theorem tagged_init : Tagged init := by
  refine ⟨nodup_nil, ?_, nodup_nil, ?_, ?_⟩ <;> intro x hx <;> cases hx

theorem flatMap_sublist {p : QueueObj → Bool} {g : QueueObj → QueueObj}
    (hg : ∀ q, (g q).requests.Sublist q.requests) : ∀ l : List QueueObj,
      (((l.filter p).map g).flatMap QueueObj.requests).Sublist (l.flatMap QueueObj.requests)
  | [] => .slnil
  | q :: l => by
    have ih := flatMap_sublist hg l (p := p)
    rw [flatMap_cons, filter_cons]
    split
    · rw [map_cons, flatMap_cons]
      exact (hg q).append ih
    · exact ih.trans (sublist_append_right _ _)

theorem Tagged.leave {s : Server} (h : Tagged s) (p : QueueObj → Bool) {g : QueueObj → QueueObj}
    (htag : ∀ q, (g q).tag = q.tag) (hg : ∀ q, (g q).requests.Sublist q.requests) :
    Tagged { s with queues := (s.queues.filter p).map g } := by
  have hqueues : (((s.queues.filter p).map g).map QueueObj.tag).Sublist
      (s.queues.map QueueObj.tag) := by
    rw [map_map]
    refine (map_congr_left fun q _ => htag q).symm ▸ ?_
    exact filter_sublist.map _
  have hrequests : (requestsOf { s with queues := (s.queues.filter p).map g }).Sublist
      (requestsOf s) := flatMap_sublist hg s.queues
  refine ⟨h.queueTags.sublist hqueues, ?_, h.requestTags.sublist (hrequests.map _), ?_, ?_⟩
  · exact fun t ht => h.queueTag_lt t (hqueues.subset ht)
  · exact fun t ht => h.requestTag_lt t ((hrequests.map _).subset ht)
  · intro q' hq'
    obtain ⟨q, hq, rfl⟩ := mem_map.mp hq'
    exact (h.sorted q (mem_filter.mp hq).1).sublist ((hg q).map _)

theorem Tagged.found {env : Env} {s s' : Server} (h : Tagged s) (hfound : Found env s s') :
    Tagged s' ∧ s'.handled = s.handled := by
  cases hfound with
  | same => exact ⟨h, rfl⟩
  | @deleted q _ _ =>
    refine ⟨?_, rfl⟩
    have hleave := h.leave (fun x => x.tag ≠ q.tag) (g := id) (fun _ => rfl) fun _ => .refl _
    rw [map_id] at hleave
    exact hleave

theorem Tagged.count (h : Tagged s) : Tagged { s with handled := s.handled + 1 } :=
  ⟨h.queueTags, fun t ht => Nat.lt_succ_of_lt (h.queueTag_lt t ht), h.requestTags,
    fun t ht => Nat.lt_succ_of_lt (h.requestTag_lt t ht), h.sorted⟩

theorem setRequests_split (htags : (s.queues.map QueueObj.tag).Nodup)
    (hq : q ∈ s.queues) (f : List RequestObj → List RequestObj) :
    ∃ xs ys, s.queues = xs ++ q :: ys ∧
      (setRequests q.tag f s).queues = xs ++ { q with requests := f q.requests } :: ys := by
  obtain ⟨xs, ys, hsplit⟩ := append_of_mem hq
  refine ⟨xs, ys, hsplit, ?_⟩
  rw [hsplit, map_append, map_cons, nodup_append] at htags
  obtain ⟨_, hys, hne⟩ := htags
  have hother : ∀ zs : List QueueObj, (∀ x ∈ zs, x.tag ≠ q.tag) →
      zs.map (fun x => if x.tag = q.tag then { x with requests := f x.requests } else x) = zs := by
    intro zs hzs
    refine (map_congr_left fun x hx => ?_).trans (map_id zs)
    rw [if_neg (hzs x hx)]
    rfl
  have hxs : ∀ x ∈ xs, x.tag ≠ q.tag := fun x hx =>
    hne x.tag (mem_map_of_mem hx) q.tag mem_cons_self
  have hys : ∀ x ∈ ys, x.tag ≠ q.tag := by
    intro x hx heq
    refine (nodup_cons.mp hys).1 ?_
    rw [← heq]
    exact mem_map_of_mem hx
  show s.queues.map _ = _
  rw [hsplit, map_append, map_cons, hother xs hxs, hother ys hys, if_pos rfl]

theorem requestsOf_split (htags : (s.queues.map QueueObj.tag).Nodup)
    (hq : q ∈ s.queues) (f : List RequestObj → List RequestObj) :
    ∃ as bs, requestsOf s = as ++ q.requests ++ bs ∧
      requestsOf (setRequests q.tag f s) = as ++ f q.requests ++ bs := by
  obtain ⟨xs, ys, hsplit, hset⟩ := setRequests_split htags hq f
  refine ⟨xs.flatMap QueueObj.requests, ys.flatMap QueueObj.requests, ?_, ?_⟩
  · rw [requestsOf, hsplit]
    simp
  · rw [requestsOf, hset]
    simp

theorem mem_setRequests {k : Nat} {f : List RequestObj → List RequestObj}
    {q' : QueueObj} (h : q' ∈ (setRequests k f s).queues) :
    ∃ q ∈ s.queues, q' = { q with requests := q'.requests } ∧
      q'.requests = if q.tag = k then f q.requests else q.requests := by
  obtain ⟨q, hq, rfl⟩ := mem_map.mp h
  refine ⟨q, hq, ?_⟩
  split <;> exact ⟨rfl, rfl⟩

theorem tags_setRequests (k : Nat) (f : List RequestObj → List RequestObj) (s : Server) :
    (setRequests k f s).queues.map QueueObj.tag = s.queues.map QueueObj.tag := by
  rw [setRequests, map_map]
  refine map_congr_left fun q _ => ?_
  show (if q.tag = k then _ else q).tag = q.tag
  split <;> rfl

theorem Tagged.set (h : Tagged s) (hq : q ∈ s.queues) {f : List RequestObj → List RequestObj}
    (hf : ((f q.requests).map RequestObj.tag).Sublist (q.requests.map RequestObj.tag)) :
    Tagged (setRequests q.tag f s) := by
  obtain ⟨as, bs, hbefore, hafter⟩ := requestsOf_split h.queueTags hq f
  have hsub : ((requestsOf (setRequests q.tag f s)).map RequestObj.tag).Sublist
      ((requestsOf s).map RequestObj.tag) := by
    rw [hbefore, hafter]
    simp only [map_append]
    exact ((List.Sublist.refl _).append hf).append (.refl _)
  refine ⟨?_, ?_, h.requestTags.sublist hsub, fun t ht => h.requestTag_lt t (hsub.subset ht), ?_⟩
  · rw [tags_setRequests]
    exact h.queueTags
  · rw [tags_setRequests]
    exact h.queueTag_lt
  · obtain ⟨xs, ys, hsplit, hset⟩ := setRequests_split h.queueTags hq f
    intro q' hq'
    rw [hset, mem_append, mem_cons] at hq'
    rcases hq' with hq' | rfl | hq'
    · exact h.sorted q' (by rw [hsplit]; simp [hq'])
    · exact (h.sorted q hq).sublist hf
    · exact h.sorted q' (by rw [hsplit]; simp [hq'])

theorem Tagged.put {s : Server} (h : Tagged s) {q : QueueObj} (hq : q ∈ s.queues) {r : RequestObj}
    (hr : r.tag = s.handled) :
    Tagged { setRequests q.tag (fun requests => requests ++ [r]) s with
      handled := s.handled + 1 } := by
  obtain ⟨as, bs, hbefore, hafter⟩ := requestsOf_split h.queueTags hq
    fun requests => requests ++ [r]
  have hperm : ((requestsOf (setRequests q.tag (fun requests => requests ++ [r]) s)).map
      RequestObj.tag).Perm (r.tag :: (requestsOf s).map RequestObj.tag) := by
    rw [hbefore, hafter, ← map_cons]
    refine List.Perm.map _ ?_
    simp only [append_assoc, singleton_append]
    rw [← append_assoc, ← append_assoc]
    exact perm_middle
  have hlt : ∀ t ∈ (requestsOf (setRequests q.tag (fun requests => requests ++ [r]) s)).map
      RequestObj.tag, t < s.handled + 1 := by
    intro t ht
    rcases mem_cons.mp (hperm.mem_iff.mp ht) with rfl | ht
    · omega
    · have := h.requestTag_lt t ht
      omega
  refine ⟨?_, ?_, ?_, hlt, ?_⟩
  · rw [show (setRequests q.tag _ s).queues.map QueueObj.tag = _ from tags_setRequests _ _ s]
    exact h.queueTags
  · intro t ht
    have ht : t ∈ (setRequests q.tag (fun requests => requests ++ [r]) s).queues.map QueueObj.tag :=
      ht
    rw [tags_setRequests] at ht
    exact Nat.lt_succ_of_lt (h.queueTag_lt t ht)
  · refine hperm.nodup_iff.mpr (nodup_cons.mpr ⟨fun hmem => ?_, h.requestTags⟩)
    have := h.requestTag_lt _ hmem
    omega
  · obtain ⟨xs, ys, hsplit, hset⟩ := setRequests_split h.queueTags hq
      fun requests => requests ++ [r]
    intro q' hq'
    have hq' : q' ∈ (setRequests q.tag (fun requests => requests ++ [r]) s).queues := hq'
    rw [hset, mem_append, mem_cons] at hq'
    rcases hq' with hq' | rfl | hq'
    · exact h.sorted q' (by rw [hsplit]; simp [hq'])
    · show ((q.requests ++ [r]).map RequestObj.tag).Pairwise _
      rw [map_append, pairwise_append]
      refine ⟨h.sorted q hq, pairwise_singleton _ _, fun t ht t' ht' => ?_⟩
      obtain rfl := mem_singleton.mp ht'
      obtain ⟨x, hx, rfl⟩ := mem_map.mp ht
      have := h.requestTag_lt x.tag (mem_map_of_mem (mem_requestsOf hq hx))
      omega
    · exact h.sorted q' (by rw [hsplit]; simp [hq'])

theorem map_tag_setRequest {k : Nat} {f : RequestObj → RequestObj} (hf : ∀ r, (f r).tag = r.tag)
    (requests : List RequestObj) :
    (setRequest k f requests).map RequestObj.tag = requests.map RequestObj.tag := by
  rw [setRequest, map_map]
  refine map_congr_left fun r _ => ?_
  show (if r.tag = k then f r else r).tag = r.tag
  split
  · exact hf r
  · rfl

variable {towlower : WChar → WChar} {msg : Message} {reply : Reply}

theorem tagged_effect {s s' : Server} (h : Tagged s)
    (heffect : Effect towlower msg s s' reply) : Tagged { s' with handled := s.handled + 1 } := by
  cases heffect with
  | nothing hfound _ =>
    obtain ⟨hs', hhandled⟩ := h.found hfound
    rw [← hhandled]
    exact hs'.count
  | @created s1 _ time _ name hfound _ _ _ _ =>
    obtain ⟨hs1, hhandled⟩ := h.found hfound
    have hrequests : ∀ n, requestsOf { s1 with
        handled := n
        queues := s1.queues ++ [⟨s1.handled, time, msg.idProcess, [], name⟩] } = requestsOf s1 := by
      intro n
      rw [requestsOf, flatMap_append]
      simp [requestsOf]
    have htags : (s1.queues ++ [(⟨s1.handled, time, msg.idProcess, [], name⟩ : QueueObj)]).map
        QueueObj.tag = s1.queues.map QueueObj.tag ++ [s1.handled] := map_append
    rw [← hhandled]
    refine ⟨?_, ?_, ?_, ?_, ?_⟩
    · rw [htags]
      refine nodup_append.mpr ⟨hs1.queueTags, nodup_singleton _, fun t ht t' ht' => ?_⟩
      obtain rfl := mem_singleton.mp ht'
      exact Nat.ne_of_lt (hs1.queueTag_lt t ht)
    · intro t ht
      rw [htags] at ht
      rcases mem_append.mp ht with ht | ht
      · exact Nat.lt_succ_of_lt (hs1.queueTag_lt t ht)
      · obtain rfl := mem_singleton.mp ht
        exact Nat.lt_succ_self _
    · rw [hrequests]
      exact hs1.requestTags
    · rw [hrequests]
      exact fun t ht => Nat.lt_succ_of_lt (hs1.requestTag_lt t ht)
    · intro q' hq'
      rcases mem_append.mp hq' with hq' | hq'
      · exact hs1.sorted q' hq'
      · obtain rfl := mem_singleton.mp hq'
        exact List.Pairwise.nil
  | @taken q r _ _ _ hq _ _ _ _ _ =>
    have htags := @map_tag_setRequest r.tag (fun r => { r with reqData := none }) (fun _ => rfl)
      q.requests
    refine (h.set hq ?_).count
    rw [htags]
  | refused hq _ _ _ _ _ _ => exact (h.set hq (filter_sublist.map _)).count
  | @replied q r _ dataLen _ data hq _ _ _ _ _ _ =>
    have htags := @map_tag_setRequest r.tag
      (fun r => { r with rplData := some (data.take dataLen) }) (fun _ => rfl) q.requests
    refine (h.set hq ?_).count
    rw [htags]
  | numbered _ _ _ _ => exact ⟨h.count.1, h.count.2, h.count.3, h.count.4, h.count.5⟩
  | @put q _ dataLen _ data hq _ _ _ =>
    have hput := h.put hq (r := ⟨s.handled, msg.idProcess, msg.env.threadId,
      (s.requestId + 1) % 2 ^ 32, some (data.take dataLen), none⟩) rfl
    exact ⟨hput.1, hput.2, hput.3, hput.4, hput.5⟩
  | early hq _ _ _ => exact (h.set hq (filter_sublist.map _)).count
  | delivered hq _ _ _ _ _ => exact (h.set hq (filter_sublist.map _)).count
  | gone _ =>
    exact (h.leave (fun q => q.serverPid ≠ msg.idProcess)
      (g := fun q => { q with requests := q.requests.filter fun r => r.clientPid ≠ msg.idProcess })
      (fun _ => rfl) fun _ => filter_sublist).count

/-! ### Where the objects come from -/

/-- The message hands the request of the queue to its caller: the first request of the queue
that has not been handed yet. -/
structure Handed (towlower : WChar → WChar) (msg : Message) (s : Server) (reply : Reply)
    (q : QueueObj) (r : RequestObj) : Prop where
  queue : q ∈ s.queues
  body : ∃ length queueName, msg.body = .getReq length queueName ∧
    Names towlower msg.env queueName q
  server : IsServer msg q
  first : q.requests.find? (fun r => r.reqData.isSome) = some r
  reply : ∃ data, r.reqData = some data ∧
    reply = .getReq r.clientPid r.clientTid r.requestId data

/-- The message puts these data as the reply to the request of the queue, which was handed
before. -/
structure Replied (towlower : WChar → WChar) (msg : Message) (s : Server) (reply : Reply)
    (q : QueueObj) (r : RequestObj) (data : List UInt8) : Prop where
  queue : q ∈ s.queues
  request : r ∈ q.requests
  body : ∃ length queueName dataLen bytes,
    msg.body = .putRpl length queueName r.requestId dataLen bytes ∧
      data = bytes.take dataLen ∧ Names towlower msg.env queueName q
  valid : msg.body.Valid
  server : IsServer msg q
  handed : r.reqData = none
  reply : reply = .short statusSuccess

structure Put (towlower : WChar → WChar) (msg : Message) (s : Server) (reply : Reply)
    (q : QueueObj) (r : RequestObj) : Prop where
  queue : q ∈ s.queues
  body : ∃ length queueName dataLen bytes, msg.body = .putReq length queueName dataLen bytes ∧
    r.reqData = some (bytes.take dataLen) ∧ Names towlower msg.env queueName q
  valid : msg.body.Valid
  tag : r.tag = s.handled
  clientPid : r.clientPid = msg.idProcess
  clientTid : r.clientTid = msg.env.threadId
  requestId : r.requestId = (s.requestId + 1) % 2 ^ 32
  rplData : r.rplData = none
  reply : reply = .putReq r.requestId

/-- What a message can do to a request that it leaves in its queue. -/
inductive Moved (towlower : WChar → WChar) (msg : Message) (s : Server) (reply : Reply)
    (q : QueueObj) (r : RequestObj) : RequestObj → Prop
  | same : Moved towlower msg s reply q r r
  | taken (h : Handed towlower msg s reply q r) :
      Moved towlower msg s reply q r { r with reqData := none }
  | replied {data : List UInt8} (h : Replied towlower msg s reply q r data) :
      Moved towlower msg s reply q r { r with rplData := some data }

structure Created (msg : Message) (s : Server) (reply : Reply) (q : QueueObj) : Prop where
  body : ∃ length queueName, msg.body = .create length queueName ∧
    makeQueueName msg.env queueName = (some q.queueName, statusSuccess)
  tag : q.tag = s.handled
  serverPid : q.serverPid = msg.idProcess
  serverCreateTime : msg.env.createTime msg.idProcess = some q.serverCreateTime
  requests : q.requests = []
  reply : reply = .short statusSuccess

theorem Moved.ident {r r' : RequestObj} (h : Moved towlower msg s reply q r r') :
    r' = { r with reqData := r'.reqData, rplData := r'.rplData } := by
  cases h <;> rfl

def FromRequest (towlower : WChar → WChar) (msg : Message) (s : Server) (reply : Reply)
    (q : QueueObj) (r' : RequestObj) : Prop :=
  (∃ r ∈ q.requests, Moved towlower msg s reply q r r' ∧
    (msg.body = .notification → r.clientPid ≠ msg.idProcess)) ∨ Put towlower msg s reply q r'

/-- Where a queue after a message comes from. -/
def FromQueue (towlower : WChar → WChar) (msg : Message) (s : Server) (reply : Reply)
    (q' : QueueObj) : Prop :=
  Created msg s reply q' ∨ ∃ q ∈ s.queues, q' = { q with requests := q'.requests } ∧
    (msg.body = .notification → q.serverPid ≠ msg.idProcess) ∧
    ∀ r' ∈ q'.requests, FromRequest towlower msg s reply q r'

theorem fromQueue_keep {q q' : QueueObj}
    (hq : q ∈ s.queues) (heq : q' = { q with requests := q'.requests })
    (hsub : ∀ r ∈ q'.requests, r ∈ q.requests) (hbody : msg.body ≠ .notification) :
    FromQueue towlower msg s reply q' := by
  refine Or.inr ⟨q, hq, heq, fun h => absurd h hbody, fun r hr => ?_⟩
  exact Or.inl ⟨r, hsub r hr, .same, fun h => absurd h hbody⟩

theorem fromQueue_found {s s' : Server} {q' : QueueObj}
    (hfound : Found msg.env s s') (hbody : msg.body ≠ .notification) (hq' : q' ∈ s'.queues) :
    FromQueue towlower msg s reply q' := by
  cases hfound with
  | same => exact fromQueue_keep hq' rfl (fun _ hr => hr) hbody
  | deleted _ _ =>
    exact fromQueue_keep (mem_filter.mp hq').1 rfl (fun _ hr => hr) hbody

theorem fromQueue_set {msg : Message} {s : Server} {reply : Reply} {q q' : QueueObj}
    {f : List RequestObj → List RequestObj} (h : Tagged s) (hq : q ∈ s.queues)
    (hbody : msg.body ≠ .notification)
    (hf : ∀ r' ∈ f q.requests, FromRequest towlower msg s reply q r')
    (hq' : q' ∈ (setRequests q.tag f s).queues) : FromQueue towlower msg s reply q' := by
  obtain ⟨q0, hq0, heq, hrequests⟩ := mem_setRequests hq'
  split at hrequests
  · rename_i htag
    obtain rfl := inj_on_of_nodup_map h.queueTags hq0 hq htag
    refine Or.inr ⟨q0, hq0, heq, fun h => absurd h hbody, ?_⟩
    rw [hrequests]
    exact hf
  · exact fromQueue_keep hq0 heq (fun r hr => hrequests ▸ hr) hbody

theorem fromRequest_set
    {r : RequestObj} {f : RequestObj → RequestObj} (h : Tagged s) (hq : q ∈ s.queues)
    (hbody : msg.body ≠ .notification) (hr : r ∈ q.requests)
    (hf : Moved towlower msg s reply q r (f r)) :
    ∀ r' ∈ setRequest r.tag f q.requests, FromRequest towlower msg s reply q r' := by
  intro r' hr'
  obtain ⟨x, hx, rfl⟩ := mem_map.mp hr'
  refine Or.inl ⟨x, hx, ?_, fun h => absurd h hbody⟩
  split
  · rename_i htag
    obtain rfl := inj_on_of_nodup_map h.requestTags (mem_requestsOf hq hx)
      (mem_requestsOf hq hr) htag
    exact hf
  · exact .same

theorem fromRequest_same (hbody : msg.body ≠ .notification) {r : RequestObj} (hr : r ∈ q.requests) :
    FromRequest towlower msg s reply q r :=
  Or.inl ⟨r, hr, .same, fun h => absurd h hbody⟩

theorem fromRequest_delete (hbody : msg.body ≠ .notification) (k : Nat) :
    ∀ r' ∈ deleteRequestObj k q.requests, FromRequest towlower msg s reply q r' :=
  fun _ hr' => fromRequest_same hbody (mem_filter.mp hr').1

/-- **Where the queues and requests after a message come from.** -/
theorem effect_queue {s s' : Server} {q' : QueueObj}
    (h : Tagged s) (heffect : Effect towlower msg s s' reply) (hq' : q' ∈ s'.queues) :
    FromQueue towlower msg s reply q' := by
  cases heffect with
  | nothing hfound _ hbody => exact fromQueue_found hfound hbody hq'
  | created hfound hbody hname _ htime =>
    have hbody' : msg.body ≠ .notification := by rw [hbody]; nofun
    rcases mem_append.mp hq' with hq' | hq'
    · exact fromQueue_found hfound hbody' hq'
    · obtain rfl := mem_singleton.mp hq'
      exact Or.inl ⟨⟨_, _, hbody, hname⟩, (h.found hfound).2, rfl, htime, rfl, rfl⟩
  | taken hq hbody hnames hserver hfirst hdata =>
    have hbody' : msg.body ≠ .notification := by rw [hbody]; nofun
    refine fromQueue_set h hq hbody' (fromRequest_set h hq hbody' ?_ ?_) hq'
    · exact mem_of_find?_eq_some hfirst
    · exact .taken ⟨hq, ⟨_, _, hbody, hnames⟩, hserver, hfirst, _, hdata, rfl⟩
  | refused hq hbody _ _ _ _ _ =>
    have hbody' : msg.body ≠ .notification := by rw [hbody]; nofun
    exact fromQueue_set h hq hbody' (fromRequest_delete hbody' _) hq'
  | replied hq hbody hvalid hnames hserver hr htaken =>
    have hbody' : msg.body ≠ .notification := by rw [hbody]; nofun
    refine fromQueue_set h hq hbody' (fromRequest_set h hq hbody' hr ?_) hq'
    exact .replied ⟨hq, hr, ⟨_, _, _, _, hbody, rfl, hnames⟩, hvalid, hserver, htaken, rfl⟩
  | numbered _ hbody _ _ =>
    have hbody' : msg.body ≠ .notification := by rw [hbody]; nofun
    exact fromQueue_keep hq' rfl (fun _ hr => hr) hbody'
  | @put q _ _ _ _ hq hbody hvalid hnames =>
    have hbody' : msg.body ≠ .notification := by rw [hbody]; nofun
    have hset := @fromQueue_set towlower msg s (.putReq ((s.requestId + 1) % 2 ^ 32)) q q'
      (fun requests => requests ++ [_]) h hq hbody' ?_ hq'
    · exact hset
    · intro r' hr'
      rcases mem_append.mp hr' with hr' | hr'
      · exact fromRequest_same hbody' hr'
      · obtain rfl := mem_singleton.mp hr'
        exact Or.inr ⟨hq, ⟨_, _, _, _, hbody, rfl, hnames⟩, hvalid, rfl, rfl, rfl, rfl, rfl, rfl⟩
  | early hq hbody _ _ =>
    have hbody' : msg.body ≠ .notification := by rw [hbody]; nofun
    exact fromQueue_set h hq hbody' (fromRequest_delete hbody' _) hq'
  | delivered hq hbody _ _ _ _ =>
    have hbody' : msg.body ≠ .notification := by rw [hbody]; nofun
    exact fromQueue_set h hq hbody' (fromRequest_delete hbody' _) hq'
  | gone _ =>
    obtain ⟨q, hq, rfl⟩ := mem_map.mp hq'
    rw [mem_filter, decide_eq_true_eq] at hq
    refine Or.inr ⟨q, hq.1, rfl, fun _ => hq.2, fun r' hr' => ?_⟩
    rw [mem_filter, decide_eq_true_eq] at hr'
    exact Or.inl ⟨r', hr'.1, .same, fun _ => hr'.2⟩

/-! ### Runs -/

theorem after_concat (msgs : List Message) (msg : Message) :
    after towlower (msgs ++ [msg]) = (step towlower msg (after towlower msgs)).1 := by
  rw [after, foldl_append]
  rfl

theorem tagged_after (msgs : List Message) :
    Tagged (after towlower msgs) ∧ (after towlower msgs).handled = msgs.length := by
  induction msgs using List.reverseRecOn with
  | nil => exact ⟨tagged_init, rfl⟩
  | append_singleton msgs msg ih =>
    rw [after_concat]
    refine ⟨tagged_effect ih.1 (handler_effect msg _), ?_⟩
    show (after towlower msgs).handled + 1 = _
    rw [ih.2, length_append, length_singleton]

end Sandboxie.QueueServer
