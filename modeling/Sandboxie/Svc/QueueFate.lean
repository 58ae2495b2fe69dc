import Mathlib.Data.List.Flatten
import Mathlib.Data.List.Pairwise
import Sandboxie.Svc.QueueObjects

/-!
# What becomes of a request

`effect_pending`: a message leaves a request that has not been handed as it is, hands it, or
takes it away for a reason (`Excused`).  `order_run`: the requests of a queue are handed in
the order in which they were put, none of them twice.
-/

namespace Sandboxie.QueueServer

open List

/-- Why a request goes away without having been handed: its queue or its client goes, or the
client asks for the reply, or the server puts the reply, already. -/
inductive Excused (msg : Message) (q : QueueObj) (r : RequestObj) : Prop
  | exit (hbody : msg.body = .notification)
      (hprocess : msg.idProcess = q.serverPid ∨ msg.idProcess = r.clientPid) : Excused msg q r
  | inactive (hserver : serverIsActive msg.env q = false) : Excused msg q r
  | client {length : Nat} {queueName : List WChar}
      (hbody : msg.body = .getRpl length queueName r.requestId)
      (hclient : msg.idProcess = r.clientPid) : Excused msg q r
  | server {length dataLen : Nat} {queueName : List WChar} {data : List UInt8}
      (hbody : msg.body = .putRpl length queueName r.requestId dataLen data)
      (hserver : IsServer msg q) : Excused msg q r

/-- The request is in the queue, whatever the other requests of the queue are. -/
def Waits (s : Server) (q : QueueObj) (r : RequestObj) : Prop :=
  ∃ q' ∈ s.queues, q' = { q with requests := q'.requests } ∧ r ∈ q'.requests

def Named (towlower : WChar → WChar) (s : Server) : Prop :=
  ∀ q ∈ s.queues, ∀ q' ∈ s.queues,
    q.queueName.map towlower = q'.queueName.map towlower → q.tag = q'.tag

section Fate

variable {towlower : WChar → WChar}

/-! ### Names -/

variable {env : Env} {s s' : Server}

theorem named_found (h : Named towlower s) (hfound : Found env s s') :
    Named towlower s' := by
  cases hfound with
  | same => exact h
  | deleted _ _ =>
    intro q hq q' hq'
    exact h q (mem_filter.mp hq).1 q' (mem_filter.mp hq').1

theorem found_subset (hfound : Found env s s') :
    ∀ q ∈ s'.queues, q ∈ s.queues := by
  intro q hq
  cases hfound with
  | same => exact hq
  | deleted _ _ => exact (mem_filter.mp hq).1

theorem named_set (h : Named towlower s) (k : Nat)
    (f : List RequestObj → List RequestObj) : Named towlower (setRequests k f s) := by
  intro q hq q' hq' hname
  obtain ⟨x, hx, heq, _⟩ := mem_setRequests hq
  obtain ⟨x', hx', heq', _⟩ := mem_setRequests hq'
  rw [heq, heq'] at hname ⊢
  exact h x hx x' hx' hname

variable {msg : Message}

theorem named_effect {reply : Reply} (h : Named towlower s)
    (heffect : Effect towlower msg s s' reply) : Named towlower s' := by
  cases heffect with
  | nothing hfound _ _ => exact named_found h hfound
  | @created s1 _ time _ name hfound _ _ hnew _ =>
    -- a queue of the name that was there would be a second one of the name
    have hother : ∀ q ∈ s1.queues, q.queueName.map towlower ≠ name.map towlower := by
      intro q hq hsame
      obtain ⟨q0, hq0, hsame0, hne⟩ := hnew q hq (beq_iff_eq.mpr hsame)
      rw [Text.sameNoCase, beq_iff_eq] at hsame0
      exact hne (h q0 hq0 q (found_subset hfound q hq) (hsame0.trans hsame.symm))
    intro q hq q' hq' hname
    rcases mem_append.mp hq with hq | hq
    · rcases mem_append.mp hq' with hq' | hq'
      · exact named_found h hfound q hq q' hq' hname
      · obtain rfl := mem_singleton.mp hq'
        exact absurd hname (hother q hq)
    · obtain rfl := mem_singleton.mp hq
      rcases mem_append.mp hq' with hq' | hq'
      · exact absurd hname.symm (hother q' hq')
      · obtain rfl := mem_singleton.mp hq'
        rfl
  | numbered _ _ _ _ => exact h
  | gone _ =>
    intro q hq q' hq' hname
    obtain ⟨x, hx, rfl⟩ := mem_map.mp hq
    obtain ⟨x', hx', rfl⟩ := mem_map.mp hq'
    exact h x (mem_filter.mp hx).1 x' (mem_filter.mp hx').1 hname
  | put _ _ _ _ =>
    exact @named_set towlower
      { s with requestId := skipReserved 2 ((s.requestId + 1) % 2 ^ 32) } h _ _
  | _ => exact named_set h _ _

theorem named_after (msgs : List Message) : Named towlower (after towlower msgs) := by
  induction msgs using List.reverseRecOn with
  | nil =>
    intro q hq
    cases hq
  | append_singleton msgs msg ih =>
    rw [after_concat]
    have hnamed := named_effect ih (handler_effect msg (after towlower msgs))
    exact hnamed

variable {s : Server}

theorem Named.unique (h : Named towlower s) (htagged : Tagged s) {queueName : List WChar}
    {q q' : QueueObj} (hq : q ∈ s.queues) (hq' : q' ∈ s.queues)
    (hnames : Names towlower env queueName q) (hnames' : Names towlower env queueName q') :
    q = q' := by
  obtain ⟨name, status, hname, hsame⟩ := hnames
  obtain ⟨name', status', hname', hsame'⟩ := hnames'
  rw [hname] at hname'
  obtain ⟨hname', _⟩ := Prod.mk.inj hname'
  cases hname'
  rw [Text.sameNoCase, beq_iff_eq] at hsame hsame'
  exact inj_on_of_nodup_map htagged.queueTags hq hq' (h q hq q' hq' (hsame.trans hsame'.symm))

/-! ### One message -/

theorem Tagged.queue_unique (h : Tagged s) {q q' : QueueObj} (hq : q ∈ s.queues)
    (hq' : q' ∈ s.queues) {r r' : RequestObj} (hr : r ∈ q.requests) (hr' : r' ∈ q'.requests)
    (htag : r'.tag = r.tag) : q' = q := by
  by_contra hne
  have hnodup := h.requestTags
  rw [requestsOf, map_flatMap, nodup_flatMap] at hnodup
  have hsymm : Std.Symm (Function.onFun List.Disjoint fun q : QueueObj =>
      q.requests.map RequestObj.tag) := ⟨fun _ _ h _ hx hx' => h hx' hx⟩
  have hdisjoint := hnodup.2.forall hq' hq hne
  exact hdisjoint (mem_map_of_mem hr') (htag ▸ mem_map_of_mem hr)

theorem waits_set {q : QueueObj} {r : RequestObj} {k : Nat}
    {f : List RequestObj → List RequestObj} (hq : q ∈ s.queues) (hr : r ∈ q.requests)
    (hf : q.tag = k → r ∈ f q.requests) : Waits (setRequests k f s) q r := by
  refine ⟨_, mem_map_of_mem hq, ?_⟩
  split
  · rename_i htag
    exact ⟨rfl, hf htag⟩
  · exact ⟨rfl, hr⟩

variable {q : QueueObj}

theorem waits_delete {r r0 : RequestObj} {k : Nat}
    (hq : q ∈ s.queues) (hr : r ∈ q.requests) (hne : q.tag = k → r.tag ≠ r0.tag) :
    Waits (setRequests k (deleteRequestObj r0.tag) s) q r :=
  waits_set hq hr fun htag => mem_filter.mpr ⟨hr, by simpa using hne htag⟩

variable {r : RequestObj}

theorem gone_delete (h : Tagged s) (hq : q ∈ s.queues) (hr : r ∈ q.requests) :
    ∀ x ∈ requestsOf (setRequests q.tag (deleteRequestObj r.tag) s), x.tag ≠ r.tag := by
  intro x hx htag
  obtain ⟨q', hq', hx⟩ := mem_flatMap.mp hx
  obtain ⟨q0, hq0, heq, hrequests⟩ := mem_setRequests hq'
  rw [hrequests] at hx
  split at hx
  · simpa [htag] using (mem_filter.mp hx).2
  · rename_i hne
    rw [h.queue_unique hq hq0 hr hx htag] at hne
    exact hne rfl

theorem pending_found (h : Tagged s)
    (hq : q ∈ s.queues) (hr : r ∈ q.requests) (hfound : Found msg.env s s') :
    q ∈ s'.queues ∨ (Excused msg q r ∧ ∀ x ∈ requestsOf s', x.tag ≠ r.tag) := by
  cases hfound with
  | same => exact Or.inl hq
  | @deleted q0 hq0 hgone =>
    by_cases htag : q.tag = q0.tag
    · obtain rfl := inj_on_of_nodup_map h.queueTags hq hq0 htag
      refine Or.inr ⟨.inactive hgone, fun x hx htag => ?_⟩
      obtain ⟨q', hq', hx⟩ := mem_flatMap.mp hx
      rw [deleteQueueObj, mem_filter] at hq'
      rw [h.queue_unique hq hq'.1 hr hx htag] at hq'
      simpa using hq'.2
    · exact Or.inl (mem_filter.mpr ⟨hq, by simpa using htag⟩)

theorem effect_pending {reply : Reply} (h : Tagged s)
    (heffect : Effect towlower msg s s' reply)
    (hq : q ∈ s.queues) (hr : r ∈ q.requests) {data : List UInt8}
    (hpending : r.reqData = some data) :
    Waits s' q r ∨ Handed towlower msg s reply q r ∨
      (Excused msg q r ∧ ∀ x ∈ requestsOf s', x.tag ≠ r.tag) := by
  -- the request that the message is about is this one when it is in this queue and has its tag
  have hsame : ∀ {q0 : QueueObj} {r0 : RequestObj}, q0 ∈ s.queues → r0 ∈ q0.requests →
      q.tag = q0.tag → r.tag = r0.tag → q0 = q ∧ r0 = r := by
    intro q0 r0 hq0 hr0 htag htag'
    obtain rfl := inj_on_of_nodup_map h.queueTags hq hq0 htag
    exact ⟨rfl, inj_on_of_nodup_map h.requestTags (mem_requestsOf hq0 hr0)
      (mem_requestsOf hq0 hr) htag'.symm⟩
  cases heffect with
  | nothing hfound _ _ =>
    rcases pending_found h hq hr hfound with hstay | hgone
    · exact Or.inl ⟨q, hstay, rfl, hr⟩
    · exact Or.inr (Or.inr hgone)
  | created hfound _ _ _ _ =>
    rcases pending_found h hq hr hfound with hstay | hgone
    · exact Or.inl ⟨q, mem_append_left _ hstay, rfl, hr⟩
    · refine Or.inr (Or.inr ⟨hgone.1, fun x hx => hgone.2 x ?_⟩)
      simpa [requestsOf] using hx
  | @taken q0 r0 _ _ _ hq0 hbody hnames hserver hfirst hdata =>
    by_cases htag : q.tag = q0.tag ∧ r.tag = r0.tag
    · obtain ⟨rfl, rfl⟩ := hsame hq0 (mem_of_find?_eq_some hfirst) htag.1 htag.2
      exact Or.inr (Or.inl ⟨hq0, ⟨_, _, hbody, hnames⟩, hserver, hfirst, _, hdata, rfl⟩)
    · refine Or.inl (waits_set hq hr fun hqtag => mem_map.mpr ⟨r, hr, ?_⟩)
      exact if_neg fun hrtag => htag ⟨hqtag, hrtag⟩
  | @refused q0 r0 _ _ _ _ _ hq0 hbody _ _ hserver hr0 _ =>
    by_cases htag : q.tag = q0.tag ∧ r.tag = r0.tag
    · obtain ⟨rfl, rfl⟩ := hsame hq0 hr0 htag.1 htag.2
      exact Or.inr (Or.inr ⟨.server hbody hserver, gone_delete h hq hr⟩)
    · exact Or.inl (waits_delete hq hr fun hqtag hrtag => htag ⟨hqtag, hrtag⟩)
  | @replied q0 r0 _ _ _ _ hq0 _ _ _ _ hr0 htaken =>
    by_cases htag : q.tag = q0.tag ∧ r.tag = r0.tag
    · obtain ⟨rfl, rfl⟩ := hsame hq0 hr0 htag.1 htag.2
      rw [htaken] at hpending
      cases hpending
    · refine Or.inl (waits_set hq hr fun hqtag => mem_map.mpr ⟨r, hr, ?_⟩)
      exact if_neg fun hrtag => htag ⟨hqtag, hrtag⟩
  | numbered _ _ _ _ => exact Or.inl ⟨q, hq, rfl, hr⟩
  | put _ _ _ _ =>
    exact Or.inl (@waits_set
      { s with requestId := skipReserved 2 ((s.requestId + 1) % 2 ^ 32) } q r _ _ hq hr
      fun _ => mem_append_left _ hr)
  | @early q0 r0 _ _ hq0 hbody hclient hr0 =>
    by_cases htag : q.tag = q0.tag ∧ r.tag = r0.tag
    · obtain ⟨rfl, rfl⟩ := hsame hq0 hr0 htag.1 htag.2
      exact Or.inr (Or.inr ⟨.client hbody hclient.symm, gone_delete h hq hr⟩)
    · exact Or.inl (waits_delete hq hr fun hqtag hrtag => htag ⟨hqtag, hrtag⟩)
  | @delivered q0 r0 _ _ _ hq0 hbody _ hclient hr0 _ =>
    by_cases htag : q.tag = q0.tag ∧ r.tag = r0.tag
    · obtain ⟨rfl, rfl⟩ := hsame hq0 hr0 htag.1 htag.2
      exact Or.inr (Or.inr ⟨.client hbody hclient.symm, gone_delete h hq hr⟩)
    · exact Or.inl (waits_delete hq hr fun hqtag hrtag => htag ⟨hqtag, hrtag⟩)
  | gone hbody =>
    by_cases hprocess : msg.idProcess = q.serverPid ∨ msg.idProcess = r.clientPid
    · refine Or.inr (Or.inr ⟨.exit hbody hprocess, fun x hx htag => ?_⟩)
      obtain ⟨q', hq', hx⟩ := mem_flatMap.mp hx
      obtain ⟨q0, hq0, rfl⟩ := mem_map.mp hq'
      rw [mem_filter, decide_eq_true_eq] at hq0 hx
      obtain rfl := h.queue_unique hq hq0.1 hr hx.1 htag
      obtain rfl := inj_on_of_nodup_map h.requestTags (mem_requestsOf hq hx.1)
        (mem_requestsOf hq hr) htag
      rcases hprocess with hserver | hclient
      · exact hq0.2 hserver.symm
      · exact hx.2 hclient.symm
    · rw [not_or] at hprocess
      refine Or.inl ⟨_, mem_map_of_mem (mem_filter.mpr ⟨hq, ?_⟩), rfl, ?_⟩
      · simpa using Ne.symm hprocess.1
      · exact mem_filter.mpr ⟨hr, by simpa using Ne.symm hprocess.2⟩

/-! ### Order -/

/-- The requests of the queue `k` that have not been handed were put after the message `t`. -/
def Past (k t : Nat) (s : Server) : Prop :=
  t < s.handled ∧ ∀ q ∈ s.queues, q.tag = k → ∀ r ∈ q.requests, r.reqData.isSome → t < r.tag

theorem past_step {k t : Nat} (h : Tagged s) (hpast : Past k t s) :
    Past k t (step towlower msg s).1 := by
  refine ⟨Nat.lt_succ_of_lt hpast.1, fun q' hq' htag r' hr' hpending => ?_⟩
  have hq' : q' ∈ (handler towlower msg s).1.queues := hq'
  rcases effect_queue h (handler_effect msg s) hq' with hcreated | ⟨q, hq, heq, _, hfrom⟩
  · rw [hcreated.requests] at hr'
    cases hr'
  rcases hfrom r' hr' with ⟨r, hr, hmoved, _⟩ | hput
  · have hqtag : q.tag = k := by
      rw [heq] at htag
      exact htag
    cases hmoved with
    | same => exact hpast.2 q hq hqtag _ hr hpending
    | taken _ => cases hpending
    | replied _ => exact hpast.2 q hq hqtag r hr hpending
  · rw [hput.tag]
    exact hpast.1

theorem Handed.oldest {reply : Reply} (h : Tagged s) (hhanded : Handed towlower msg s reply q r) :
    ∀ x ∈ q.requests, x.reqData.isSome → x = r ∨ r.tag < x.tag := by
  intro x hx hpending
  obtain ⟨_, as, bs, hsplit, hbefore⟩ := find?_eq_some_iff_append.mp hhanded.first
  have hsorted := h.sorted q hhanded.queue
  rw [hsplit] at hx hsorted
  rcases mem_append.mp hx with hx | hx
  · have := hbefore x hx
    simp [hpending] at this
  · rw [map_append, pairwise_append] at hsorted
    rcases mem_cons.mp hx with rfl | hx
    · exact Or.inl rfl
    · exact Or.inr ((pairwise_cons.mp hsorted.2.1).1 x.tag (mem_map_of_mem hx))

theorem past_handed (h : Tagged s) (hnamed : Named towlower s)
    (hhanded : Handed towlower msg s (handler towlower msg s).2 q r) :
    Past q.tag r.tag (step towlower msg s).1 := by
  have hmem := mem_of_find?_eq_some hhanded.first
  have hlt := h.requestTag_lt r.tag (mem_map_of_mem (mem_requestsOf hhanded.queue hmem))
  obtain ⟨data, _, hreply⟩ := hhanded.reply
  obtain ⟨_, queueName, hbody, hnames⟩ := hhanded.body
  have heffect := @handler_effect towlower msg s
  refine ⟨Nat.lt_succ_of_lt hlt, fun q' hq' htag x hx hpending => ?_⟩
  have hq' : q' ∈ (handler towlower msg s).1.queues := hq'
  generalize handler towlower msg s = result at heffect hq' hreply
  obtain ⟨s', reply⟩ := result
  subst hreply
  generalize hrep : Reply.getReq r.clientPid r.clientTid r.requestId data = reply at heffect
  cases heffect with
  | @taken q0 r0 _ queueName' _ hq0 hbody' hnames' _ hfirst _ =>
    rw [hbody] at hbody'
    obtain ⟨_, rfl⟩ := Body.getReq.inj hbody'
    obtain rfl := hnamed.unique h hhanded.queue hq0 hnames hnames'
    rw [hhanded.first] at hfirst
    cases hfirst
    obtain ⟨q1, hq1, heq, hrequests⟩ := mem_setRequests hq'
    have hq1tag : q1.tag = q.tag := by
      rw [heq] at htag
      exact htag
    obtain rfl := inj_on_of_nodup_map h.queueTags hq1 hhanded.queue hq1tag
    rw [hrequests, if_pos rfl] at hx
    obtain ⟨y, hy, rfl⟩ := mem_map.mp hx
    split at hpending
    · cases hpending
    · rename_i hne
      rw [if_neg hne]
      rcases hhanded.oldest h y hy hpending with rfl | hlt
      · exact absurd rfl hne
      · exact hlt
  | _ => cases hrep

variable {msgs more : List Message}

theorem past_run {k t : Nat} (h : Past k t (after towlower msgs)) :
    Past k t (after towlower (msgs ++ more)) := by
  induction more using List.reverseRecOn with
  | nil =>
    rw [append_nil]
    exact h
  | append_singleton more msg ih =>
    rw [← append_assoc, after_concat]
    exact past_step (tagged_after _).1 ih

/-- **Order**: what a queue hands later was put later. -/
theorem order_run {msg msg' : Message} {q q' : QueueObj}
    {r r' : RequestObj}
    (h : Handed towlower msg (after towlower msgs) (step towlower msg (after towlower msgs)).2 q r)
    (h' : Handed towlower msg' (after towlower (msgs ++ msg :: more))
      (step towlower msg' (after towlower (msgs ++ msg :: more))).2 q' r')
    (htag : q'.tag = q.tag) : r.tag < r'.tag := by
  have hpast := past_handed (tagged_after msgs).1 (named_after msgs) h
  rw [← after_concat] at hpast
  have hrun := @past_run towlower _ more _ _ hpast
  rw [append_assoc, singleton_append] at hrun
  obtain ⟨data, hdata, _⟩ := h'.reply
  exact hrun.2 q' h'.queue htag r' (mem_of_find?_eq_some h'.first) (by rw [hdata]; rfl)

/-! ### Fate -/

theorem gone_run {t : Nat} (hlt : t < msgs.length)
    (h : ∀ x ∈ requestsOf (after towlower msgs), x.tag ≠ t) :
    ∀ x ∈ requestsOf (after towlower (msgs ++ more)), x.tag ≠ t := by
  induction more using List.reverseRecOn with
  | nil =>
    rw [append_nil]
    exact h
  | append_singleton more msg ih =>
    rw [← append_assoc, after_concat]
    intro x hx htag
    obtain ⟨htagged, hhandled⟩ := @tagged_after towlower (msgs ++ more)
    obtain ⟨q', hq', hx⟩ := mem_flatMap.mp hx
    rcases effect_queue htagged (handler_effect msg _) hq' with hcreated | ⟨q, hq, _, _, hfrom⟩
    · rw [hcreated.requests] at hx
      cases hx
    · rcases hfrom x hx with ⟨r, hr, hmoved, _⟩ | hput
      · rw [hmoved.ident] at htag
        exact ih r (mem_requestsOf hq hr) htag
      · have hnew := hput.tag
        rw [hhandled, length_append] at hnew
        omega

/-- What becomes of a request that waits in a queue in the messages `more`: it waits still,
or one of them hands it, or one of them takes it away for a reason and it never comes back. -/
def Fate (towlower : WChar → WChar) (msgs more : List Message) (q : QueueObj) (r : RequestObj) :
    Prop :=
  Waits (after towlower (msgs ++ more)) q r ∨
    ∃ a msg b q', more = a ++ msg :: b ∧ q' = { q with requests := q'.requests } ∧
      q' ∈ (after towlower (msgs ++ a)).queues ∧ r ∈ q'.requests ∧
      (Handed towlower msg (after towlower (msgs ++ a))
          (step towlower msg (after towlower (msgs ++ a))).2 q' r ∨
        Excused msg q' r ∧
          ∀ c, ∀ x ∈ requestsOf (after towlower (msgs ++ a ++ msg :: c)), x.tag ≠ r.tag)

theorem fate_run (more : List Message)
    (hq : q ∈ (after towlower msgs).queues) (hr : r ∈ q.requests) {data : List UInt8}
    (hdata : r.reqData = some data) : Fate towlower msgs more q r := by
  induction more using List.reverseRecOn with
  | nil =>
    refine Or.inl ⟨q, ?_, rfl, hr⟩
    rw [append_nil]
    exact hq
  | append_singleton more msg ih =>
    rcases ih with ⟨q', hq', heq, hr'⟩ | ⟨a, m, b, q', rfl, hfate⟩
    · obtain ⟨htagged, hhandled⟩ := @tagged_after towlower (msgs ++ more)
      rcases effect_pending htagged (handler_effect msg _) hq' hr' hdata with
        ⟨q2, hq2, heq2, hr2⟩ | hhanded | ⟨hexcused, hgone⟩
      · refine Or.inl ⟨q2, ?_, heq2.trans ?_, hr2⟩
        · rw [← append_assoc, after_concat]
          exact hq2
        · rw [heq]
      · exact Or.inr ⟨more, msg, [], q', rfl, heq, hq', hr', Or.inl hhanded⟩
      · refine Or.inr ⟨more, msg, [], q', rfl, heq, hq', hr', Or.inr ⟨hexcused, fun c => ?_⟩⟩
        have hlt := htagged.requestTag_lt r.tag (mem_map_of_mem (mem_requestsOf hq' hr'))
        have hrun := @gone_run towlower (msgs ++ more ++ [msg]) c r.tag
          (by rw [length_append]; omega) (by rw [after_concat]; exact hgone)
        rw [append_assoc, singleton_append] at hrun
        exact hrun
    · exact Or.inr ⟨a, m, b ++ [msg], q', by simp, hfate⟩

end Fate

end Sandboxie.QueueServer
