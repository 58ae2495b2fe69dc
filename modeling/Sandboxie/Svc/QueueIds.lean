import Sandboxie.Svc.QueueObjects

/-!
# The identifiers of requests, and their replies

`PutReqHandler` numbers the requests with a counter of 32 bits.  The loop that skips 0 and
-1 runs after the number has been read, so it protects the number after the next only.
`PutRplHandler` does not look whether the request has a reply.
-/

namespace Sandboxie.QueueServer

open List

/-- The messages that do not get to one of the two slips: a request is not numbered when the
counter is about to be -1, and a reply is not put for a request that has one. -/
def Meets (towlower : WChar → WChar) (s : Server) (msg : Message) : Prop :=
  match msg.body with
  | .putReq _ queueName _ _ => msg.body.Valid → ∀ q ∈ s.queues,
    Names towlower msg.env queueName q → s.requestId ≠ 2 ^ 32 - 2
  | .putRpl _ queueName reqId _ _ => msg.body.Valid → ∀ q ∈ s.queues,
    Names towlower msg.env queueName q → IsServer msg q →
      ∀ r ∈ q.requests, r.requestId = reqId → r.rplData = none
  | _ => True

/-- The numbers are below the counter and belong to one request each. -/
structure Numbered (s : Server) : Prop where
  counter : 1 ≤ s.requestId ∧ s.requestId ≤ 2 ^ 32 - 2
  bounds : ∀ r ∈ requestsOf s, 2 ≤ r.requestId ∧ r.requestId ≤ s.requestId
  unique : ∀ r ∈ requestsOf s, ∀ r' ∈ requestsOf s, r.requestId = r'.requestId → r.tag = r'.tag

section Ids

variable {towlower : WChar → WChar}

theorem numbered_init : Numbered init := by
  refine ⟨by decide, ?_, ?_⟩ <;> intro r hr <;> cases hr

variable {msg : Message} {s s' : Server} {reply : Reply}

theorem effect_request {r' : RequestObj}
    (h : Tagged s) (heffect : Effect towlower msg s s' reply) (hr' : r' ∈ requestsOf s') :
    ∃ q ∈ s.queues, FromRequest towlower msg s reply q r' := by
  obtain ⟨q', hq', hr'⟩ := mem_flatMap.mp hr'
  rcases effect_queue h heffect hq' with hcreated | ⟨q, hq, _, _, hfrom⟩
  · rw [hcreated.requests] at hr'
    cases hr'
  · exact ⟨q, hq, hfrom r' hr'⟩

theorem effect_requestId (heffect : Effect towlower msg s s' reply) :
    (s'.requestId = s.requestId ∧ ∀ id, reply ≠ .putReq id) ∨
      s'.requestId = skipReserved 2 ((s.requestId + 1) % 2 ^ 32) ∧
        ∃ q ∈ s.queues, ∃ length queueName dataLen data,
          msg.body = .putReq length queueName dataLen data ∧ msg.body.Valid ∧
            Names towlower msg.env queueName q := by
  cases heffect with
  | nothing hfound _ _ =>
    cases hfound <;> exact .inl ⟨rfl, nofun⟩
  | created hfound _ _ _ _ =>
    cases hfound <;> exact .inl ⟨rfl, nofun⟩
  | numbered hq hbody hvalid hnames =>
    exact .inr ⟨rfl, _, hq, _, _, _, _, hbody, hvalid, hnames⟩
  | put hq hbody hvalid hnames =>
    exact .inr ⟨rfl, _, hq, _, _, _, _, hbody, hvalid, hnames⟩
  | _ => exact .inl ⟨rfl, nofun⟩

theorem skipReserved_of_free {fuel id : Nat} (h0 : id ≠ 0) (h1 : id ≠ 2 ^ 32 - 1) :
    skipReserved fuel id = id := by
  cases fuel with
  | zero => rfl
  | succ fuel => rw [skipReserved, if_neg (not_or.mpr ⟨h0, h1⟩)]

theorem effect_counter (h : Tagged s) (hs : Numbered s) (heffect : Effect towlower msg s s' reply)
    (hmeets : Meets towlower s msg) :
    (s'.requestId = s.requestId ∧ ∀ id, reply ≠ .putReq id) ∨
      (s'.requestId = s.requestId + 1 ∧ s.requestId + 1 ≤ 2 ^ 32 - 2) := by
  rcases effect_requestId heffect with hsame | ⟨hnext, q, hq, length, queueName, dataLen, data,
    hbody, hvalid, hnames⟩
  · exact .inl hsame
  · refine .inr ?_
    rw [Meets, hbody] at hmeets
    have hne := hmeets (hbody ▸ hvalid) q hq hnames
    have hcounter := hs.counter
    have hlt : s.requestId + 1 < 2 ^ 32 := by omega
    rw [Nat.mod_eq_of_lt hlt, skipReserved_of_free (by omega) (by omega)] at hnext
    exact ⟨hnext, by omega⟩

theorem Put.number {q : QueueObj}
    {r : RequestObj} (hput : Put towlower msg s reply q r) (h : Tagged s) (hs : Numbered s)
    (heffect : Effect towlower msg s s' reply) (hmeets : Meets towlower s msg) :
    r.requestId = s'.requestId ∧ s'.requestId = s.requestId + 1 := by
  rcases effect_counter h hs heffect hmeets with ⟨_, hreply⟩ | ⟨hnext, hle⟩
  · exact absurd hput.reply (hreply _)
  · refine ⟨?_, hnext⟩
    rw [hput.requestId, hnext]
    exact Nat.mod_eq_of_lt (by omega)

theorem numbered_effect (h : Tagged s) (hs : Numbered s) (heffect : Effect towlower msg s s' reply)
    (hmeets : Meets towlower s msg) : Numbered s' := by
  have hcounter := hs.counter
  have hle : s.requestId ≤ s'.requestId ∧ s'.requestId ≤ 2 ^ 32 - 2 := by
    rcases effect_counter h hs heffect hmeets with ⟨hsame, _⟩ | ⟨hnext, hle⟩ <;> omega
  -- a request was there before, with the same number, or it has the new number
  have hfrom : ∀ r' ∈ requestsOf s',
      (∃ r ∈ requestsOf s, r'.tag = r.tag ∧ r'.requestId = r.requestId) ∨
        (r'.tag = s.handled ∧ r'.requestId = s'.requestId ∧ s'.requestId = s.requestId + 1) := by
    intro r' hr'
    obtain ⟨q, hq, ⟨r, hr, hmoved, _⟩ | hput⟩ := effect_request h heffect hr'
    · refine .inl ⟨r, mem_requestsOf hq hr, ?_⟩
      rw [hmoved.ident]
      exact ⟨rfl, rfl⟩
    · exact .inr ⟨hput.tag, hput.number h hs heffect hmeets⟩
  refine ⟨⟨by omega, hle.2⟩, ?_, ?_⟩
  · intro r' hr'
    rcases hfrom r' hr' with ⟨r, hr, _, hid⟩ | ⟨_, hid, hnext⟩
    · have := hs.bounds r hr
      omega
    · omega
  · intro r' hr' r'' hr'' heq
    rcases hfrom r' hr' with ⟨r, hr, htag, hid⟩ | ⟨htag, hid, hnext⟩
    · rcases hfrom r'' hr'' with ⟨x, hx, htag', hid'⟩ | ⟨_, hid', hnext⟩
      · rw [htag, htag']
        exact hs.unique r hr x hx (by omega)
      · have := hs.bounds r hr
        omega
    · rcases hfrom r'' hr'' with ⟨x, hx, _, hid'⟩ | ⟨htag', _, _⟩
      · have := hs.bounds x hx
        omega
      · rw [htag, htag']

theorem reply_effect (h : Tagged s)
    (heffect : Effect towlower msg s s' reply) (hmeets : Meets towlower s msg)
    {r r' : RequestObj} (hr : r ∈ requestsOf s) (hr' : r' ∈ requestsOf s') (htag : r'.tag = r.tag)
    {d : List UInt8} (hd : r.rplData = some d) : r'.rplData = some d := by
  obtain ⟨q, hq, ⟨r0, hr0, hmoved, _⟩ | hput⟩ := effect_request h heffect hr'
  · have hsame : r0 = r := by
      refine inj_on_of_nodup_map h.requestTags (mem_requestsOf hq hr0) hr ?_
      rw [← htag, hmoved.ident]
    subst hsame
    cases hmoved with
    | same => exact hd
    | taken _ => exact hd
    | replied hreplied =>
      obtain ⟨length, queueName, dataLen, bytes, hbody, _, hnames⟩ := hreplied.body
      rw [Meets, hbody] at hmeets
      have hnone := hmeets (hbody ▸ hreplied.valid) q hq hnames hreplied.server r0 hr0 rfl
      rw [hnone] at hd
      cases hd
  · have := h.requestTag_lt r.tag (mem_map_of_mem hr)
    have := hput.tag
    omega

/-- Every message of the run meets the condition in the server that it finds. -/
def MeetsAll (towlower : WChar → WChar) (msgs : List Message) : Prop :=
  ∀ a msg b, msgs = a ++ msg :: b → Meets towlower (after towlower a) msg

theorem MeetsAll.shorten {msgs more : List Message} (h : MeetsAll towlower (msgs ++ more)) :
    MeetsAll towlower msgs := by
  rintro a msg b rfl
  exact h a msg (b ++ more) (by simp)

theorem MeetsAll.last {msgs : List Message}
    (h : MeetsAll towlower (msgs ++ [msg])) : Meets towlower (after towlower msgs) msg :=
  h msgs msg [] rfl

theorem numbered_after {msgs : List Message} (h : MeetsAll towlower msgs) :
    Numbered (after towlower msgs) := by
  induction msgs using List.reverseRecOn with
  | nil => exact numbered_init
  | append_singleton msgs msg ih =>
    rw [after_concat]
    have hnumbered := numbered_effect (tagged_after msgs).1 (ih h.shorten)
      (handler_effect msg _) h.last
    exact ⟨hnumbered.1, hnumbered.2, hnumbered.3⟩

theorem reply_after {msgs more : List Message} (h : MeetsAll towlower (msgs ++ more))
    {r : RequestObj} (hr : r ∈ requestsOf (after towlower msgs)) {d : List UInt8}
    (hd : r.rplData = some d) : ∀ r' ∈ requestsOf (after towlower (msgs ++ more)),
      r'.tag = r.tag → r'.rplData = some d := by
  induction more using List.reverseRecOn with
  | nil =>
    intro r' hr' htag
    rw [append_nil] at hr'
    obtain rfl := inj_on_of_nodup_map (tagged_after msgs).1.requestTags hr' hr htag
    exact hd
  | append_singleton more msg ih =>
    intro r' hr' htag
    rw [← append_assoc] at h hr'
    rw [after_concat] at hr'
    have heffect := @handler_effect towlower msg (after towlower (msgs ++ more))
    obtain ⟨htagged, hhandled⟩ := @tagged_after towlower (msgs ++ more)
    obtain ⟨q, hq, ⟨r0, hr0, hmoved, _⟩ | hput⟩ := effect_request htagged heffect hr'
    · have htag0 : r'.tag = r0.tag := by rw [hmoved.ident]
      have hd0 := ih h.shorten r0 (mem_requestsOf hq hr0) (htag0 ▸ htag)
      exact reply_effect htagged heffect h.last (mem_requestsOf hq hr0) hr' htag0 hd0
    · obtain ⟨hbefore, hcount⟩ := @tagged_after towlower msgs
      have hlt := hbefore.requestTag_lt r.tag (mem_map_of_mem hr)
      have hnew := hput.tag
      rw [hhandled, length_append] at hnew
      omega

/-- **The identifiers of the requests**: in a run that does not get to the two slips, the
outstanding requests have different numbers, none of them reserved, and a reply that is
stored stays as it is. -/
theorem ids_run (towlower : WChar → WChar) (msgs : List Message)
    (h : ∀ a msg b, msgs = a ++ msg :: b → Meets towlower (after towlower a) msg) :
    ((requestsOf (after towlower msgs)).map RequestObj.requestId).Nodup ∧
      (∀ r ∈ requestsOf (after towlower msgs),
        r.requestId ≠ 0 ∧ r.requestId ≠ 2 ^ 32 - 1) ∧
      ∀ a b, msgs = a ++ b → ∀ r ∈ requestsOf (after towlower a), ∀ d, r.rplData = some d →
        ∀ r' ∈ requestsOf (after towlower msgs), r'.tag = r.tag → r'.rplData = some d := by
  have hnumbered := numbered_after h
  refine ⟨?_, ?_, ?_⟩
  · refine List.Nodup.map_on ?_ (List.Nodup.of_map _ (tagged_after msgs).1.requestTags)
    intro r hr r' hr' hid
    exact inj_on_of_nodup_map (tagged_after msgs).1.requestTags hr hr'
      (hnumbered.unique r hr r' hr' hid)
  · intro r hr
    have hbounds := hnumbered.bounds r hr
    have hcounter := hnumbered.counter
    omega
  · rintro a b rfl r hr d hd
    exact reply_after h hr hd

end Ids

/-! ### Runs that get to the slips -/

def plainEnv : Env :=
  ⟨0, false, none, 0, 0, fun _ => true, fun _ => some 0, true, true, true, true, 0⟩

/-- A queue `*Q` of the process 1, on which the process 2 puts a request. -/
def createQ : Message := ⟨1, plainEnv, .create 144 [42, 81]⟩
def putQ : Message := ⟨2, plainEnv, .putReq 152 [42, 81] 1 [7]⟩
def takeQ : Message := ⟨1, plainEnv, .getReq 136 [42, 81]⟩
def answerQ (c : UInt8) : Message := ⟨1, plainEnv, .putRpl 148 [42, 81] 2 1 [c]⟩

theorem ids_run_answered :
    ((requestsOf (after Text.asciiLower [createQ, putQ, takeQ, answerQ 5])).map
        RequestObj.requestId).Nodup := by
  refine (ids_run Text.asciiLower [createQ, putQ, takeQ, answerQ 5] ?_).1
  intro a msg b hsplit
  rcases a with _ | ⟨m1, _ | ⟨m2, _ | ⟨m3, _ | ⟨m4, a⟩⟩⟩⟩
  · obtain ⟨rfl, _⟩ := List.cons.inj hsplit
    exact trivial
  · simp only [cons_append, nil_append, List.cons.injEq] at hsplit
    obtain ⟨rfl, rfl, _⟩ := hsplit
    intro _ q _ _
    decide
  · simp only [cons_append, nil_append, List.cons.injEq] at hsplit
    obtain ⟨rfl, rfl, rfl, _⟩ := hsplit
    exact trivial
  · simp only [cons_append, nil_append, List.cons.injEq] at hsplit
    obtain ⟨rfl, rfl, rfl, rfl, _⟩ := hsplit
    intro _ q hq _ _ r hr _
    have hqueues : (after Text.asciiLower [createQ, putQ, takeQ]).queues =
        [⟨0, 0, 1, [⟨1, 2, 0, 2, none, none⟩], [42, 92, 42, 81]⟩] := by decide
    obtain rfl := mem_singleton.mp hq
    obtain rfl := mem_singleton.mp hr
    rfl
  · simp at hsplit

/-- The server after `n` requests of one process that nobody takes. -/
def filled (n : Nat) : Server :=
  ⟨n + 1, n + 1, [⟨0, 0, 1, (List.range n).map fun i => ⟨i + 1, 2, 0, i + 2, some [7], none⟩,
    [42, 92, 42, 81]⟩]⟩

theorem putQ_filled (n : Nat) :
    (step Text.asciiLower putQ (filled n)).1 =
      ⟨n + 2, skipReserved 2 ((n + 2) % 2 ^ 32), [⟨0, 0, 1,
        ((List.range n).map fun i => ⟨i + 1, 2, 0, i + 2, some [7], none⟩) ++
          [⟨n + 1, 2, 0, (n + 2) % 2 ^ 32, some [7], none⟩], [42, 92, 42, 81]⟩]⟩ := rfl

theorem after_filled : ∀ n, n + 1 ≤ 2 ^ 32 - 2 →
    after Text.asciiLower (createQ :: List.replicate n putQ) = filled n
  | 0, _ => by decide
  | n + 1, h => by
    have hid : (n + 2) % 2 ^ 32 = n + 2 := Nat.mod_eq_of_lt (by omega)
    rw [replicate_succ', ← cons_append, after_concat, after_filled n (by omega),
      putQ_filled, hid, skipReserved_of_free (by omega) (by omega), filled, range_succ,
      map_append]
    rfl

/-- A request gets the reserved number when the counter has gone through all the others; and
a second reply for a request is a success, and takes the place of the first. -/
theorem ids_broken :
    (∃ msgs, ∃ r ∈ requestsOf (after Text.asciiLower msgs), r.requestId = 2 ^ 32 - 1) ∧
      requestsOf (after Text.asciiLower [createQ, putQ, takeQ, answerQ 5]) =
        [⟨1, 2, 0, 2, none, some [5]⟩] ∧
      (step Text.asciiLower (answerQ 6)
        (after Text.asciiLower [createQ, putQ, takeQ, answerQ 5])).2 = .short statusSuccess ∧
      requestsOf (after Text.asciiLower [createQ, putQ, takeQ, answerQ 5, answerQ 6]) =
        [⟨1, 2, 0, 2, none, some [6]⟩] := by
  refine ⟨⟨createQ :: List.replicate (2 ^ 32 - 3) putQ ++ [putQ], ?_⟩, by decide, by decide,
    by decide⟩
  rw [after_concat, after_filled _ (by omega), putQ_filled]
  refine ⟨⟨2 ^ 32 - 3 + 1, 2, 0, (2 ^ 32 - 3 + 2) % 2 ^ 32, some [7], none⟩, ?_, ?_⟩
  · rw [requestsOf, flatMap_singleton]
    exact mem_append_right _ mem_cons_self
  · decide

end Sandboxie.QueueServer
