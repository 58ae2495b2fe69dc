import Sandboxie.Dll.CallSvc

/-!
# Requests and replies stay in step

What one exchange of a clean call does to the service (`thread_collect`, `thread_reply`,
`thread_refused`), then the two loops of `SbieDll_CallServer` (`sendRequest_taken`,
`sendRequest_refused` and `collectReply_spec`), then a call, which begins and ends with the
service idle, and the run.
-/

namespace Sandboxie.CallSvc

open Bytes PipeServer List Option

section
variable {p : PortSize} {call : Call}

/-! ### Messages -/

theorem eight_le_dataMax (p : PortSize) : 8 ≤ p.dataMax := p.header_le

theorem eight_le_request (r : Request) : 8 ≤ r.bytes.length := r.header_le

theorem take_portMessage (stale : Nat → UInt8) (d : Chunk p) :
    (portMessage p stale d).data.take d.1.length = d.1 := by
  have htake := take_splice (b := (List.range p.dataMax).map stale) (d := d.1) (Nat.zero_le _)
  rw [Nat.zero_add, take_zero, nil_append] at htake
  exact htake

theorem length_chunk_le (sequence : UInt8) (first : Bool) (buf : List UInt8) :
    (chunk p sequence first buf).1.length = min p.dataMax buf.length := by
  cases first <;> simp [chunk]

theorem high_request (h : call.req.bytes.length < 2 ^ 24) : byteAt call.req.bytes 3 = 0 := by
  have hword : u32 call.req.bytes 0 < 2 ^ 24 := by
    rw [call.req.length_eq]
    exact h
  exact high_of_u32_lt hword

theorem take_firstData (h : call.req.bytes.length < 2 ^ 24) :
    (firstData (arrivalOf p call 0)).take (arrivalOf p call 0).dataLength =
      call.req.bytes.take p.dataMax := by
  have hlen : 3 < (call.req.bytes.take p.dataMax).length := by
    have := eight_le_dataMax p
    have := eight_le_request call.req
    rw [length_take]
    omega
  have hzero : byteAt (call.req.bytes.take p.dataMax) 3 = 0 := by
    have := eight_le_dataMax p
    rw [byteAt_take (by omega), high_request h]
  rw [firstData, take_set, arrivalOf]
  show (List.take (chunk p call.sequence _ _).1.length _).set 3 0 = _
  rw [take_portMessage]
  show (((call.req.bytes.drop (0 * p.dataMax)).take p.dataMax).set 3 call.sequence).set 3 0 = _
  rw [Nat.zero_mul, drop_zero, set_set]
  exact set_byteAt hlen hzero

theorem sequence_first : byteAt (arrivalOf p call 0).data 3 = call.sequence := by
  have hdata : 3 < (chunk p call.sequence true call.req.bytes).1.length := by
    have := eight_le_dataMax p
    have := eight_le_request call.req
    rw [length_chunk_le]
    omega
  have hmem := byteAt_splice_of_mem (d := (chunk p call.sequence true call.req.bytes).1)
    (Nat.zero_le ((List.range p.dataMax).map (call.exchanges 0).stale).length) hdata
  have hset : byteAt (chunk p call.sequence true call.req.bytes).1 3 = call.sequence := by
    refine byteAt_set _ ?_
    rw [length_chunk_le] at hdata
    rw [length_take]
    exact hdata
  have harrival : arrivalOf p call 0 =
      portMessage p (call.exchanges 0).stale (chunk p call.sequence true call.req.bytes) := by
    rw [arrivalOf, Nat.zero_mul, drop_zero]
    rfl
  rw [Nat.zero_add, hset] at hmem
  rw [harrival]
  exact hmem

theorem take_arrivalOf (p : PortSize) (call : Call) {i : Nat} (h : 0 < i) :
    (arrivalOf p call i).data.take (arrivalOf p call i).dataLength =
      (call.req.bytes.drop (i * p.dataMax)).take p.dataMax := by
  rw [arrivalOf]
  show (List.take (chunk p call.sequence _ _).1.length _) = _
  rw [take_portMessage]
  have hfirst : decide (i = 0) = false := by simp; omega
  rw [hfirst]
  rfl

/-! ### The service during a request -/

/-- The service has the first `n` bytes of the request. -/
structure Collecting (call : Call) (n : Nat) (client : Client) : Prop where
  replying : client.replying = false
  sequence : client.sequence = call.sequence
  holds : ∃ hdr, client.bufHdr = some hdr ∧ client.bufPtr = n ∧
    hdr.size = call.req.bytes.length ∧ Holds hdr n (call.req.bytes.take n)

/-- What a chunk of a request leads to: the service waits for more, or it has called the
target with the request and begins to reply. -/
def AfterChunk (p : PortSize) (call : Call) (env : Environment) (n : Nat) (s : ThreadStep) : Prop :=
  (n < call.req.bytes.length ∧ s.called = none ∧ s.reply = [] ∧ Collecting call n s.client) ∨
    (call.req.bytes.length ≤ n ∧ ∃ m client, s.called = some m ∧ m.message = call.req.bytes ∧
      client.sequence = call.sequence ∧
      (s.reply, s.client) = portReply p.dataMax (finish client (callTarget env m)))

variable {client : Client} {env : Environment}

/-- **One chunk of a request** that is collected where the chunks before it end. -/
theorem thread_collect {msg : PortMessage p.dataMax}
    (client' : Client) (hdr : Buffer) {n : Nat} (hreplying : client.replying = false)
    (hrequest : portRequest env msg client =
      collect env client' hdr n ((call.req.bytes.drop n).take p.dataMax))
    (hreplying' : client'.replying = false) (hsequence : client'.sequence = call.sequence)
    (hn : n < call.req.bytes.length) (hsize : hdr.size = call.req.bytes.length)
    (hlt : call.req.bytes.length < 2 ^ 24) (hlength : hdr.length = hdr.size)
    (hrepeats : ∀ i < ((call.req.bytes.drop n).take p.dataMax).length, n + i < 4 →
      byteAt ((call.req.bytes.drop n).take p.dataMax) i = byteAt hdr.bytes (n + i))
    (htake : hdr.bytes.take n = call.req.bytes.take n) (hguard : hdr.Guarded) :
    ∃ s, thread env msg client = some s ∧ AfterChunk p call env (n + p.dataMax) s := by
  have hchunk : ((call.req.bytes.drop n).take p.dataMax).length =
      min p.dataMax (call.req.bytes.length - n) := by
    rw [length_take, length_drop]
  have hpos := eight_le_dataMax p
  have hfits : n + ((call.req.bytes.drop n).take p.dataMax).length ≤ hdr.size := by omega
  obtain ⟨r, hr, _, hcase⟩ := collect_spec env client' hfits (by omega) hlength hrepeats htake
    hguard
  have happend : call.req.bytes.take n ++ (call.req.bytes.drop n).take p.dataMax =
      call.req.bytes.take (n + p.dataMax) := by
    rw [take_add]
  rw [happend] at hcase
  unfold thread
  simp only [hreplying, hrequest, hr, Bool.false_eq_true, if_false]
  rcases hcase with ⟨hcalled, hdr', hclient, hsize', hholds⟩ | ⟨hend, m, hcalled, hclient, hm⟩
  · -- there is more to come
    have hlt' : n + ((call.req.bytes.drop n).take p.dataMax).length < call.req.bytes.length := by
      have := hholds.pos_lt
      omega
    have hnext : n + ((call.req.bytes.drop n).take p.dataMax).length = n + p.dataMax := by omega
    rw [hnext] at hholds hclient hlt'
    rw [hclient]
    simp only [hreplying', Bool.false_eq_true, if_false]
    refine ⟨_, rfl, .inl ⟨hlt', hcalled, rfl, rfl, hsequence, hdr', rfl, rfl, ?_, hholds⟩⟩
    rw [hsize', hsize]
  · -- the request is there
    rw [hclient]
    refine ⟨_, rfl, .inr ⟨by omega, m, client', hcalled, ?_, hsequence, rfl⟩⟩
    rw [hm.2.1]
    exact take_of_length_le (by omega)

/-- The service is idle in front of the first chunk, and has the chunks before another. -/
def Ready (p : PortSize) (call : Call) (i : Nat) (client : Client) : Prop :=
  (i = 0 ∧ client.replying = false ∧ client.bufHdr = none) ∨
    (0 < i ∧ Collecting call (i * p.dataMax) client)

theorem thread_first (hreplying : client.replying = false)
    (hnone : client.bufHdr = none) (htaken : Taken p call 0)
    (hlt : call.req.bytes.length < 2 ^ 24) :
    ∃ s, thread (call.exchanges 0).env (arrivalOf p call 0) client = some s ∧
      AfterChunk p call (call.exchanges 0).env (0 + p.dataMax) s := by
  obtain ⟨haccepts, hmemory⟩ := htaken
  obtain ⟨memory, hmemory⟩ := ne_none_iff_exists'.mp hmemory
  have hpos := eight_le_dataMax p
  have hreq := eight_le_request call.req
  have hdata := take_firstData (p := p) hlt
  have hword : u32 (firstData (arrivalOf p call 0)) 0 = call.req.bytes.length := by
    have hlen : 0 + 4 ≤ (arrivalOf p call 0).dataLength := by
      show 0 + 4 ≤ (chunk p call.sequence _ _).1.length
      rw [length_chunk_le, Nat.zero_mul, drop_zero]
      omega
    rw [← u32_take hlen, hdata, u32_take (by omega), call.req.length_eq]
  refine thread_collect { client with sequence := byteAt (arrivalOf p call 0).data 3 }
    (Buffer.alloc memory call.req.bytes.length) hreplying ?_ hreplying sequence_first (by omega)
    rfl hlt (alloc_length memory hreq (by omega)) ?_ ?_ (alloc_guarded _ _)
  · rw [portRequest, hnone]
    simp only [if_pos haccepts, hmemory, map_some, hword, hdata, drop_zero]
  · intro i hi hi4
    rw [Nat.zero_add] at hi4 ⊢
    rw [drop_zero, byteAt_take (by omega), byteAt_alloc memory hreq hi4,
      ← call.req.length_eq, byteAt_ofU32_u32 _ hi4]
  · rw [take_zero, take_zero]

theorem thread_later {i : Nat} (hi : 0 < i)
    (hin : i * p.dataMax < call.req.bytes.length) (hlt : call.req.bytes.length < 2 ^ 24)
    (h : Collecting call (i * p.dataMax) client) :
    ∃ s, thread (call.exchanges i).env (arrivalOf p call i) client = some s ∧
      AfterChunk p call (call.exchanges i).env (i * p.dataMax + p.dataMax) s := by
  obtain ⟨hdr, hsome, hptr, hsize, hholds⟩ := h.holds
  have hpos := eight_le_dataMax p
  have hge : p.dataMax ≤ i * p.dataMax := Nat.le_mul_of_pos_left _ hi
  have hlen : (arrivalOf p call i).dataLength =
      ((call.req.bytes.drop (i * p.dataMax)).take p.dataMax).length := by
    show (chunk p call.sequence _ _).1.length = _
    rw [length_chunk_le, length_take]
  have hle : ((call.req.bytes.drop (i * p.dataMax)).take p.dataMax).length ≤
      call.req.bytes.length - i * p.dataMax := by
    rw [length_take, length_drop]
    omega
  refine thread_collect client hdr h.replying ?_ h.replying h.sequence hin hsize hlt
    hholds.length_eq ?_ hholds.take_eq hholds.guarded
  · have hdata := take_arrivalOf p call hi
    have hfits : ¬ hdr.length < (client.bufPtr + (arrivalOf p call i).dataLength) % 2 ^ 32 := by
      rw [hptr, hlen, hholds.length_eq, hsize, Nat.mod_eq_of_lt] <;> omega
    rw [portRequest, hsome]
    dsimp only
    rw [if_neg hfits, hdata, hptr]
  · intro j _ hj
    omega

theorem thread_chunk {i : Nat} (htaken : Taken p call 0)
    (hin : i * p.dataMax < call.req.bytes.length) (hlt : call.req.bytes.length < 2 ^ 24)
    (h : Ready p call i client) :
    ∃ s, thread (call.exchanges i).env (arrivalOf p call i) client = some s ∧
      AfterChunk p call (call.exchanges i).env (i * p.dataMax + p.dataMax) s := by
  rcases h with ⟨rfl, hreplying, hnone⟩ | ⟨hi, hcollecting⟩
  · rw [Nat.zero_mul]
    exact thread_first hreplying hnone htaken hlt
  · exact thread_later hi hin hlt hcollecting

theorem thread_refused {i : Nat} (hreplying : client.replying = false)
    (hnone : client.bufHdr = none) (h : ¬ Taken p call i) :
    ∃ client', client'.replying = false ∧ client'.bufHdr = none ∧
      thread (call.exchanges i).env (arrivalOf p call i) client =
        some ⟨client', [], none, none⟩ := by
  have hrequest : portRequest (call.exchanges i).env (arrivalOf p call i) client =
      some ⟨finish { client with sequence := 0 } none, none, none⟩ := by
    rw [portRequest, hnone]
    by_cases haccepts : Accepts (arrivalOf p call i)
    · have hmemory : (call.exchanges i).env.memory = none :=
        Classical.byContradiction fun hmemory => h ⟨haccepts, hmemory⟩
      simp only [if_pos haccepts, hmemory, map_none]
    · simp only [if_neg haccepts]
  unfold thread
  simp only [hreplying, hrequest, Bool.false_eq_true, if_false]
  exact ⟨_, rfl, rfl, rfl⟩

/-! ### The service during a reply -/

/-- The service has sent the first `n` bytes of the reply `b`. -/
def Replying (b : Buffer) (n : Nat) (client : Client) : Prop :=
  (b.size ≤ n ∧ client.replying = false ∧ client.bufHdr = none) ∨
    (n < b.size ∧ client.replying = true ∧ client.bufHdr = some b ∧ client.bufPtr = n)

theorem portReply_spec {b : Buffer} {n : Nat} (hsome : client.bufHdr = some b)
    (hptr : client.bufPtr = n) (hreplying : client.replying = true) (hlength : b.length = b.size)
    (hsize : b.size < 2 ^ 24) (hn : n ≤ b.size) :
    (portReply p.dataMax client).1 =
        (if n = 0 then (b.message.take p.dataMax).set 3 client.sequence
          else (b.message.drop n).take p.dataMax) ∧
      Replying b (n + p.dataMax) (portReply p.dataMax client).2 := by
  have hlen : min ((b.size + 2 ^ 32 - n) % 2 ^ 32) p.dataMax = min (b.size - n) p.dataMax := by
    omega
  have hdata : (b.bytes.drop n).take (min (b.size - n) p.dataMax) =
      (b.message.drop n).take p.dataMax := by
    rw [Buffer.message, drop_take, take_take, Nat.min_comm]
  unfold portReply
  rw [hsome]
  simp only [hptr, hlength, hlen, hdata]
  have hdm := eight_le_dataMax p
  by_cases hend : b.size ≤ n + p.dataMax
  · rw [if_pos (by omega)]
    refine ⟨?_, .inl ⟨hend, rfl, rfl⟩⟩
    by_cases hzero : n = 0
    · rw [if_pos hzero, if_pos hzero, hzero, drop_zero]
    · rw [if_neg hzero, if_neg hzero]
  · rw [if_neg (by omega)]
    refine ⟨?_, .inr ⟨by omega, hreplying, rfl, ?_⟩⟩
    · by_cases hzero : n = 0
      · rw [if_pos hzero, if_pos hzero, hzero, drop_zero]
      · rw [if_neg hzero, if_neg hzero]
    · show n + min (b.size - n) p.dataMax = n + p.dataMax
      omega

/-! ### Sending the request -/

theorem requestWaitReplyPort_cases {exchanges : Nat → Exchange} {data : Chunk p} {wire : Wire}
    {s : ThreadStep} (henv : (exchanges wire.made).env = env)
    (h : thread env (portMessage p (exchanges wire.made).stale data) wire.client = some s) :
    (∃ wire', requestWaitReplyPort p exchanges data wire = some (wire', none) ∧
        ∀ h ∈ wire'.handed, h ∈ wire.handed ∨ s.called = some h.1) ∨
      ((exchanges wire.made).fate = .answered ∧
        requestWaitReplyPort p exchanges data wire = some (⟨s.client, wire.made + 1,
          wire.handed ++ s.called.toList.map fun m => (m, callTarget env m)⟩, some s.reply)) := by
  subst henv
  unfold requestWaitReplyPort
  by_cases hlost : (exchanges wire.made).fate = .lost
  · refine .inl ⟨{ wire with made := wire.made + 1 }, ?_, fun h hh => .inl hh⟩
    simp only [if_pos hlost]
  simp only [if_neg hlost, h]
  by_cases hanswered : (exchanges wire.made).fate = .answered
  · exact .inr ⟨hanswered, by rw [if_pos hanswered]⟩
  · refine .inl ⟨_, by rw [if_neg hanswered], ?_⟩
    intro h hh
    rcases mem_append.mp hh with hh | hh
    · exact .inl hh
    · obtain ⟨m, hm, rfl⟩ := mem_map.mp hh
      exact .inr (mem_toList.mp hm)

/-- What sending a clean request comes to. -/
def Delivered (p : PortSize) (call : Call) : Sent → Prop
  | .failed wire => ∀ h ∈ wire.handed, h.1.message = call.req.bytes
  | .early _ => False
  | .done wire msg => ∃ m client,
      let reply :=
        callTarget (call.exchanges ((call.req.bytes.length - 1) / p.dataMax)).env m
      wire.handed = [(m, reply)] ∧ m.message = call.req.bytes ∧
        client.sequence = call.sequence ∧
        (msg, wire.client) = portReply p.dataMax (finish client reply)

theorem sendRequest_taken (htaken : Taken p call 0) (hlt : call.req.bytes.length < 2 ^ 24) :
    ∀ (fuel i : Nat) (wire : Wire), wire.made = i → wire.handed = [] →
      i * p.dataMax < call.req.bytes.length → call.req.bytes.length - i * p.dataMax ≤ fuel →
      Ready p call i wire.client →
      ∃ r, sendRequest p call fuel (i = 0) (call.req.bytes.drop (i * p.dataMax)) wire = some r ∧
        Delivered p call r := by
  intro fuel
  induction fuel with
  | zero =>
    intro i wire _ _ hin hfuel
    omega
  | succ fuel ih =>
    intro i wire hmade hhanded hin hfuel hready
    have hdm := eight_le_dataMax p
    obtain ⟨s, hs, hafter⟩ := thread_chunk htaken hin hlt hready
    have hcalled : ∀ m, s.called = some m → m.message = call.req.bytes := by
      intro m hm
      rcases hafter with ⟨_, hnone, _⟩ | ⟨_, m', _, hsome, hmessage, _⟩
      · rw [hnone] at hm
        cases hm
      · rw [hsome] at hm
        cases hm
        exact hmessage
    subst hmade
    have hnext : (call.req.bytes.drop (wire.made * p.dataMax)).drop p.dataMax =
        call.req.bytes.drop ((wire.made + 1) * p.dataMax) := by
      rw [drop_drop, Nat.add_mul, Nat.one_mul]
    rcases requestWaitReplyPort_cases rfl hs with ⟨wire', hw, hhanded'⟩ | ⟨_, hw⟩
    · refine ⟨.failed wire', ?_, ?_⟩
      · rw [sendRequest]
        simp only [hw]
      · intro h hh
        rcases hhanded' h hh with hh | hh
        · rw [hhanded] at hh
          cases hh
        · exact hcalled h.1 hh
    · rw [sendRequest]
      simp only [hw, hnext, hhanded, nil_append]
      rcases hafter with ⟨hmore, hnone, hreply, hcollecting⟩ |
        ⟨hend, m, client, hsome, hm, hseq, hrep⟩
      · have hlt' : (wire.made + 1) * p.dataMax < call.req.bytes.length := by
          rw [Nat.add_mul, Nat.one_mul]
          exact hmore
        have hrest : call.req.bytes.drop ((wire.made + 1) * p.dataMax) ≠ [] := by
          intro h
          have := drop_eq_nil_iff.mp h
          omega
        rw [if_neg hrest, hreply, if_neg (by simp), hnone]
        have hstep := ih (wire.made + 1) ⟨s.client, wire.made + 1, []⟩ rfl rfl hlt'
          (by rw [Nat.add_mul, Nat.one_mul]; omega)
          (.inr ⟨by omega, by rw [Nat.add_mul, Nat.one_mul]; exact hcollecting⟩)
        exact hstep
      · have hrest : call.req.bytes.drop ((wire.made + 1) * p.dataMax) = [] := by
          rw [Nat.add_mul, Nat.one_mul]
          exact drop_of_length_le hend
        have hlast : (call.req.bytes.length - 1) / p.dataMax = wire.made := by
          refine Nat.div_eq_of_lt_le (by omega) ?_
          rw [Nat.add_mul, Nat.one_mul]
          omega
        rw [if_pos hrest, hsome]
        refine ⟨_, rfl, m, client, ?_⟩
        rw [hlast]
        exact ⟨rfl, hm, hseq, hrep⟩

/-- What sending a request comes to that the service refuses. -/
def Refused : Sent → Prop
  | .failed wire => wire.handed = []
  | .early _ => False
  | .done wire msg => wire.handed = [] ∧ msg = [] ∧ wire.client.replying = false ∧
      wire.client.bufHdr = none

theorem sendRequest_refused (hrefused : ∀ i, i * p.dataMax < call.req.bytes.length →
      (∀ j < i, (call.exchanges j).fate = .answered) → ¬ Taken p call i) :
    ∀ (fuel i : Nat) (wire : Wire), wire.made = i → wire.handed = [] →
      i * p.dataMax < call.req.bytes.length → call.req.bytes.length - i * p.dataMax ≤ fuel →
      (∀ j < i, (call.exchanges j).fate = .answered) →
      wire.client.replying = false → wire.client.bufHdr = none →
      ∃ r, sendRequest p call fuel (i = 0) (call.req.bytes.drop (i * p.dataMax)) wire = some r ∧
        Refused r := by
  intro fuel
  induction fuel with
  | zero =>
    intro i wire _ _ hin hfuel
    omega
  | succ fuel ih =>
    intro i wire hmade hhanded hin hfuel hbefore hreplying hnone
    have hdm := eight_le_dataMax p
    obtain ⟨client, hreplying', hnone', hs⟩ :=
      thread_refused hreplying hnone (hrefused i hin hbefore)
    subst hmade
    have hnext : (call.req.bytes.drop (wire.made * p.dataMax)).drop p.dataMax =
        call.req.bytes.drop ((wire.made + 1) * p.dataMax) := by
      rw [drop_drop, Nat.add_mul, Nat.one_mul]
    rcases requestWaitReplyPort_cases rfl hs with ⟨wire', hw, hhanded'⟩ | ⟨hanswered, hw⟩
    · refine ⟨.failed wire', ?_, ?_⟩
      · rw [sendRequest]
        simp only [hw]
      · refine eq_nil_iff_forall_not_mem.mpr fun h hh => ?_
        rcases hhanded' h hh with hh | hh
        · rw [hhanded] at hh
          cases hh
        · cases hh
    · rw [sendRequest]
      simp only [hw, hnext, hhanded, nil_append, toList_none, map_nil]
      by_cases hrest : call.req.bytes.drop ((wire.made + 1) * p.dataMax) = []
      · rw [if_pos hrest]
        exact ⟨_, rfl, rfl, rfl, hreplying', hnone'⟩
      have hlt' : (wire.made + 1) * p.dataMax < call.req.bytes.length := by
        have := mt drop_of_length_le hrest
        omega
      rw [if_neg hrest, if_neg (by simp)]
      have hbefore' : ∀ j < wire.made + 1, (call.exchanges j).fate = .answered := by
        intro j hj
        by_cases heq : j = wire.made
        · rw [heq]
          exact hanswered
        · exact hbefore j (by omega)
      exact ih (wire.made + 1) ⟨client, wire.made + 1, []⟩ rfl rfl hlt'
        (by rw [Nat.add_mul, Nat.one_mul]; omega) hbefore' hreplying' hnone'

/-! ### Collecting the reply -/

theorem thread_reply {msg : PortMessage p.dataMax}
    (h : client.replying = true) : thread env msg client =
      some ⟨(portReply p.dataMax client).2, (portReply p.dataMax client).1, none, none⟩ := by
  unfold thread
  simp only [h, if_true]

theorem collectReply_spec (call : Call) {b : Buffer} (hlength : b.length = b.size)
    (hsize : b.size < 2 ^ 24) :
    ∀ (fuel n : Nat) (wire : Wire), n < b.size → b.size - n ≤ fuel →
      Replying b (n + p.dataMax) wire.client →
      ∃ o, collectReply p call b.size fuel (b.message.take n) ((b.message.drop n).take p.dataMax)
          wire = some o ∧ (∀ h ∈ o.handed, h ∈ wire.handed) ∧ Idle o.port ∧
        ∀ rpl, o.reply = some rpl → rpl = b.message ∧ o.handed = wire.handed := by
  intro fuel
  induction fuel with
  | zero =>
    intro n wire hn hfuel
    omega
  | succ fuel ih =>
    intro n wire hn hfuel hreplying
    have hdm := eight_le_dataMax p
    have hmessage : b.message.length = b.size := by
      rw [Buffer.message, length_take, b.length_bytes]
      omega
    have hgot : (b.message.take n).length + ((b.message.drop n).take p.dataMax).length =
        min b.size (n + p.dataMax) := by
      rw [length_take, length_take, length_drop, hmessage]
      omega
    have happend : b.message.take n ++ (b.message.drop n).take p.dataMax =
        b.message.take (n + p.dataMax) := by
      rw [take_add]
    rw [collectReply, if_neg (by omega)]
    simp only [happend]
    rcases hreplying with ⟨hend, hidle, hnone⟩ | ⟨hmore, hreply, hsome, hptr⟩
    · rw [if_pos (by rw [length_take]; omega)]
      refine ⟨_, rfl, fun h hh => hh, ?_, ?_⟩
      · intro client hclient
        cases hclient
        exact ⟨hidle, hnone⟩
      · intro rpl hrpl
        cases hrpl
        exact ⟨take_of_length_le (by omega), rfl⟩
    · rw [if_neg (by rw [length_take]; omega)]
      obtain ⟨hdata, hnext⟩ :=
        portReply_spec (p := p) hsome hptr hreply hlength hsize (by omega)
      rw [if_neg (by omega)] at hdata
      have hs : thread (call.exchanges wire.made).env (portMessage p
          (call.exchanges wire.made).stale ⟨[], Nat.zero_le _⟩) wire.client = _ :=
          thread_reply hreply
      rcases requestWaitReplyPort_cases rfl hs with ⟨wire', hw, hhanded'⟩ | ⟨_, hw⟩
      · simp only [hw]
        refine ⟨_, rfl, ?_, ?_, ?_⟩
        · intro h hh
          exact (hhanded' h hh).resolve_right (by simp)
        · intro client hclient
          cases hclient
        · intro rpl hrpl
          cases hrpl
      · simp only [hw, hdata, toList_none, map_nil, append_nil]
        exact ih (n + p.dataMax) ⟨_, wire.made + 1, wire.handed⟩ hmore (by omega) hnext

theorem length_message (b : Buffer) : b.message.length = b.size := by
  rw [Buffer.message, length_take, b.length_bytes]
  omega

/-- **The first chunk of a reply** gives the sequence number, and without it the length. -/
theorem firstReply {b : Buffer} (sequence : UInt8) (hlength : b.length = b.size)
    (hsize : b.size < 2 ^ 24) (h8 : 8 ≤ (b.message.take p.dataMax).length) :
    byteAt ((b.message.take p.dataMax).set 3 sequence) 3 = sequence ∧
      ((b.message.take p.dataMax).set 3 sequence).set 3 0 = b.message.take p.dataMax ∧
      u32 (b.message.take p.dataMax) 0 = b.size := by
  have hmessage := length_message b
  rw [length_take, hmessage] at h8
  have hlen : 3 < (b.message.take p.dataMax).length := by
    rw [length_take, hmessage]
    omega
  have hword : u32 b.bytes 0 < 2 ^ 24 := by
    show b.length < 2 ^ 24
    omega
  have hhigh : byteAt b.bytes 3 = 0 := high_of_u32_lt hword
  refine ⟨byteAt_set _ hlen, ?_, ?_⟩
  · rw [set_set]
    refine set_byteAt hlen ?_
    rw [byteAt_take (by omega), Buffer.message, byteAt_take (by omega), hhigh]
  · rw [u32_take (by omega), Buffer.message, u32_take (by omega)]
    exact hlength

theorem inspectReply_spec {fuel : Nat} (hfuel : 2 ^ 24 ≤ fuel) (hfits : ReplyFits p call)
    {wire : Wire} {msg : List UInt8} (h : Delivered p call (.done wire msg)) :
    ∃ o, inspectReply p fuel call wire msg = some o ∧ InStep call o ∧ Idle o.port := by
  obtain ⟨m, client, hhanded, hm, hseq, hreply⟩ := h
  have hmsg := congrArg Prod.fst hreply
  have hclient := congrArg Prod.snd hreply
  have hrequest : ∀ h ∈ wire.handed, h.1.message = call.req.bytes := by
    intro h hh
    rw [hhanded] at hh
    rw [mem_singleton.mp hh]
    exact hm
  have hnull : (wire.client.replying = false ∧ wire.client.bufHdr = none) →
      ∀ o, o = Outcome.mk (some wire.client) wire.handed none → InStep call o ∧ Idle o.port := by
    intro hidle o ho
    subst ho
    refine ⟨⟨hrequest, fun rpl hrpl => by cases hrpl⟩, ?_⟩
    intro c hc
    cases hc
    exact hidle
  cases hb : callTarget (call.exchanges ((call.req.bytes.length - 1) / p.dataMax)).env m with
  | none =>
    rw [hb] at hmsg hclient
    have hempty : msg = [] := hmsg
    rw [inspectReply, hempty, if_neg (by simp)]
    refine ⟨_, rfl, hnull ?_ _ rfl⟩
    rw [show wire.client = _ from hclient]
    exact ⟨rfl, rfl⟩
  | some b =>
    rw [hb] at hmsg hclient hhanded
    have hmessage := length_message b
    have hdm := eight_le_dataMax p
    obtain ⟨hlength, hsize⟩ := hfits m hm b hb
    obtain ⟨hdata, hnext⟩ := portReply_spec (p := p) (n := 0)
      (show (finish client (some b)).bufHdr = some b from rfl) rfl rfl hlength hsize (Nat.zero_le _)
    have hmsg' : msg = (b.message.take p.dataMax).set 3 call.sequence := by
      rw [← hseq]
      exact hmsg.trans hdata
    rw [← hclient] at hnext
    by_cases h8 : sizeofMsgHeader ≤ msg.length
    · have h8' : 8 ≤ (b.message.take p.dataMax).length := by
        rw [hmsg', length_set] at h8
        exact h8
      obtain ⟨hsequence, hset, hword⟩ := firstReply call.sequence hlength hsize h8'
      have hpos : 8 ≤ b.size := by
        rw [length_take] at h8'
        omega
      obtain ⟨o, ho, hsub, hidle, hrpl⟩ := collectReply_spec (p := p) call hlength hsize
        fuel 0 wire (by omega) (by omega) hnext
      refine ⟨o, ?_, ⟨?_, ?_⟩, hidle⟩
      · rw [take_zero, drop_zero] at ho
        rw [inspectReply, if_pos h8, hmsg', if_neg (by simp [hsequence])]
        simp only [hset, hword]
        rw [if_neg (by omega)]
        exact ho
      · intro h hh
        exact hrequest h (hsub h hh)
      · intro rpl hr
        obtain ⟨hrpl, hhanded'⟩ := hrpl rpl hr
        refine ⟨m, b, ?_, hrpl⟩
        rw [hhanded', hhanded]
        exact mem_singleton_self _
    · -- a reply shorter than a header is all there in its first chunk
      rw [inspectReply, if_neg h8]
      refine ⟨_, rfl, hnull ?_ _ rfl⟩
      rw [hmsg', length_set, length_take] at h8
      rcases hnext with ⟨_, hidle⟩ | ⟨hmore, _⟩
      · exact hidle
      · exfalso
        have : ¬ 8 ≤ min p.dataMax b.message.length := h8
        omega

/-! ### Calls -/

/-- **A clean call** over an idle connection leaves it idle, and is in step. -/
theorem callServer_inStep {fuel : Nat} (hfuel : 2 ^ 24 ≤ fuel) (hclean : Clean p call)
    {port : Option Client} (hidle : Idle port) :
    ∃ o, callServer p fuel call port = some o ∧ InStep call o ∧ Idle o.port := by
  have hclosed : ∀ o : Outcome, o.port = none → o.reply = none →
      (∀ h ∈ o.handed, h.1.message = call.req.bytes) → InStep call o ∧ Idle o.port := by
    intro o hport hreply hhanded
    refine ⟨⟨hhanded, ?_⟩, ?_⟩
    · intro rpl hrpl
      rw [hreply] at hrpl
      cases hrpl
    · intro c hc
      rw [hport] at hc
      cases hc
  have hpos := eight_le_request call.req
  unfold callServer
  cases hconnect : connectPort call port with
  | none => exact ⟨_, rfl, hclosed _ rfl rfl (fun h hh => (not_mem_nil hh).elim)⟩
  | some client =>
    have hclient : client.replying = false ∧ client.bufHdr = none := by
      cases port with
      | some c =>
        obtain rfl := Option.some.inj hconnect
        exact hidle c rfl
      | none =>
        unfold connectPort at hconnect
        by_cases hconnects : call.connects = true
        · rw [if_pos hconnects] at hconnect
          cases hconnect
          exact ⟨rfl, rfl⟩
        · rw [if_neg hconnects] at hconnect
          cases hconnect
    have hstart : 0 * p.dataMax < call.req.bytes.length := by omega
    have hfirst : call.req.bytes = call.req.bytes.drop (0 * p.dataMax) := by
      rw [Nat.zero_mul, drop_zero]
    rcases hclean with ⟨htaken, hlt, hfits⟩ | hrefused
    · obtain ⟨r, hr, hdelivered⟩ := sendRequest_taken htaken hlt call.req.bytes.length 0
        ⟨client, 0, []⟩ rfl rfl hstart (by omega) (.inl ⟨rfl, hclient⟩)
      rw [← hfirst] at hr
      simp only [show sendRequest p call call.req.bytes.length true call.req.bytes
        ⟨client, 0, []⟩ = some r from hr]
      cases r with
      | failed wire => exact ⟨_, rfl, hclosed _ rfl rfl hdelivered⟩
      | early wire => exact hdelivered.elim
      | done wire msg => exact inspectReply_spec hfuel hfits hdelivered
    · obtain ⟨r, hr, hdone⟩ := sendRequest_refused hrefused call.req.bytes.length 0
        ⟨client, 0, []⟩ rfl rfl hstart (by omega) (fun j hj => (Nat.not_lt_zero j hj).elim)
        hclient.1 hclient.2
      rw [← hfirst] at hr
      simp only [show sendRequest p call call.req.bytes.length true call.req.bytes
        ⟨client, 0, []⟩ = some r from hr]
      cases r with
      | failed wire =>
        refine ⟨_, rfl, hclosed _ rfl rfl ?_⟩
        rw [show wire.handed = [] from hdone]
        exact fun h hh => (not_mem_nil hh).elim
      | early wire => exact hdone.elim
      | done wire msg =>
        obtain ⟨hhanded, hmsg, hidle'⟩ := hdone
        show ∃ o, inspectReply p fuel call wire msg = some o ∧ _
        rw [inspectReply, hmsg, if_neg (by simp), hhanded]
        refine ⟨_, rfl, ⟨fun h hh => (not_mem_nil hh).elim, fun rpl hrpl => by cases hrpl⟩, ?_⟩
        intro c hc
        cases hc
        exact hidle'

theorem run_clean {fuel : Nat} (hfuel : 2 ^ 24 ≤ fuel) (calls : List Call) :
    ∀ {port : Option Client}, Idle port → (∀ c ∈ calls, Clean p c) →
      ∃ outcomes, run p fuel calls port = some outcomes ∧ ∀ o ∈ outcomes, InStep o.1 o.2 := by
  induction calls with
  | nil => exact fun _ _ => ⟨[], rfl, fun o ho => (not_mem_nil ho).elim⟩
  | cons call rest ih =>
    intro port hidle hclean
    obtain ⟨o, ho, hstep, hidle'⟩ :=
      callServer_inStep hfuel (hclean call mem_cons_self) hidle
    obtain ⟨outcomes, hrun, hall⟩ := ih hidle' fun c hc => hclean c (mem_cons_of_mem _ hc)
    refine ⟨(call, o) :: outcomes, ?_, ?_⟩
    · rw [run]
      simp only [ho, hrun, map_some]
    · intro x hx
      rcases mem_cons.mp hx with rfl | hx
      · exact hstep
      · exact hall x hx

/-- **Requests and replies stay in step** over all the clean calls of a thread: each of them
returns, a target gets no message but the request, and a reply that is returned is the
target's reply to it. -/
theorem run_inStep {fuel : Nat} (hfuel : 2 ^ 24 ≤ fuel) (calls : List Call)
    (hclean : ∀ c ∈ calls, Clean p c) :
    ∃ outcomes, run p fuel calls none = some outcomes ∧ ∀ o ∈ outcomes, InStep o.1 o.2 :=
  run_clean hfuel calls (fun c hc => by cases hc) hclean

end

def twelve : Exchange where
  env := ⟨some fun _ => 0, none, fun _ => some fun _ => some (Buffer.alloc (fun _ => 7) 12)⟩
  stale _ := 0
  fate := .answered

/-- A request of twelve bytes, in chunks of eight, with a reply of twelve bytes. -/
theorem run_inStep_twelve :
    ∃ outcomes, run ⟨8, by decide, by decide⟩ (2 ^ 24)
        [⟨⟨[12, 0, 0, 0, 1, 0, 0, 0, 1, 2, 3, 4], by decide, by decide⟩, 5, true, fun _ => twelve⟩]
        none = some outcomes ∧
      ∀ o ∈ outcomes, InStep o.1 o.2 := by
  refine run_inStep (Nat.le_refl _) _ fun c hc => ?_
  obtain rfl := mem_singleton.mp hc
  refine .inl ⟨⟨by decide, by decide⟩, by decide, ?_⟩
  intro m _ b hb
  by_cases hff : u32 m.bytes 4 % 2 ^ 8 ≠ 0xFF
  · simp only [callTarget, twelve, if_pos hff, Option.some.injEq] at hb
    rw [← hb]
    decide
  · simp only [callTarget, twelve, if_neg hff, allocShortMsg] at hb
    cases hb

def longRequest : Request where
  bytes := [0x20, 1, 0, 1, 1, 0, 0, 0] ++ List.replicate (2 ^ 24 + 280) 0
  header_le := by
    rw [List.length_append, List.length_replicate]
    decide
  length_eq := by
    rw [List.length_append, List.length_replicate]
    rfl

def servicePort : PortSize := ⟨288, by decide, by decide⟩

theorem length_longRequest : longRequest.bytes.length = 2 ^ 24 + 288 := by
  rw [← longRequest.length_eq]
  rfl

theorem callServer_early {p : PortSize} {wire : Wire} {msg : List UInt8} (call : Call)
    (fuel : Nat) (hconnects : call.connects = true) (hrest : call.req.bytes.drop p.dataMax ≠ [])
    (hmsg : msg ≠ [])
    (hw : requestWaitReplyPort p call.exchanges (chunk p call.sequence true call.req.bytes)
      ⟨portConnect, 0, []⟩ = some (wire, some msg)) :
    callServer p fuel call none = some ⟨some wire.client, wire.handed, none⟩ := by
  have hreq := eight_le_request call.req
  obtain ⟨n, hn⟩ := Nat.exists_eq_add_one_of_ne_zero (show call.req.bytes.length ≠ 0 by omega)
  simp only [callServer, connectPort, if_pos hconnects, hn, sendRequest, hw, if_neg hrest,
    if_pos hmsg]

theorem longRequest_first : ((requestWaitReplyPort servicePort (fun _ => twelve)
        (chunk servicePort 5 true longRequest.bytes) ⟨portConnect, 0, []⟩).bind fun r =>
      r.2.map fun msg => (msg.isEmpty, r.1.handed.map fun h => h.1.size)) =
        some (false, [288]) := by
  decide +kernel

theorem not_inStep_of_first {p : PortSize} {req : Request} {exchanges : Nat → Exchange}
    {sequence : UInt8} {fuel n : Nat} (hlt : p.dataMax < req.bytes.length)
    (hn : n < req.bytes.length)
    (hfirst : ((requestWaitReplyPort p exchanges (chunk p sequence true req.bytes)
        ⟨portConnect, 0, []⟩).bind fun r =>
      r.2.map fun msg => (msg.isEmpty, r.1.handed.map fun h => h.1.size)) = some (false, [n])) :
    ¬ ∃ outcomes, run p fuel [⟨req, sequence, true, exchanges⟩] none = some outcomes ∧
      ∀ o ∈ outcomes, InStep o.1 o.2 := by
  intro h
  obtain ⟨outcomes, hrun, hall⟩ := h
  have hrest : req.bytes.drop p.dataMax ≠ [] := by
    intro hnil
    have hle := drop_eq_nil_iff.mp hnil
    omega
  cases hw : requestWaitReplyPort p exchanges (chunk p sequence true req.bytes)
      ⟨portConnect, 0, []⟩ with
  | none =>
    rw [hw] at hfirst
    cases hfirst
  | some r =>
    obtain ⟨wire, answer⟩ := r
    rw [hw] at hfirst
    cases answer with
    | none => cases hfirst
    | some msg =>
      simp only [bind_some, map_some, Option.some.injEq, Prod.mk.injEq] at hfirst
      obtain ⟨hmsg, hhanded⟩ := hfirst
      have hmsg' : msg ≠ [] := by
        intro hnil
        rw [hnil] at hmsg
        cases hmsg
      have hcall := callServer_early ⟨req, sequence, true, exchanges⟩ fuel rfl hrest hmsg' hw
      rw [run, hcall] at hrun
      cases hrun
      have hstep := hall _ mem_cons_self
      obtain ⟨b, hb, hsize⟩ : ∃ b ∈ wire.handed, b.1.size = n :=
        mem_map.mp (by rw [hhanded]; exact mem_singleton_self _)
      have hmessage := congrArg List.length (hstep.1 b hb)
      rw [length_message, hsize] at hmessage
      have hle : n = req.bytes.length := hmessage
      omega

/-- The service takes the first chunk of a long request for all of it. -/
theorem run_not_inStep :
    ¬ ∀ (p : PortSize) (calls : List Call), ∃ outcomes,
      run p (2 ^ 24) calls none = some outcomes ∧ ∀ o ∈ outcomes, InStep o.1 o.2 := by
  intro h
  have hlen := length_longRequest
  refine not_inStep_of_first (p := servicePort) (n := 288) ?_ (by omega) longRequest_first (h _ _)
  show 288 < _
  omega

end Sandboxie.CallSvc
