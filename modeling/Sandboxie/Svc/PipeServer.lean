import Sandboxie.Lib.Bytes

/-!
# The service port

`core/svc/PipeServer.cpp`: what the service does with one message of a client.  The
message is a chunk of a request, or asks for the next chunk of a reply.

The bytes of a request go into a buffer of `AllocMsg`, whose length stands in the first
four bytes of the buffer itself, where the chunks are copied to.  `portRequest` is
`none` when a copy leaves the memory that was allocated.

`run_safe` says that this never happens to a client whose later chunks leave the length
field alone, and that the target then gets what the client has sent.  A chunk is a later
one with the length field still in front of it when the first was shorter than that field.
-/

namespace Sandboxie.PipeServer

open Bytes List

/-- `sizeof(MSG_HEADER)`: the length and the message id or status. -/
abbrev sizeofMsgHeader : Nat := 8

abbrev maxRequestLength : Nat := 0x40000000

abbrev tzuk : Nat := 0x786F6273

abbrev statusInvalidSystemService : Nat := 0xC000001C

/-! ### Messages in memory -/

/-- A message allocated by `AllocMsg`: `size` bytes and the two guard words. -/
structure Buffer where
  size : Nat
  bytes : List UInt8
  length_bytes : bytes.length = size + 8

namespace Buffer

/-- The length field of the `MSG_HEADER`. -/
def length (b : Buffer) : Nat := u32 b.bytes 0

def message (b : Buffer) : List UInt8 := b.bytes.take b.size

/-- `memcpy` into the message; `none` when it leaves the allocated memory. -/
def write (b : Buffer) (off : Nat) (d : List UInt8) : Option Buffer :=
  if h : off + d.length ≤ b.bytes.length then
    some ⟨b.size, splice b.bytes off d, (length_splice h).trans b.length_bytes⟩
  else none

/-- The bytes that `AllocMsg` leaves, where `memory` is what `Pool_Alloc` found. -/
def allocBytes (memory : Nat → UInt8) (length : Nat) : List UInt8 :=
  let buf := (List.range (length + 8)).map memory
  let buf := splice buf 0 (ofU32 length)
  let buf := splice buf 4 (ofU32 0)
  let buf := splice buf length (ofU32 0)
  splice buf (length + 4) (ofU32 tzuk)

theorem length_put {b : List UInt8} {length off n : Nat} (hb : b.length = length + 8)
    (hoff : off ≤ length + 4) : (splice b off (ofU32 n)).length = length + 8 := by
  rw [length_splice (by rw [hb, length_ofU32]; omega), hb]

theorem length_allocBytes (memory : Nat → UInt8) (length : Nat) :
    (allocBytes memory length).length = length + 8 := by
  refine length_put (length_put (length_put (length_put ?_ ?_) ?_) ?_) ?_
  · simp
  all_goals omega

/-- `AllocMsg` -/
def alloc (memory : Nat → UInt8) (length : Nat) : Buffer :=
  ⟨length, allocBytes memory length, length_allocBytes memory length⟩

/-- The guard words are in place, which is what `FreeMsg` checks. -/
def Guarded (b : Buffer) : Prop := b.bytes.drop b.size = ofU32 0 ++ ofU32 tzuk

end Buffer

/-- `CLIENT_THREAD`.  `buf_ptr` is an offset in the message, and zero where there is
none. -/
structure Client where
  replying : Bool
  sequence : UInt8
  bufHdr : Option Buffer
  bufPtr : Nat

/-- The client after `PortConnect`. -/
def portConnect : Client := ⟨false, 0, none, 0⟩

/-- A `PORT_MESSAGE` with the area that the data are received in: `dataLength` bytes of
it, a `USHORT`, are the message, the others are left from before. -/
structure PortMessage (dataMax : Nat) where
  data : List UInt8
  dataLength : Nat
  length_data : data.length = dataMax
  dataLength_le : dataLength ≤ dataMax
  dataLength_lt : dataLength < 2 ^ 16

/-- What happens around one message: the memory for a request and for a short message,
if it is there, and the handlers of the targets. -/
structure Environment where
  memory : Option (Nat → UInt8)
  shortMemory : Option (Nat → UInt8)
  target : Nat → Option (List UInt8 → Option Buffer)

def allocShortMsg (env : Environment) (status : Nat) : Option Buffer :=
  match env.shortMemory with
  | none => none
  | some memory => (Buffer.alloc memory sizeofMsgHeader).write 4 (ofU32 status)

/-- `CallTarget`.  A handler that raises an exception counts with the short message that
it is turned into. -/
def callTarget (env : Environment) (msg : Buffer) : Option Buffer :=
  let msgid := u32 msg.bytes 4
  let target := if msgid % 2 ^ 8 ≠ 0xFF then env.target (msgid - msgid % 2 ^ 8) else none
  match target with
  | none => allocShortMsg env statusInvalidSystemService
  | some handler => handler msg.message

/-! ### A chunk of a request -/

/-- One run of `PortRequest`: the client after it, the size of the message and the end of
the copy into it, and the message that the target was called with. -/
structure RequestStep where
  client : Client
  written : Option (Nat × Nat)
  called : Option Buffer

/-- `PortRequest` from `finish`. -/
def finish (client : Client) (buf : Option Buffer) : Client :=
  { client with bufHdr := buf, bufPtr := 0, replying := true }

/-- `PortRequest` from its `memcpy`. -/
def collect (env : Environment) (client : Client) (hdr : Buffer) (pos : Nat)
    (chunk : List UInt8) : Option RequestStep :=
  match hdr.write pos chunk with
  | none => none
  | some hdr =>
    let bufLen := pos + chunk.length
    if bufLen < hdr.length then
      some ⟨{ client with bufHdr := some hdr, bufPtr := bufLen }, some (hdr.size, bufLen), none⟩
    else some ⟨finish client (callTarget env hdr), some (hdr.size, bufLen), some hdr⟩

def firstData {dataMax : Nat} (msg : PortMessage dataMax) : List UInt8 := msg.data.set 3 0

def Accepts {dataMax : Nat} (msg : PortMessage dataMax) : Prop :=
  u32 msg.data 4 ≠ 0 ∧ u32 (firstData msg) 0 ≠ 0 ∧ u32 (firstData msg) 0 < maxRequestLength ∧
    sizeofMsgHeader ≤ u32 (firstData msg) 0 ∧ msg.dataLength ≤ u32 (firstData msg) 0

instance {dataMax : Nat} (msg : PortMessage dataMax) : Decidable (Accepts msg) :=
  inferInstanceAs (Decidable (_ ∧ _))

def portRequest {dataMax : Nat} (env : Environment) (msg : PortMessage dataMax)
    (client : Client) : Option RequestStep :=
  match client.bufHdr with
  | none =>
    let hdr :=
      if Accepts msg then
        env.memory.map fun memory => Buffer.alloc memory (u32 (firstData msg) 0)
      else none
    match hdr with
    | none => some ⟨finish { client with sequence := 0 } none, none, none⟩
    | some hdr =>
      collect env { client with sequence := byteAt msg.data 3 } hdr 0
        ((firstData msg).take msg.dataLength)
  | some hdr =>
    if hdr.length < (client.bufPtr + msg.dataLength) % 2 ^ 32 then
      some ⟨finish client none, none, none⟩
    else collect env client hdr client.bufPtr (msg.data.take msg.dataLength)

/-! ### A chunk of a reply -/

/-- `PortReply`: the data that it sends. -/
def portReply (dataMax : Nat) (client : Client) : List UInt8 × Client :=
  match client.bufHdr with
  | none => ([], { client with replying := false })
  | some hdr =>
    let bufLen := min ((hdr.length + 2 ^ 32 - client.bufPtr) % 2 ^ 32) dataMax
    let data := (hdr.bytes.drop client.bufPtr).take bufLen
    let data := if client.bufPtr = 0 then data.set 3 client.sequence else data
    let bufPtr := client.bufPtr + bufLen
    if hdr.length ≤ bufPtr then
      (data, { client with bufHdr := none, bufPtr := 0, replying := false })
    else (data, { client with bufPtr := bufPtr })

/-- What `Thread` does with one `LPC_REQUEST`. -/
structure ThreadStep where
  client : Client
  reply : List UInt8
  written : Option (Nat × Nat)
  called : Option Buffer

/-- The branch of `Thread` for an `LPC_REQUEST`. -/
def thread {dataMax : Nat} (env : Environment) (msg : PortMessage dataMax) (client : Client) :
    Option ThreadStep :=
  let request : Option RequestStep :=
    if client.replying then some ⟨client, none, none⟩ else portRequest env msg client
  match request with
  | none => none
  | some r =>
    if r.client.replying then
      let (reply, client) := portReply dataMax r.client
      some ⟨client, reply, r.written, r.called⟩
    else some ⟨r.client, [], r.written, r.called⟩

/-! ### Runs -/

/-- One message that arrives, with what is around it. -/
structure Arrival (dataMax : Nat) where
  env : Environment
  msg : PortMessage dataMax

/-- The chunks received of the message at hand, after one more message. -/
def nextReceived {dataMax : Nat} (client : Client) (msg : PortMessage dataMax)
    (received : List UInt8) : List UInt8 :=
  if client.replying then received
  else
    match client.bufHdr with
    | none => (firstData msg).take msg.dataLength
    | some _ => received ++ msg.data.take msg.dataLength

def run {dataMax : Nat} : List (Arrival dataMax) → Client → List UInt8 →
    Option (List (ThreadStep × List UInt8))
  | [], _, _ => some []
  | a :: rest, client, received =>
    match thread a.env a.msg client with
    | none => none
    | some s =>
      (run rest s.client (nextReceived client a.msg received)).map
        ((s, nextReceived client a.msg received) :: ·)

/-- The copy stays inside of the message, and a target gets a message whose length field
is right and that is what the client has sent. -/
def StepSafe (written : Option (Nat × Nat)) (called : Option Buffer) (received : List UInt8) :
    Prop :=
  (∀ w ∈ written, w.2 ≤ w.1) ∧
    ∀ m ∈ called, m.length = m.size ∧ m.message = received ∧ m.Guarded

/-- The part of a later chunk that falls on the length field repeats what is there. -/
def Repeats {dataMax : Nat} (a : Arrival dataMax) (client : Client) : Prop :=
  client.replying = false → ∀ hdr, client.bufHdr = some hdr →
    client.bufPtr + a.msg.dataLength ≤ hdr.length →
    ∀ i < a.msg.dataLength, client.bufPtr + i < 4 →
      byteAt a.msg.data i = byteAt hdr.bytes (client.bufPtr + i)

variable {dataMax : Nat} {client : Client} {a : Arrival dataMax}

theorem repeats_of_le (h : 4 ≤ client.bufPtr) : Repeats a client :=
  fun _ _ _ _ i _ hi => by omega

/-- No later chunk of a run changes a length field. -/
def RunRepeats {dataMax : Nat} : List (Arrival dataMax) → Client → Prop
  | [], _ => True
  | a :: rest, client =>
    Repeats a client ∧
      match thread a.env a.msg client with
      | none => True
      | some s => RunRepeats rest s.client

/-! ### What one chunk preserves -/

/-- A message of which `received` is there so far. -/
structure Holds (hdr : Buffer) (pos : Nat) (received : List UInt8) : Prop where
  pos_lt : pos < hdr.size
  size_lt : hdr.size < 2 ^ 24
  length_eq : hdr.length = hdr.size
  take_eq : hdr.bytes.take pos = received
  guarded : hdr.Guarded

/-- The client is replying, idle, or in the middle of a message that is sound. -/
def Good (client : Client) (received : List UInt8) : Prop :=
  client.replying = true ∨ client.bufHdr = none ∨
    ∃ hdr, client.bufHdr = some hdr ∧ Holds hdr client.bufPtr received

theorem good_portConnect : Good portConnect [] := .inr (.inl rfl)

theorem byteAt_alloc (memory : Nat → UInt8) {length i : Nat} (hlength : sizeofMsgHeader ≤ length)
    (hi : i < 4) : byteAt (Buffer.alloc memory length).bytes i = byteAt (ofU32 length) i := by
  have h8 : 8 ≤ length := hlength
  have hput : ∀ (b : List UInt8) (off n : Nat), b.length = length + 8 → 4 ≤ off →
      off ≤ length + 4 → byteAt (splice b off (ofU32 n)) i = byteAt b i :=
    fun b off n hb hoff hlt => byteAt_splice_of_lt (by omega) (by omega)
  have hmem : ((List.range (length + 8)).map memory).length = length + 8 := by simp
  have hfirst := Buffer.length_put (n := length) hmem (Nat.zero_le (length + 4))
  have hsecond := Buffer.length_put (n := 0) hfirst (show 4 ≤ length + 4 by omega)
  have hthird := Buffer.length_put (n := 0) hsecond (show length ≤ length + 4 by omega)
  show byteAt (Buffer.allocBytes memory length) i = _
  unfold Buffer.allocBytes
  rw [hput _ _ _ hthird (by omega) (by omega), hput _ _ _ hsecond (by omega) (by omega),
    hput _ _ _ hfirst (by omega) (by omega)]
  show byteAt _ i = byteAt _ i
  have h0 := byteAt_splice_of_mem (d := ofU32 length) (i := i) (Nat.zero_le
    ((List.range (length + 8)).map memory).length) hi
  rw [Nat.zero_add] at h0
  exact h0

theorem alloc_length (memory : Nat → UInt8) {length : Nat} (hlength : sizeofMsgHeader ≤ length)
    (hlt : length < 2 ^ 32) : (Buffer.alloc memory length).length = length := by
  have hword : u32 (Buffer.alloc memory length).bytes 0 = u32 (ofU32 length) 0 := by
    refine u32_congr fun i hi => ?_
    rw [Nat.zero_add]
    exact byteAt_alloc memory hlength hi
  exact hword.trans (u32_ofU32 hlt)

theorem alloc_guarded (memory : Nat → UInt8) (length : Nat) :
    (Buffer.alloc memory length).Guarded := by
  show (Buffer.allocBytes memory length).drop length = ofU32 0 ++ ofU32 tzuk
  generalize hb : splice (splice ((List.range (length + 8)).map memory) 0 (ofU32 length)) 4
    (ofU32 0) = b
  have hlen : b.length = length + 8 := by
    rw [← hb]
    exact Buffer.length_put (Buffer.length_put (by simp) (by omega)) (by omega)
  have hfirst : (splice b length (ofU32 0)).take (length + 4) = b.take length ++ ofU32 0 :=
    take_splice (d := ofU32 0) (by omega)
  show (splice _ (length + 4) (ofU32 tzuk)).drop length = _
  have hbehind : (splice b length (ofU32 0)).drop (length + 4 + (ofU32 tzuk).length) = [] := by
    refine drop_of_length_le ?_
    have hsplice := Buffer.length_put (n := 0) hlen (Nat.le_add_right length 4)
    have hword := length_ofU32 tzuk
    omega
  rw [hb, splice, hbehind, hfirst, append_nil, append_assoc,
    drop_left' (by rw [length_take]; omega)]

variable {hdr : Buffer} {received : List UInt8}

/-- **A chunk that fits** into a message whose length field it does not change. -/
theorem collect_spec (env : Environment) (client : Client) {pos : Nat}
    {chunk : List UInt8} (hfits : pos + chunk.length ≤ hdr.size)
    (hsize : hdr.size < 2 ^ 24) (hlength : hdr.length = hdr.size)
    (hrepeats : ∀ i < chunk.length, pos + i < 4 → byteAt chunk i = byteAt hdr.bytes (pos + i))
    (htake : hdr.bytes.take pos = received) (hguard : hdr.Guarded) :
    ∃ s, collect env client hdr pos chunk = some s ∧
      s.written = some (hdr.size, pos + chunk.length) ∧
      ((s.called = none ∧ ∃ hdr', s.client =
          { client with bufHdr := some hdr', bufPtr := pos + chunk.length } ∧
          hdr'.size = hdr.size ∧ Holds hdr' (pos + chunk.length) (received ++ chunk)) ∨
        pos + chunk.length = hdr.size ∧ ∃ m, s.called = some m ∧
          s.client = finish client (callTarget env m) ∧
          m.length = m.size ∧ m.message = received ++ chunk ∧ m.Guarded) := by
  have hin : pos + chunk.length ≤ hdr.bytes.length := by rw [hdr.length_bytes]; omega
  have hwrite : hdr.write pos chunk =
      some ⟨hdr.size, splice hdr.bytes pos chunk, (length_splice hin).trans hdr.length_bytes⟩ :=
    dif_pos hin
  have hlen : u32 (splice hdr.bytes pos chunk) 0 = hdr.size := by
    rw [u32_splice_of_repeats hin fun i hi _ hword => hrepeats i hi (by omega)]
    exact hlength
  have htake' : (splice hdr.bytes pos chunk).take (pos + chunk.length) = received ++ chunk := by
    rw [take_splice (by omega), htake]
  have hguard' : (splice hdr.bytes pos chunk).drop hdr.size = ofU32 0 ++ ofU32 tzuk := by
    rw [drop_splice hin hfits]
    exact hguard
  rw [collect, hwrite]
  simp only [Buffer.length, hlen]
  by_cases hlt : pos + chunk.length < hdr.size
  · rw [if_pos hlt]
    exact ⟨_, rfl, rfl, .inl ⟨rfl, _, rfl, rfl, hlt, hsize, hlen, htake', hguard'⟩⟩
  · rw [if_neg hlt]
    have heq : pos + chunk.length = hdr.size := by omega
    refine ⟨_, rfl, rfl, .inr ⟨heq, _, rfl, rfl, hlen, ?_, hguard'⟩⟩
    show (splice hdr.bytes pos chunk).take hdr.size = received ++ chunk
    rw [← heq]
    exact htake'

theorem firstData_lt (msg : PortMessage dataMax) :
    u32 (firstData msg) 0 < 2 ^ 24 := by
  refine u32_lt_of_high ?_
  show (msg.data.set 3 0).getD 3 0 = 0
  rw [getD_eq_getElem?_getD, getElem?_set_self']
  cases msg.data[3]? <;> rfl

theorem length_chunk (msg : PortMessage dataMax) :
    ((firstData msg).take msg.dataLength).length = msg.dataLength ∧
      (msg.data.take msg.dataLength).length = msg.dataLength := by
  have := msg.dataLength_le
  rw [length_take, length_take, firstData, length_set, msg.length_data]
  omega

theorem collect_safe {env : Environment} {pos : Nat}
    {chunk : List UInt8} (hfits : pos + chunk.length ≤ hdr.size)
    (hsize : hdr.size < 2 ^ 24) (hlength : hdr.length = hdr.size)
    (hrepeats : ∀ i < chunk.length, pos + i < 4 → byteAt chunk i = byteAt hdr.bytes (pos + i))
    (htake : hdr.bytes.take pos = received) (hguard : hdr.Guarded) :
    ∃ s, collect env client hdr pos chunk = some s ∧
      StepSafe s.written s.called (received ++ chunk) ∧
      (s.client.replying = true ∨ ∃ hdr', s.client.bufHdr = some hdr' ∧
        Holds hdr' s.client.bufPtr (received ++ chunk)) := by
  obtain ⟨s, hs, hwritten, hcase⟩ := collect_spec env client hfits hsize hlength
    hrepeats htake hguard
  refine ⟨s, hs, ⟨?_, ?_⟩, ?_⟩
  · intro w hw
    rw [hwritten] at hw
    cases hw
    exact hfits
  · intro m hm
    rcases hcase with ⟨hnone, _⟩ | ⟨_, m', hsome, _, hm'⟩
    · rw [hnone] at hm
      cases hm
    · rw [hsome] at hm
      cases hm
      exact hm'
  · rcases hcase with ⟨_, hdr', hclient, _, hholds⟩ | ⟨_, _, _, hclient, _⟩
    · rw [hclient]
      exact .inr ⟨hdr', rfl, hholds⟩
    · rw [hclient]
      exact .inl rfl

theorem stepSafe_none (received : List UInt8) : StepSafe none none received :=
  ⟨fun _ h => (Option.not_mem_none _ h).elim, fun _ h => (Option.not_mem_none _ h).elim⟩

theorem portRequest_first
    (received : List UInt8) (hnone : client.bufHdr = none) (hreplying : client.replying = false) :
    ∃ s, portRequest a.env a.msg client = some s ∧
      StepSafe s.written s.called (nextReceived client a.msg received) ∧
      (s.client.replying = true ∨ ∃ hdr, s.client.bufHdr = some hdr ∧
        Holds hdr s.client.bufPtr (nextReceived client a.msg received)) := by
  have hnext : nextReceived client a.msg received =
      [] ++ (firstData a.msg).take a.msg.dataLength := by
    rw [nextReceived, hreplying, hnone]
    rfl
  rw [portRequest, hnone, hnext]
  by_cases haccepts : Accepts a.msg
  · simp only [if_pos haccepts]
    cases hmem : a.env.memory with
    | none => exact ⟨_, rfl, stepSafe_none _, .inl rfl⟩
    | some memory =>
      have hchunk := (length_chunk a.msg).1
      have hheader : sizeofMsgHeader ≤ u32 (firstData a.msg) 0 := haccepts.2.2.2.1
      have hfits : a.msg.dataLength ≤ u32 (firstData a.msg) 0 := haccepts.2.2.2.2
      have hsize := firstData_lt a.msg
      refine collect_safe ?_ hsize (alloc_length memory hheader (by omega)) ?_
        take_zero (alloc_guarded memory _)
      · rw [hchunk, Nat.zero_add]
        exact hfits
      · intro i hi hword
        rw [Nat.zero_add] at hword ⊢
        rw [byteAt_take (by omega), byteAt_alloc memory hheader hword, byteAt_ofU32_u32 _ hword]
  · simp only [if_neg haccepts]
    exact ⟨_, rfl, stepSafe_none _, .inl rfl⟩

theorem portRequest_later (hsome : client.bufHdr = some hdr) (hreplying : client.replying = false)
    (hholds : Holds hdr client.bufPtr received) (hrepeats : Repeats a client) :
    ∃ s, portRequest a.env a.msg client = some s ∧
      StepSafe s.written s.called (nextReceived client a.msg received) ∧
      (s.client.replying = true ∨ ∃ hdr, s.client.bufHdr = some hdr ∧
        Holds hdr s.client.bufPtr (nextReceived client a.msg received)) := by
  have hnext : nextReceived client a.msg received =
      received ++ a.msg.data.take a.msg.dataLength := by
    rw [nextReceived, hreplying, hsome]
    rfl
  have hpos : client.bufPtr + a.msg.dataLength < 2 ^ 32 := by
    have := hholds.pos_lt
    have := hholds.size_lt
    have := a.msg.dataLength_lt
    omega
  rw [portRequest, hsome, hnext]
  simp only [Nat.mod_eq_of_lt hpos, hholds.length_eq]
  by_cases hlong : hdr.size < client.bufPtr + a.msg.dataLength
  · rw [if_pos hlong]
    exact ⟨_, rfl, stepSafe_none _, .inl rfl⟩
  rw [if_neg hlong]
  have hchunk := (length_chunk a.msg).2
  have hfits : client.bufPtr + a.msg.dataLength ≤ hdr.length := by
    rw [hholds.length_eq]
    omega
  refine collect_safe ?_ hholds.size_lt hholds.length_eq ?_ hholds.take_eq hholds.guarded
  · rw [hchunk]
    omega
  · intro i hi hword
    rw [byteAt_take (by omega)]
    exact hrepeats hreplying hdr hsome hfits i (by omega) hword

theorem portRequest_safe (hgood : Good client received) (hreplying : client.replying = false)
    (hrepeats : Repeats a client) :
    ∃ s, portRequest a.env a.msg client = some s ∧
      StepSafe s.written s.called (nextReceived client a.msg received) ∧
      (s.client.replying = true ∨ ∃ hdr, s.client.bufHdr = some hdr ∧
        Holds hdr s.client.bufPtr (nextReceived client a.msg received)) := by
  rcases hgood with h | hnone | ⟨hdr, hsome, hholds⟩
  · rw [hreplying] at h
    cases h
  · exact portRequest_first received hnone hreplying
  · exact portRequest_later hsome hreplying hholds hrepeats

/-! ### What a run preserves -/

theorem portReply_client (dataMax : Nat) (h : client.replying = true) :
    (portReply dataMax client).2.replying = true ∨ (portReply dataMax client).2.bufHdr = none := by
  unfold portReply
  cases hbuf : client.bufHdr with
  | none => exact .inr rfl
  | some hdr =>
    by_cases hend : hdr.length ≤ client.bufPtr +
        min ((hdr.length + 2 ^ 32 - client.bufPtr) % 2 ^ 32) dataMax
    · refine .inr ?_
      dsimp only
      rw [if_pos hend]
    · refine .inl ?_
      dsimp only
      rw [if_neg hend]
      exact h

theorem thread_safe (hgood : Good client received) (hrepeats : Repeats a client) :
    ∃ s, thread a.env a.msg client = some s ∧
      StepSafe s.written s.called (nextReceived client a.msg received) ∧
      Good s.client (nextReceived client a.msg received) := by
  have hrequest : ∃ r, (if client.replying then some ⟨client, none, none⟩
        else portRequest a.env a.msg client) = some r ∧
      StepSafe r.written r.called (nextReceived client a.msg received) ∧
      (r.client.replying = true ∨ ∃ hdr, r.client.bufHdr = some hdr ∧
        Holds hdr r.client.bufPtr (nextReceived client a.msg received)) := by
    cases hreplying : client.replying with
    | true => exact ⟨_, rfl, stepSafe_none _, .inl hreplying⟩
    | false => exact portRequest_safe hgood hreplying hrepeats
  obtain ⟨r, hr, hsafe, hnext⟩ := hrequest
  unfold thread
  simp only [hr]
  cases hreplying : r.client.replying with
  | true =>
    refine ⟨_, rfl, hsafe, ?_⟩
    rcases portReply_client dataMax hreplying with h | h
    · exact .inl h
    · exact .inr (.inl h)
  | false =>
    refine ⟨_, rfl, hsafe, ?_⟩
    rcases hnext with h | h
    · rw [hreplying] at h
      cases h
    · exact .inr (.inr h)

theorem run_good (arrivals : List (Arrival dataMax)) :
    ∀ {client : Client} {received : List UInt8}, Good client received →
      RunRepeats arrivals client → ∃ records, run arrivals client received = some records ∧
        ∀ r ∈ records, StepSafe r.1.written r.1.called r.2 := by
  induction arrivals with
  | nil => exact fun _ _ => ⟨[], rfl, fun _ h => (not_mem_nil h).elim⟩
  | cons a rest ih =>
    intro client received hgood hrepeats
    obtain ⟨hfirst, hrest⟩ := hrepeats
    obtain ⟨s, hs, hsafe, hnext⟩ := thread_safe hgood hfirst
    rw [hs] at hrest
    obtain ⟨records, hrecords, hall⟩ := ih hnext hrest
    refine ⟨(s, nextReceived client a.msg received) :: records, ?_, ?_⟩
    · rw [run, hs]
      show (run rest s.client _).map _ = _
      rw [hrecords]
      rfl
    · intro r hr
      rcases mem_cons.mp hr with rfl | hr
      · exact hsafe
      · exact hall r hr

/-- **Reassembly is safe** for every sequence of messages of a client, as long as no later
chunk that falls on the length field changes it: no copy leaves the buffer, and what a
target is called with is the message the client has sent, of the length that its length
field says. -/
theorem run_safe {dataMax : Nat} (arrivals : List (Arrival dataMax))
    (h : RunRepeats arrivals portConnect) :
    ∃ records, run arrivals portConnect [] = some records ∧
      ∀ r ∈ records, StepSafe r.1.written r.1.called r.2 :=
  run_good arrivals good_portConnect h

def arrival (dataMax : Nat) (bytes : List UInt8) (dataLength : Nat) (h : dataLength ≤ dataMax)
    (h' : dataLength < 2 ^ 16) : Arrival dataMax :=
  ⟨⟨some fun _ => 0, some fun _ => 0, fun _ => some fun _ => none⟩,
    ⟨(bytes ++ List.replicate dataMax 0).take dataMax, dataLength, by simp, h, h'⟩⟩

/-- A request of twelve bytes in chunks of eight. -/
theorem run_safe_twelve :
    ∃ records, run [arrival 8 [12, 0, 0, 7, 1, 0, 0, 0] 8 (by decide) (by decide),
        arrival 8 [1, 2, 3, 4] 4 (by decide) (by decide)] portConnect [] = some records ∧
      ∀ r ∈ records, StepSafe r.1.written r.1.called r.2 :=
  run_safe _ ⟨fun _ _ h => (Option.some_ne_none _ h.symm).elim, repeats_of_le (by decide), trivial⟩

/-- An empty chunk over a buffer that has a length of eight in it, then a chunk with
another length, and the third chunk is copied behind the allocated memory. -/
theorem run_overruns :
    ¬ ∀ arrivals : List (Arrival 288), ∃ records, run arrivals portConnect [] = some records ∧
      ∀ r ∈ records, StepSafe r.1.written r.1.called r.2 := by
  intro h
  obtain ⟨records, hrun, _⟩ := h [arrival 288 [8, 0, 0, 0, 1, 0, 0, 0] 0 (by decide) (by decide),
    arrival 288 [0, 0, 1, 0, 1, 0, 0, 0] 8 (by decide) (by decide),
    arrival 288 [] 288 (by decide) (by decide)]
  have hnone : (run [arrival 288 [8, 0, 0, 0, 1, 0, 0, 0] 0 (by decide) (by decide),
    arrival 288 [0, 0, 1, 0, 1, 0, 0, 0] 8 (by decide) (by decide),
    arrival 288 [] 288 (by decide) (by decide)] portConnect []).isNone = true := by
    decide +kernel
  rw [hrun] at hnone
  cases hnone

end Sandboxie.PipeServer
