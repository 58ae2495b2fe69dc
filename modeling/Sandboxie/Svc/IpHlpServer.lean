import Sandboxie.Lib.Access

/-!
# Echo requests for a sandboxed caller

`IpHlpServer::SendEchoHandler` of `core/svc/iphlpserver.cpp`, as the accesses that it makes to
the message it got, to the reply that it allocates and to the buffer in which replies are converted
for a 32-bit caller.

A call of the system writes what it is given room for, and the replies that it makes point to
data in there; when it fails, what is there is left open but for that.
-/

namespace Sandboxie.IpHlpServer

open Access

inductive Block
  | message
  | reply
  | converted
deriving DecidableEq

/-- `IPHLP_SEND_ECHO_REQ`, and the number of bytes that were received. -/
structure SendEchoReq where
  length : Nat
  /-- A message has a header. -/
  length_ge : 8 ≤ length
  iswow64 : Bool
  ip6 : Bool
  ex2 : Bool
  handle : Nat
  replySize : Nat
  requestSize : Nat

/-- `sizeof(IPHLP_SEND_ECHO_REQ)` -/
def sizeofSendEchoReq : Nat := 100
/-- `FIELD_OFFSET(IPHLP_SEND_ECHO_REQ, request_data)` -/
def requestDataOffset : Nat := 96
/-- `sizeof(IPHLP_SEND_ECHO_RPL)` -/
def sizeofSendEchoRpl : Nat := 20
/-- `FIELD_OFFSET(IPHLP_SEND_ECHO_RPL, reply_data)` -/
def replyDataOffset : Nat := 16

/-- The build of the service, with the offsets in its `ICMP_ECHO_REPLY`. -/
structure Build where
  win64 : Bool

def Build.pointer (b : Build) : Nat := if b.win64 then 8 else 4

/-- `sizeof(ICMP_ECHO_REPLY)` -/
def Build.header (b : Build) : Nat := if b.win64 then 0x28 else 0x1C

/-- `FIELD_OFFSET(ICMP_ECHO_REPLY, Options)` -/
def Build.options (b : Build) : Nat := 16 + b.pointer

/-- `sizeof(ICMP_ECHO_REPLY32)` -/
def header32 : Nat := 0x1C

/-- What is read of an `ICMP_ECHO_REPLY`; the data is at an offset from the replies. -/
structure EchoReply where
  dataSize : Nat
  data : Nat

/-- How a call ends that is given room for replies. -/
structure Outcome (b : Build) (size : Nat) where
  /-- Zero is for a failure. -/
  numReplies : Nat
  /-- What is in the memory of the replies. -/
  replies : Nat → EchoReply
  fits : numReplies * b.header ≤ size
  inside : ∀ i, i < max 1 numReplies →
    (replies i).dataSize = 0 ∨ (replies i).data + (replies i).dataSize ≤ size

/-- What Windows and the other handlers say. -/
structure Machine where
  build : Build
  /-- `ProxyHandle::Find`, with the version of the protocol for the handle. -/
  find : Nat → Option Nat
  /-- `m_IcmpSendEcho2`, `m_IcmpSendEcho2Ex` and `m_Icmp6SendEcho2` are there. -/
  sendEcho2 : Bool
  sendEcho2Ex : Bool
  sendEcho6 : Bool
  /-- `LONG_REPLY` and `HeapAlloc` succeed. -/
  grantReply : Bool
  grantConverted : Bool
  /-- The call, for the room that it is given. -/
  call : ∀ size, Outcome build size

/-! ### The handler -/

/-- The function for the request is there. -/
def isSupported (m : Machine) (req : SendEchoReq) : Bool :=
  if req.ip6 then m.sendEcho6 else if req.ex2 then m.sendEcho2Ex else m.sendEcho2

/-- The request comes to the call. -/
def isIssued (m : Machine) (req : SendEchoReq) : Bool :=
  decide (sizeofSendEchoReq ≤ req.length) && decide (req.requestSize ≤ 0xFFFF) &&
    decide (req.replySize ≤ 0x0FFFFF) && m.find req.handle == some (if req.ip6 then 6 else 4) &&
    isSupported m req && m.grantReply

/-- The room for the replies: a 32-bit caller that has room for one gets it for a longer
header. -/
def roomFor (m : Machine) (req : SendEchoReq) : Nat :=
  if m.build.win64 && req.iswow64 && req.replySize == 0x1C + req.requestSize then
    0x28 + req.requestSize
  else req.replySize

/-- What is accessed of a reply for a 32-bit caller, and where the data of the next one goes;
nothing when there is no room for this one. -/
def convertOne (req : SendEchoReq) (reply : EchoReply) (i offset : Nat) :
    List (Access Block) × Option Nat :=
  let header := replyDataOffset + 0x28 * i
  if offset + reply.dataSize > req.replySize then ([⟨.reply, header + 12, 2⟩], none)
  else
    -- `memcpy` of the data, then the fields one after the other
    ([⟨.reply, header + 12, 2⟩, ⟨.reply, header + 16, 8⟩,
      ⟨.reply, replyDataOffset + reply.data, reply.dataSize⟩,
      ⟨.converted, offset, reply.dataSize⟩,
      ⟨.reply, header, 14⟩, ⟨.converted, header32 * i, 14⟩,
      ⟨.converted, header32 * i + 16, 4⟩,
      ⟨.reply, header + 24, 3⟩, ⟨.converted, header32 * i + 20, 3⟩], some (offset + reply.dataSize))

/-- The loop that converts the replies, from one of them on. -/
def convertFrom (req : SendEchoReq) (replies : Nat → EchoReply) :
    Nat → Nat → Nat → List (Access Block) × Option Nat
  | 0, _, offset => ([], some offset)
  | left + 1, i, offset =>
    match convertOne req (replies i) i offset with
    | (accesses, none) => (accesses, none)
    | (accesses, some offset) =>
      (accesses ++ (convertFrom req replies left (i + 1) offset).1,
        (convertFrom req replies left (i + 1) offset).2)

/-- The conversion for a 32-bit caller, with the copy of what was converted. -/
def convert (req : SendEchoReq) (replies : Nat → EchoReply) (numReplies : Nat) :
    List (Access Block) :=
  match convertFrom req replies numReplies 0 (header32 * numReplies) with
  | (accesses, none) => accesses
  | (accesses, some size) =>
    accesses ++ [⟨.converted, 0, size⟩, ⟨.reply, replyDataOffset, size⟩]

def adjustOne (b : Build) (i : Nat) : List (Access Block) :=
  let header := replyDataOffset + b.header * i
  [⟨.reply, header + b.options + 3, 1⟩, ⟨.reply, header + b.options + b.pointer, b.pointer⟩,
    ⟨.reply, header + 16, b.pointer⟩]

/-- What is done with the replies to a request that was not for IPv6. -/
def finishReplies (m : Machine) (req : SendEchoReq) (replies : Nat → EchoReply)
    (numReplies : Nat) : List (Access Block) :=
  if m.build.win64 && req.iswow64 then
    if m.grantConverted then convert req replies numReplies else []
  else (List.range numReplies).flatMap (adjustOne m.build)

/-- The accesses of `SendEchoHandler`. -/
def sendEchoHandler (m : Machine) (req : SendEchoReq) : List (Access Block) :=
  if ¬ sizeofSendEchoReq ≤ req.length then [⟨.message, 0, 4⟩]
  else if ¬ isIssued m req then [⟨.message, 0, sizeofSendEchoReq⟩]
  else
    let size := roomFor m req
    let outcome := m.call size
    [⟨.message, 0, sizeofSendEchoReq⟩, ⟨.reply, replyDataOffset, size⟩,
      ⟨.message, requestDataOffset, req.requestSize⟩, ⟨.reply, replyDataOffset, size⟩,
      ⟨.reply, 4, 4⟩] ++
    -- also after a failure there is to be a reply
    (if req.ip6 then [] else finishReplies m req outcome.replies (max 1 outcome.numReplies)) ++
    [⟨.reply, 8, 8⟩]

def blockSize (m : Machine) (req : SendEchoReq) : Block → Nat
  | .message => req.length
  | .reply => sizeofSendEchoRpl + roomFor m req
  | .converted => roomFor m req

def StaysInside (m : Machine) (req : SendEchoReq) : Prop :=
  AllInside (blockSize m req) (sendEchoHandler m req)

/-! ### The conversion -/

variable {m : Machine} {req : SendEchoReq}

theorem replySize_le_room (m : Machine) (req : SendEchoReq) : req.replySize ≤ roomFor m req := by
  unfold roomFor
  split
  next h =>
    rw [Bool.and_eq_true, beq_iff_eq] at h
    omega
  · exact Nat.le_refl _

theorem convertOne_inside {reply : EchoReply} {i offset numReplies : Nat} (hi : i < numReplies)
    (hoffset : header32 * numReplies ≤ offset)
    (hdata : reply.dataSize = 0 ∨ reply.data + reply.dataSize ≤ roomFor m req)
    (hroom : 0x28 * i + 14 ≤ roomFor m req + 4)
    (hheader : offset ≤ req.replySize → 0x28 * i + 27 ≤ roomFor m req + 4) :
    AllInside (blockSize m req) (convertOne req reply i offset).1 ∧
      ∀ next, (convertOne req reply i offset).2 = some next →
        offset ≤ next ∧ next ≤ req.replySize := by
  have hle := replySize_le_room m req
  have hbehind : header32 * (i + 1) ≤ offset :=
    Nat.le_trans (Nat.mul_le_mul_left header32 hi) hoffset
  unfold convertOne
  split
  · refine ⟨?_, nofun⟩
    simp only [allInside_cons, allInside_nil, and_true]
    exact inside_of_le (by show _ ≤ 20 + roomFor m req; unfold replyDataOffset; omega)
  next hfit =>
    have hheader := hheader (by omega)
    refine ⟨?_, fun next h => by rw [← Option.some.inj h]; omega⟩
    simp only [allInside_cons, allInside_nil, and_true]
    have hreply : ∀ {off size : Nat}, off + size ≤ 20 + roomFor m req →
        Inside (blockSize m req) ⟨.reply, off, size⟩ := inside_of_le
    have hconverted : ∀ {off size : Nat}, off + size ≤ roomFor m req →
        Inside (blockSize m req) ⟨.converted, off, size⟩ := inside_of_le
    unfold replyDataOffset header32
    refine ⟨hreply (by omega), hreply (by omega), ?_, hconverted (by omega), hreply (by omega),
      hconverted (by omega), hconverted (by omega), hreply (by omega), hconverted (by omega)⟩
    refine hdata.imp_right fun h => ?_
    show 16 + reply.data + reply.dataSize ≤ 20 + roomFor m req
    omega

theorem convertFrom_inside {replies : Nat → EchoReply} {numReplies : Nat}
    (hdata : ∀ i, i < numReplies →
      (replies i).dataSize = 0 ∨ (replies i).data + (replies i).dataSize ≤ roomFor m req)
    (hroom : ∀ i, i < numReplies → 0x28 * i + 14 ≤ roomFor m req + 4)
    (hheader : ∀ i, i < numReplies → header32 * numReplies ≤ req.replySize →
      0x28 * i + 27 ≤ roomFor m req + 4) :
    ∀ (left i offset : Nat), i + left = numReplies → header32 * numReplies ≤ offset →
      (left = 0 → offset ≤ req.replySize) →
      AllInside (blockSize m req) (convertFrom req replies left i offset).1 ∧
        ∀ size, (convertFrom req replies left i offset).2 = some size → size ≤ req.replySize := by
  intro left
  induction left with
  | zero =>
    intro i offset _ _ hlast
    refine ⟨allInside_nil, fun size h => ?_⟩
    rw [← Option.some.inj h]
    exact hlast rfl
  | succ left ih =>
    intro i offset hi hoffset _
    have hlt : i < numReplies := by omega
    obtain ⟨hone, hnext⟩ := @convertOne_inside m req (replies i) i offset numReplies hlt hoffset
      (hdata i hlt) (hroom i hlt)
      fun h => hheader i hlt (Nat.le_trans hoffset h)
    rw [convertFrom]
    cases hresult : convertOne req (replies i) i offset with
    | mk accesses next =>
      rw [hresult] at hone hnext
      cases next with
      | none => exact ⟨hone, nofun⟩
      | some next =>
        obtain ⟨hle, hsmall⟩ := hnext next rfl
        obtain ⟨hrest, hsize⟩ := ih (i + 1) next (by omega) (by omega) fun _ => hsmall
        exact ⟨allInside_append.mpr ⟨hone, hrest⟩, hsize⟩

theorem convert_inside {replies : Nat → EchoReply} {numReplies : Nat} (hpos : 0 < numReplies)
    (hdata : ∀ i, i < numReplies →
      (replies i).dataSize = 0 ∨ (replies i).data + (replies i).dataSize ≤ roomFor m req)
    (hroom : ∀ i, i < numReplies → 0x28 * i + 14 ≤ roomFor m req + 4)
    (hheader : ∀ i, i < numReplies → header32 * numReplies ≤ req.replySize →
      0x28 * i + 27 ≤ roomFor m req + 4) :
    AllInside (blockSize m req) (convert req replies numReplies) := by
  have hle := replySize_le_room m req
  obtain ⟨hloop, hsize⟩ := convertFrom_inside hdata hroom hheader numReplies 0
    (header32 * numReplies) (Nat.zero_add _) (Nat.le_refl _) fun h => absurd h (by omega)
  unfold convert
  cases hresult : convertFrom req replies numReplies 0 (header32 * numReplies) with
  | mk accesses size =>
    rw [hresult] at hloop hsize
    cases size with
    | none => exact hloop
    | some size =>
      have hsmall := hsize size rfl
      refine allInside_append.mpr ⟨hloop, ?_⟩
      simp only [allInside_cons, allInside_nil, and_true]
      refine ⟨inside_of_le ?_, inside_of_le ?_⟩
      · show 0 + size ≤ roomFor m req
        omega
      · show 16 + size ≤ 20 + roomFor m req
        omega

theorem convert_first (req : SendEchoReq) (replies : Nat → EchoReply) :
    ∃ more, convert req replies 1 = ⟨.reply, replyDataOffset + 0x28 * 0 + 12, 2⟩ :: more := by
  by_cases h : header32 * 1 + (replies 0).dataSize > req.replySize
  · simp only [convert, convertFrom, convertOne, if_pos h]
    exact ⟨_, rfl⟩
  · simp only [convert, convertFrom, convertOne, if_neg h]
    exact ⟨_, rfl⟩

/-! ### The replies -/

theorem adjustOne_inside_iff (i : Nat) :
    AllInside (blockSize m req) (adjustOne m.build i) ↔
      m.build.header * i + m.build.header ≤ roomFor m req + 4 := by
  unfold adjustOne
  simp only [allInside_cons, allInside_nil, and_true]
  unfold Build.options Build.pointer Build.header
  cases m.build.win64 with
  | true =>
    simp only [if_pos]
    rw [inside_iff (by decide), inside_iff (by decide), inside_iff (by decide)]
    show _ ≤ 20 + roomFor m req ∧ _ ≤ 20 + roomFor m req ∧ _ ≤ 20 + roomFor m req ↔ _
    unfold replyDataOffset
    omega
  | false =>
    simp only [if_neg Bool.false_ne_true]
    rw [inside_iff (by decide), inside_iff (by decide), inside_iff (by decide)]
    show _ ≤ 20 + roomFor m req ∧ _ ≤ 20 + roomFor m req ∧ _ ≤ 20 + roomFor m req ↔ _
    unfold replyDataOffset
    omega

def RoomForOne (m : Machine) (req : SendEchoReq) : Prop :=
  if m.build.win64 && req.iswow64 then m.grantConverted = true → 10 ≤ roomFor m req
  else m.build.header ≤ roomFor m req + 4

theorem finishReplies_success (outcome : Outcome m.build (roomFor m req))
    (hsome : outcome.numReplies ≠ 0) : AllInside (blockSize m req)
      (finishReplies m req outcome.replies (max 1 outcome.numReplies)) := by
  have hnum : max 1 outcome.numReplies = outcome.numReplies := by omega
  have hfits := outcome.fits
  have hdata := outcome.inside
  rw [hnum] at hdata ⊢
  have hheaders : ∀ i, i < outcome.numReplies →
      m.build.header * i + m.build.header ≤ roomFor m req := by
    intro i hi
    have hstep : m.build.header * i + m.build.header = (i + 1) * m.build.header := by
      rw [Nat.succ_mul, Nat.mul_comm]
    rw [hstep]
    exact Nat.le_trans (Nat.mul_le_mul_right _ hi) hfits
  unfold finishReplies
  split
  next hwow =>
    have hwide : m.build.header = 0x28 := by
      unfold Build.header
      rw [(Bool.and_eq_true_iff.mp hwow).1]
      rfl
    rw [hwide] at hheaders
    split
    · refine convert_inside (by omega) hdata (fun i hi => ?_) fun i hi _ => ?_
      · have := hheaders i hi
        omega
      · have := hheaders i hi
        omega
    · exact allInside_nil
  · refine allInside_flatMap.mpr fun i hi => (adjustOne_inside_iff i).mpr ?_
    have := hheaders i (List.mem_range.mp hi)
    omega

theorem finishReplies_failure_iff (outcome : Outcome m.build (roomFor m req))
    (hnone : outcome.numReplies = 0) : AllInside (blockSize m req)
      (finishReplies m req outcome.replies (max 1 outcome.numReplies)) ↔ RoomForOne m req := by
  have hdata := outcome.inside
  rw [hnone] at hdata ⊢
  unfold finishReplies RoomForOne
  split
  · cases hgrant : m.grantConverted with
    | false => exact iff_of_true allInside_nil fun h => nomatch h
    | true =>
      rw [if_pos rfl, forall_prop_of_true (rfl : true = true)]
      constructor
      · intro h
        -- the size of the data is read first
        have hfirst : Inside (blockSize m req) ⟨.reply, replyDataOffset + 0x28 * 0 + 12, 2⟩ := by
          obtain ⟨more, hconvert⟩ := convert_first req outcome.replies
          exact (allInside_cons.mp (hconvert ▸ h)).1
        rw [inside_iff (by decide)] at hfirst
        have hfirst' : 16 + 0x28 * 0 + 12 + 2 ≤ 20 + roomFor m req := hfirst
        omega
      · intro hroom
        have hle := replySize_le_room m req
        refine convert_inside (by decide) hdata (fun i hi => by omega) fun i hi h => ?_
        unfold header32 at h
        omega
  · have hone : (List.range (max 1 0)).flatMap (adjustOne m.build) = adjustOne m.build 0 := by
      rw [show max 1 0 = 1 from rfl, List.range_one, List.flatMap_singleton]
    rw [hone, adjustOne_inside_iff, Nat.mul_zero, Nat.zero_add]

/-- **When the handler stays inside**: what is sent was received, and after a failure there is
room for the header of a reply. -/
theorem sendEchoHandler_iff (m : Machine) (req : SendEchoReq) :
    StaysInside m req ↔ (isIssued m req = true →
      requestDataOffset + req.requestSize ≤ req.length ∧
        (req.ip6 = true ∨ (m.call (roomFor m req)).numReplies ≠ 0 ∨ RoomForOne m req)) := by
  unfold StaysInside sendEchoHandler
  have hlength := req.length_ge
  by_cases hlong : sizeofSendEchoReq ≤ req.length
  · rw [if_neg (not_not_intro hlong)]
    have hfields : Inside (blockSize m req) ⟨.message, 0, sizeofSendEchoReq⟩ :=
      inside_of_le (by rw [Nat.zero_add]; exact hlong)
    by_cases hissued : isIssued m req = true
    · rw [if_neg (not_not_intro hissued), forall_prop_of_true hissued]
      have hreplies : AllInside (blockSize m req) (if req.ip6 then [] else
          finishReplies m req (m.call (roomFor m req)).replies
            (max 1 (m.call (roomFor m req)).numReplies)) ↔
          (req.ip6 = true ∨ (m.call (roomFor m req)).numReplies ≠ 0 ∨ RoomForOne m req) := by
        cases req.ip6 with
        | true => exact iff_of_true allInside_nil (.inl rfl)
        | false =>
          rw [if_neg Bool.false_ne_true, or_iff_right Bool.false_ne_true]
          by_cases hnone : (m.call (roomFor m req)).numReplies = 0
          · rw [finishReplies_failure_iff _ hnone, or_iff_right (not_not_intro hnone)]
          · exact iff_of_true (finishReplies_success _ hnone) (.inl hnone)
      have hsent : Inside (blockSize m req) ⟨.message, requestDataOffset, req.requestSize⟩ ↔
          requestDataOffset + req.requestSize ≤ req.length := by
        refine ⟨fun h => h.elim (fun hzero => ?_) id, inside_of_le⟩
        have hzero' : req.requestSize = 0 := hzero
        unfold sizeofSendEchoReq at hlong
        unfold requestDataOffset
        omega
      have hreply : ∀ off size, off + size ≤ 20 + roomFor m req →
          Inside (blockSize m req) ⟨.reply, off, size⟩ := fun _ _ => inside_of_le
      have hdata := hreply replyDataOffset (roomFor m req) (by unfold replyDataOffset; omega)
      have hstatus := hreply 4 4 (by omega)
      have hcount := hreply 8 8 (by omega)
      simp only [allInside_append, allInside_cons, allInside_nil, hreplies, hsent, hfields, hdata,
        hstatus, hcount, and_true, true_and]
    · rw [if_pos hissued]
      refine iff_of_true (allInside_cons.mpr ⟨hfields, allInside_nil⟩) fun h => absurd h hissued
  · rw [if_pos hlong]
    refine iff_of_true (allInside_cons.mpr ⟨inside_of_le ?_, allInside_nil⟩) fun h => ?_
    · show 0 + 4 ≤ req.length
      omega
    · unfold isIssued at h
      rw [decide_eq_false hlong] at h
      simp at h

/-! ### Data that was not sent -/

def failing : Machine where
  build := ⟨true⟩
  find _ := some 4
  sendEcho2 := true
  sendEcho2Ex := true
  sendEcho6 := true
  grantReply := true
  grantConverted := true
  call size :=
    { numReplies := 0
      replies := fun _ => ⟨0, 0⟩
      fits := by rw [Nat.zero_mul]; exact Nat.zero_le _
      inside := fun _ _ => .inl rfl }

def shortMessage : SendEchoReq where
  length := 100
  length_ge := by decide
  iswow64 := false
  ip6 := false
  ex2 := false
  handle := 1
  replySize := 2000
  requestSize := 1000

/-- What is behind the message is read. -/
theorem not_staysInside_shortMessage : ¬ StaysInside failing shortMessage := by
  unfold StaysInside
  decide +kernel

end Sandboxie.IpHlpServer
