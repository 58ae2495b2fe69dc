import Mathlib.Data.Nat.Find
import Sandboxie.Drv.ProcessApi

/-!
# Killing processes for a caller

`KillOneHandler`, `KillAllHandler` and `KillAllHelper` of `core/svc/ProcessServer.cpp`.  The
driver reports the processes of a box, and each of them is killed, until it reports none.

Between two enumerations the processes are others, in any way.  Whether a process that
`KillProcess` is called for comes to an end says only what the caller is told.
-/

namespace Sandboxie.KillServer

open Text ProcessApi List

def STATUS_SUCCESS : UInt32 := 0
def STATUS_UNSUCCESSFUL : UInt32 := 0xC0000001
def STATUS_INVALID_CID : UInt32 := 0xC000000B
def STATUS_INVALID_PARAMETER : UInt32 := 0xC000000D
def STATUS_ACCESS_DENIED : UInt32 := 0xC0000022
def NoAddProcessToJob : List WChar := wide "NoAddProcessToJob".toList
def NoSecurityIsolation : List WChar := wide "NoSecurityIsolation".toList
def TerminateJobObject : List WChar := wide "TerminateJobObject".toList
/-- `sizeof(PROCESS_KILL_ONE_REQ)` -/
def sizeofKillOneReq : Nat := 12
/-- `sizeof(PROCESS_KILL_ALL_REQ)` -/
def sizeofKillAllReq : Nat := 92
def pids_len : Nat := 512

/-- What `SbieApi_QueryProcess` says of a process in a box. -/
structure Boxed where
  name : List WChar
  /-- A box has a name. -/
  name_ne_nil : name ≠ []
  sessionId : UInt32

/-- What Windows, the driver and the configuration answer while one message is handled. -/
structure Machine (hash : UInt64 → Nat) where
  towlower : WChar → WChar
  /-- `SbieApi_QueryProcess` of the process to kill. -/
  queryTarget : UInt32 → Except UInt32 Boxed
  /-- `SbieApi_QueryProcess` of the caller. -/
  queryCaller : Except UInt32 Boxed
  /-- `PipeServer::GetCallerSessionId` -/
  callerSessionId : UInt32
  isCallerAdmin : Bool
  /-- `SbieApi_QueryConfBool` for a box, with the default `FALSE`. -/
  confBool : List WChar → List WChar → Bool
  /-- `MyGetSessionId`, for the service. -/
  mySessionId : Except UInt32 UInt32
  /-- The processes when they are enumerated, from one time to the next. -/
  processes : Nat → ProcessMap hash
  /-- What is in the memory of the array, and behind it, when `KillAllHelper` is called. -/
  stack : Nat → UInt32
  /-- `KillProcess` succeeds. -/
  killed : UInt32 → Bool

variable {hash : UInt64 → Nat}

/-! ### The caller -/

/-- The box and the session of the caller; without a box its name is empty. -/
def callerOf (m : Machine hash) : Except UInt32 (List WChar × UInt32) :=
  match m.queryCaller with
  | .ok own => .ok (own.name, own.sessionId)
  | .error status =>
    if status = STATUS_INVALID_CID then .ok ([], m.callerSessionId) else .error status

def sessionMatches (m : Machine hash) (callerSessionId targetSessionId : UInt32) : Bool :=
  !(callerSessionId != targetSessionId && !m.isCallerAdmin)

def boxMatches (m : Machine hash) (callerBoxName targetBoxName : List WChar) : Bool :=
  !(callerBoxName != [] && !sameNoCase m.towlower callerBoxName targetBoxName)

/-! ### One process -/

/-- `PROCESS_KILL_ONE_REQ` -/
structure KillOneReq where
  length : Nat
  pid : UInt32

/-- `KillOneHandler`: the pids that `KillProcess` is called for, and the status of the reply. -/
def killOneHandler (m : Machine hash) (req : KillOneReq) : List UInt32 × UInt32 :=
  if req.length < sizeofKillOneReq then ([], STATUS_INVALID_PARAMETER)
  else
    match m.queryTarget req.pid with
    | .error status => ([], status)
    | .ok target =>
      match callerOf m with
      | .error status => ([], status)
      | .ok (callerBoxName, callerSessionId) =>
        if !sessionMatches m callerSessionId target.sessionId then ([], STATUS_ACCESS_DENIED)
        else if !boxMatches m callerBoxName target.name then ([], STATUS_ACCESS_DENIED)
        else ([req.pid], if m.killed req.pid then STATUS_SUCCESS else STATUS_UNSUCCESSFUL)

/-! ### All processes of a box -/

/-- `PROCESS_KILL_ALL_REQ` -/
structure KillAllReq where
  length : Nat
  sessionId : UInt32
  boxname : List WChar
  boxname_length : boxname.length = 40

def KillAllReq.box (req : KillAllReq) : List WChar := cut (req.boxname.take 39)

/-- The arguments of `KillAllHelper`; the flag is missing where nothing was stored in it. -/
structure Target where
  boxname : List WChar
  sessionId : UInt32
  terminateJob : Option Bool
deriving DecidableEq

/-- What is stored in `TerminateJob`. -/
def terminateJob (m : Machine hash) (box : List WChar) : Option Bool :=
  match m.queryCaller with
  | .ok _ => some false
  | .error _ =>
    if !m.confBool box NoAddProcessToJob && !m.confBool box NoSecurityIsolation then
      some (m.confBool box TerminateJobObject)
    else none

def targetSession (req : KillAllReq) (callerSessionId : UInt32) : UInt32 :=
  if req.sessionId = 0xFFFFFFFF then callerSessionId else req.sessionId

/-- `KillAllHandler`, up to the call of `KillAllHelper`. -/
def killAllHandler (m : Machine hash) (req : KillAllReq) : Except UInt32 Target :=
  if req.length < sizeofKillAllReq then .error STATUS_INVALID_PARAMETER
  else if req.box = [] then .error STATUS_INVALID_PARAMETER
  else
    match callerOf m with
    | .error status => .error status
    | .ok (callerBoxName, callerSessionId) =>
      if req.sessionId != 0xFFFFFFFF && !sessionMatches m callerSessionId req.sessionId then
        .error STATUS_ACCESS_DENIED
      else if !boxMatches m callerBoxName req.box then .error STATUS_ACCESS_DENIED
      else .ok ⟨req.box, targetSession req callerSessionId, terminateJob m req.box⟩

/-- `SbieApi_EnumProcessEx` as `KillAllHelper` calls it, from the service: the pids that the
driver writes. -/
def enumProcessEx (m : Machine hash) (t : Target) (time : Nat) :
    Except Failure (Nat × List UInt32) :=
  processApiEnum m.towlower m.mySessionId (m.processes time) none ⟨some t.boxname, 0, t.sessionId⟩
    true (some pids_len)

def fill (out : List UInt32) (pids : Nat → UInt32) : Nat → UInt32 :=
  fun i => (out[i]?).getD (pids i)

/-- An entry of the array, and the pid that is in it when `KillProcess` is called. -/
structure Kill where
  index : Nat
  pid : UInt32
deriving DecidableEq

/-- The state of the loop of `KillAllHelper`. -/
structure Loop where
  retries : Nat
  pids : Nat → UInt32

/-- How a round of the loop ends. -/
inductive Next
  | done (status : UInt32)
  | again (kills : List Kill) (loop : Loop)

def statusOf : Failure → UInt32
  | .invalidParameter => STATUS_INVALID_PARAMETER
  | .session status => status
  | .accessViolation => 0xC0000005

/-- A round of the loop of `KillAllHelper`; `retries` stays below ten. -/
def round (m : Machine hash) (t : Target) (time : Nat) (s : Loop) : Next :=
  match enumProcessEx m t time with
  | .error failure => .done (statusOf failure)
  | .ok (count, out) =>
    if count = 0 then .done STATUS_SUCCESS
    else
      let retries := if count < pids_len then s.retries + 1 else s.retries
      if retries ≥ 10 - 1 then .done STATUS_UNSUCCESSFUL
      else
        let pids := fill out s.pids
        -- the entry behind the last one is used too
        .again ((List.range (count + 1)).map fun i => ⟨i, pids i⟩) ⟨retries, pids⟩

/-- The loop before a round, unless it came to its end with a status. -/
def loopAt (m : Machine hash) (t : Target) : Nat → Except UInt32 Loop
  | 0 => .ok ⟨0, m.stack⟩
  | time + 1 =>
    match loopAt m t time with
    | .error status => .error status
    | .ok s =>
      match round m t time s with
      | .done status => .error status
      | .again _ s => .ok s

/-- The calls of `KillProcess` in a round. -/
def killsAt (m : Machine hash) (t : Target) (time : Nat) : List Kill :=
  match loopAt m t time with
  | .error _ => []
  | .ok s =>
    match round m t time s with
    | .done _ => []
    | .again kills _ => kills

/-! ### What is asked of them -/

/-- The caller may kill processes of a box in a session. -/
structure MayKill (m : Machine hash) (boxname : List WChar) (sessionId : UInt32) : Prop where
  box : ∀ own, m.queryCaller = .ok own → sameNoCase m.towlower own.name boxname = true
  session : (∃ box, callerOf m = .ok (box, sessionId)) ∨ m.isCallerAdmin = true

/-- Only the process that is asked for is killed, and only when the caller may do it. -/
def KillsOne (m : Machine hash) (req : KillOneReq) : Prop :=
  ∀ pid ∈ (killOneHandler m req).1, pid = req.pid ∧
    ∃ target, m.queryTarget pid = .ok target ∧ MayKill m target.name target.sessionId

def Reported (m : Machine hash) (t : Target) (time : Nat) (pid : UInt32) : Prop :=
  ∃ p ∈ (m.processes time).map.nodes, p.pid.toUInt32 = pid ∧ ∃ box, p.box = some box ∧
    sameNoCase m.towlower box.name t.boxname = true ∧ box.sessionId = t.sessionId

/-- The number of entries that an enumeration fills. -/
def filled (m : Machine hash) (t : Target) (time : Nat) : Nat :=
  match enumProcessEx m t time with
  | .error _ => 0
  | .ok (_, out) => out.length

/-- Only what the latest enumeration reports is killed. -/
structure KillsReported (m : Machine hash) (t : Target) : Prop where
  flag : t.terminateJob.isSome = true
  mayKill : MayKill m t.boxname t.sessionId
  inside : ∀ time, ∀ kill ∈ killsAt m t time, kill.index < filled m t time
  reported : ∀ time, ∀ kill ∈ killsAt m t time, Reported m t time kill.pid
  stops : ∃ time status, loopAt m t time = .error status

def KillsAll (m : Machine hash) (req : KillAllReq) : Prop :=
  ∀ t, killAllHandler m req = .ok t → KillsReported m t

/-! ### The enumeration -/

/-- The processes that an enumeration in a session sees. -/
def seenAt (m : Machine hash) (t : Target) (time : Nat) (sessionId : UInt32) : List Process :=
  (m.processes time).map.nodes.filter
    (isSeen m.towlower ((cut t.boxname).take 38) false sessionId)

theorem enumProcessEx_eq (m : Machine hash) (t : Target) (time : Nat) :
    enumProcessEx m t time = (askedSession m.mySessionId false t.sessionId).map fun sessionId =>
      (((seenAt m t time sessionId).take pids_len).length,
        ((seenAt m t time sessionId).take pids_len).map fun p => p.pid.toUInt32) := by
  refine congrArg (fun f => (askedSession m.mySessionId false t.sessionId).map f)
    (funext fun _ => ?_)
  rw [if_neg (by simp)]
  exact (enumLoop_take _ _ 0 [] (Nat.zero_le _)).trans (by rw [Nat.zero_add]; rfl)

variable {m : Machine hash} {t : Target}

variable {time : Nat}

theorem enumProcessEx_count {count : Nat} {out : List UInt32}
    (h : enumProcessEx m t time = .ok (count, out)) : out.length = count := by
  rw [enumProcessEx_eq] at h
  cases hsession : askedSession m.mySessionId false t.sessionId with
  | error failure =>
    rw [hsession] at h
    cases h
  | ok sessionId =>
    rw [hsession] at h
    cases h
    rw [length_map]

theorem filled_eq {count : Nat} {out : List UInt32}
    (h : enumProcessEx m t time = .ok (count, out)) : filled m t time = count := by
  unfold filled
  rw [h]
  exact enumProcessEx_count h

/-- Nothing of the box is there at the first enumeration, or the driver does not look for it. -/
def NothingThere (m : Machine hash) (t : Target) : Prop :=
  ∀ sessionId, askedSession m.mySessionId false t.sessionId = .ok sessionId →
    ∀ p ∈ (m.processes 0).map.nodes,
      isSeen m.towlower ((cut t.boxname).take 38) false sessionId p = false

theorem filled_zero_iff (m : Machine hash) (t : Target) : filled m t 0 = 0 ↔ NothingThere m t := by
  unfold filled NothingThere
  rw [enumProcessEx_eq]
  cases askedSession m.mySessionId false t.sessionId with
  | error failure => exact iff_of_true rfl fun sessionId h => nomatch h
  | ok sessionId =>
    have hempty : (((seenAt m t 0 sessionId).take pids_len).map fun p =>
      p.pid.toUInt32).length = 0 ↔
        seenAt m t 0 sessionId = [] := by
      rw [length_map, length_take, ← length_eq_zero_iff]
      unfold pids_len
      omega
    refine hempty.trans ?_
    unfold seenAt
    rw [filter_eq_nil_iff]
    refine ⟨fun h _ hs p hp => ?_, fun h p hp => ?_⟩
    · cases hs
      exact Bool.eq_false_iff.mpr (h p hp)
    · exact Bool.eq_false_iff.mp (h sessionId rfl p hp)

/-! ### The loop -/

theorem round_filled_zero (h : filled m t time = 0)
    (s : Loop) : ∃ status, round m t time s = .done status := by
  unfold round
  cases henum : enumProcessEx m t time with
  | error failure => exact ⟨_, rfl⟩
  | ok r => exact ⟨_, if_pos ((filled_eq henum).symm.trans h)⟩

def retriesAt (m : Machine hash) (t : Target) (time retries : Nat) : Nat :=
  if filled m t time < pids_len then retries + 1 else retries

theorem round_again {s : Loop}
    (hsome : filled m t time ≠ 0) (hretries : retriesAt m t time s.retries < 9) :
    ∃ kills pids, round m t time s = .again kills ⟨retriesAt m t time s.retries, pids⟩ ∧
      ⟨filled m t time, s.pids (filled m t time)⟩ ∈ kills := by
  cases henum : enumProcessEx m t time with
  | error failure =>
    refine absurd ?_ hsome
    unfold filled
    rw [henum]
  | ok r =>
    have hcount := filled_eq henum
    have hlen := enumProcessEx_count henum
    unfold retriesAt at hretries ⊢
    unfold round
    rw [henum]
    rw [hcount] at hsome hretries ⊢
    dsimp only
    rw [if_neg hsome, if_neg (by omega)]
    refine ⟨_, _, rfl, mem_map.mpr ⟨r.1, mem_range.mpr (Nat.lt_succ_self _), ?_⟩⟩
    unfold fill
    rw [getElem?_eq_none (Nat.le_of_eq hlen)]
    rfl

theorem round_retries {s : Loop}
    (hretries : 9 ≤ retriesAt m t time s.retries) : ∃ status, round m t time s = .done status := by
  cases henum : enumProcessEx m t time with
  | error failure =>
    unfold round
    rw [henum]
    exact ⟨_, rfl⟩
  | ok r =>
    unfold retriesAt at hretries
    rw [filled_eq henum] at hretries
    unfold round
    rw [henum]
    dsimp only
    by_cases hzero : r.1 = 0
    · rw [if_pos hzero]
      exact ⟨_, rfl⟩
    · rw [if_neg hzero, if_pos (by omega)]
      exact ⟨_, rfl⟩

/-- The number of enumerations, up to a time, that do not fill the array. -/
def shortTimes (m : Machine hash) (t : Target) : Nat → Nat
  | 0 => 0
  | time + 1 => retriesAt m t time (shortTimes m t time)

theorem loopAt_ok (m : Machine hash) (t : Target) :
    ∀ time, (∀ before < time, filled m t before ≠ 0 ∧ shortTimes m t (before + 1) < 9) →
      ∃ pids, loopAt m t time = .ok ⟨shortTimes m t time, pids⟩ := by
  intro time
  induction time with
  | zero => exact fun _ => ⟨_, rfl⟩
  | succ time ih =>
    intro h
    obtain ⟨pids, hloop⟩ := ih fun before hlt => h before (Nat.lt_succ_of_lt hlt)
    obtain ⟨hsome, hretries⟩ := h time (Nat.lt_succ_self _)
    obtain ⟨kills, pids', hround, -⟩ :=
      round_again (s := ⟨shortTimes m t time, pids⟩) hsome hretries
    refine ⟨pids', ?_⟩
    rw [loopAt, hloop]
    dsimp only
    rw [hround]
    rfl

/-- **When the loop ends**: when an enumeration gives nothing, or nine of them did not fill the
array.  Without that it goes on for ever. -/
theorem stops_iff (m : Machine hash) (t : Target) :
    (∃ time status, loopAt m t time = .error status) ↔
      ∃ time, filled m t time = 0 ∨ 9 ≤ shortTimes m t (time + 1) := by
  constructor
  · rintro ⟨time, status, hstop⟩
    by_contra hnone
    obtain ⟨pids, hloop⟩ := loopAt_ok m t time fun before _ =>
      ⟨fun h => hnone ⟨before, .inl h⟩, Nat.lt_of_not_le fun h => hnone ⟨before, .inr h⟩⟩
    rw [hloop] at hstop
    cases hstop
  · -- the first time at which it is so
    intro hsome
    classical
    have hleast := fun before (hlt : before < Nat.find hsome) => Nat.find_min hsome hlt
    obtain ⟨pids, hloop⟩ := loopAt_ok m t (Nat.find hsome) fun before hlt =>
      ⟨fun h => hleast before hlt (.inl h),
        Nat.lt_of_not_le fun h => hleast before hlt (.inr h)⟩
    have hround : ∃ status, round m t (Nat.find hsome) ⟨shortTimes m t (Nat.find hsome), pids⟩ =
        .done status := by
      rcases Nat.find_spec hsome with hzero | hretries
      · exact round_filled_zero hzero _
      · exact round_retries hretries
    obtain ⟨status, hdone⟩ := hround
    refine ⟨Nat.find hsome + 1, status, ?_⟩
    rw [loopAt, hloop]
    dsimp only
    rw [hdone]

theorem loopAt_stopped {status : UInt32}
    (h : loopAt m t time = .error status) (more : Nat) :
    loopAt m t (time + more) = .error status := by
  induction more with
  | zero => exact h
  | succ more ih =>
    rw [← Nat.add_assoc, loopAt, ih]

theorem killsAt_nil (hzero : filled m t 0 = 0) (time : Nat) :
    killsAt m t time = [] := by
  obtain ⟨status, hround⟩ := round_filled_zero hzero ⟨0, m.stack⟩
  cases time with
  | zero =>
    unfold killsAt
    rw [loopAt]
    dsimp only
    rw [hround]
  | succ time =>
    have hstop : loopAt m t 1 = .error status := by
      rw [loopAt, loopAt]
      dsimp only
      rw [hround]
    unfold killsAt
    rw [Nat.add_comm, loopAt_stopped hstop]

theorem inside_iff (m : Machine hash) (t : Target) :
    (∀ time, ∀ kill ∈ killsAt m t time, kill.index < filled m t time) ↔ filled m t 0 = 0 := by
  constructor
  · intro hinside
    by_contra hsome
    have hretries : retriesAt m t 0 0 < 9 := by
      unfold retriesAt
      split <;> omega
    obtain ⟨kills, pids, hround, hkill⟩ :=
      round_again (s := ⟨0, m.stack⟩) hsome hretries
    have hat : killsAt m t 0 = kills := by
      unfold killsAt
      rw [loopAt]
      dsimp only
      rw [hround]
    exact Nat.lt_irrefl _ (hinside 0 _ (hat ▸ hkill))
  · intro hzero time kill hkill
    exact absurd hkill (by rw [killsAt_nil hzero]; exact not_mem_nil)

theorem killsReported_iff (m : Machine hash) (t : Target) : KillsReported m t ↔
    t.terminateJob.isSome = true ∧ MayKill m t.boxname t.sessionId ∧ NothingThere m t := by
  rw [← filled_zero_iff]
  constructor
  · intro h
    exact ⟨h.flag, h.mayKill, (inside_iff m t).mp h.inside⟩
  · rintro ⟨hflag, hmay, hzero⟩
    refine ⟨hflag, hmay, (inside_iff m t).mpr hzero, fun time kill hkill => ?_,
      (stops_iff m t).mpr ⟨0, .inl hzero⟩⟩
    rw [killsAt_nil hzero] at hkill
    cases hkill

/-! ### The requests -/

theorem boxMatches_iff (m : Machine hash) (callerBoxName targetBoxName : List WChar) :
    boxMatches m callerBoxName targetBoxName = true ↔
      (callerBoxName ≠ [] → sameNoCase m.towlower callerBoxName targetBoxName = true) := by
  unfold boxMatches
  cases callerBoxName with
  | nil => simp
  | cons c rest => simp

theorem sessionMatches_iff (m : Machine hash) (callerSessionId targetSessionId : UInt32) :
    sessionMatches m callerSessionId targetSessionId = true ↔
      callerSessionId = targetSessionId ∨ m.isCallerAdmin = true := by
  unfold sessionMatches
  rw [Bool.not_eq_true', Bool.and_eq_false_iff, bne_eq_false_iff_eq, Bool.not_eq_false']

theorem mayKill_iff {callerBoxName : List WChar} {callerSessionId : UInt32}
    (hcaller : callerOf m = .ok (callerBoxName, callerSessionId)) (box : List WChar)
    (sessionId : UInt32) : MayKill m box sessionId ↔
      sessionMatches m callerSessionId sessionId = true ∧
        boxMatches m callerBoxName box = true := by
  rw [sessionMatches_iff, boxMatches_iff]
  have hsession : (∃ box, callerOf m = .ok (box, sessionId)) ↔ callerSessionId = sessionId := by
    rw [hcaller]
    exact ⟨fun ⟨_, h⟩ => (Prod.mk.inj (Except.ok.inj h)).2, fun h => ⟨callerBoxName, by rw [h]⟩⟩
  have hbox : (∀ own, m.queryCaller = .ok own → sameNoCase m.towlower own.name box = true) ↔
      (callerBoxName ≠ [] → sameNoCase m.towlower callerBoxName box = true) := by
    unfold callerOf at hcaller
    cases hquery : m.queryCaller with
    | ok own =>
      rw [hquery] at hcaller
      cases hcaller
      exact ⟨fun h _ => h own rfl, fun h _ hown => by cases hown; exact h own.name_ne_nil⟩
    | error status =>
      rw [hquery] at hcaller
      dsimp only at hcaller
      split at hcaller
      · cases hcaller
        exact iff_of_true (fun own h => nomatch h) fun h => absurd rfl h
      · cases hcaller
  constructor
  · intro h
    exact ⟨h.session.imp hsession.mp id, hbox.mp h.box⟩
  · rintro ⟨h, h'⟩
    exact ⟨hbox.mpr h', h.imp hsession.mpr id⟩

theorem killsOne (m : Machine hash) (req : KillOneReq) : KillsOne m req := by
  unfold KillsOne killOneHandler
  intro pid hpid
  split at hpid
  · cases hpid
  cases htarget : m.queryTarget req.pid with
  | error status =>
    rw [htarget] at hpid
    cases hpid
  | ok target =>
    rw [htarget] at hpid
    cases hcaller : callerOf m with
    | error status =>
      rw [hcaller] at hpid
      cases hpid
    | ok caller =>
      rw [hcaller] at hpid
      dsimp only at hpid
      split at hpid
      · cases hpid
      next hsession =>
        split at hpid
        · cases hpid
        next hbox =>
          obtain rfl := mem_singleton.mp hpid
          rw [Bool.not_eq_true', Bool.not_eq_false] at hsession hbox
          exact ⟨rfl, target, htarget, (mayKill_iff hcaller _ _).mpr ⟨hsession, hbox⟩⟩

def callerSession (m : Machine hash) : UInt32 :=
  match m.queryCaller with
  | .ok own => own.sessionId
  | .error _ => m.callerSessionId

def targetOf (m : Machine hash) (req : KillAllReq) : Target :=
  ⟨req.box, targetSession req (callerSession m), terminateJob m req.box⟩

/-- A request is refused: it is too short, names no box, comes from a process that the driver
cannot say anything of, or asks for what the caller may not kill. -/
def Refused (m : Machine hash) (req : KillAllReq) : Prop :=
  req.length < sizeofKillAllReq ∨ req.box = [] ∨
    (∃ status, m.queryCaller = .error status ∧ status ≠ STATUS_INVALID_CID) ∨
    ¬ MayKill m req.box (targetOf m req).sessionId

theorem callerOf_session {callerBoxName : List WChar}
    {callerSessionId : UInt32} (hcaller : callerOf m = .ok (callerBoxName, callerSessionId)) :
    callerSessionId = callerSession m := by
  unfold callerOf at hcaller
  unfold callerSession
  cases hquery : m.queryCaller with
  | ok own =>
    rw [hquery] at hcaller
    cases hcaller
    rfl
  | error status =>
    rw [hquery] at hcaller
    dsimp only at hcaller
    split at hcaller <;> cases hcaller
    rfl

theorem callerOf_error_iff (m : Machine hash) (status : UInt32) : callerOf m = .error status ↔
    m.queryCaller = .error status ∧ status ≠ STATUS_INVALID_CID := by
  unfold callerOf
  cases m.queryCaller with
  | ok own => exact ⟨fun h => (nomatch h), fun h => nomatch h.1⟩
  | error status' =>
    dsimp only
    split
    next h =>
      exact ⟨fun h => (nomatch h), fun ⟨h', hne⟩ => absurd (Except.error.inj h' ▸ h) hne⟩
    next h =>
      exact ⟨fun h' => ⟨congrArg _ (Except.error.inj h'), Except.error.inj h' ▸ h⟩,
        fun h' => congrArg _ (Except.error.inj h'.1)⟩

theorem sessionMatches_target (m : Machine hash) (req : KillAllReq) (callerSessionId : UInt32) :
    sessionMatches m callerSessionId (targetSession req callerSessionId) =
      !(req.sessionId != 0xFFFFFFFF && !sessionMatches m callerSessionId req.sessionId) := by
  unfold targetSession
  by_cases hown : req.sessionId = 0xFFFFFFFF
  · rw [if_pos hown, hown, (sessionMatches_iff m _ _).mpr (.inl rfl)]
    rfl
  · rw [if_neg hown, bne_iff_ne.mpr hown, Bool.true_and, Bool.not_not]

theorem killAllHandler_iff (m : Machine hash) (req : KillAllReq) (t : Target) :
    killAllHandler m req = .ok t ↔ ¬ Refused m req ∧ t = targetOf m req := by
  unfold killAllHandler Refused
  by_cases hlength : req.length < sizeofKillAllReq
  · rw [if_pos hlength]
    exact ⟨fun h => (nomatch h), fun h => absurd (.inl hlength) h.1⟩
  by_cases hbox : req.box = []
  · rw [if_neg hlength, if_pos hbox]
    exact ⟨fun h => (nomatch h), fun h => absurd (.inr (.inl hbox)) h.1⟩
  rw [if_neg hlength, if_neg hbox]
  cases hcaller : callerOf m with
  | error status =>
    have hquery := (callerOf_error_iff m status).mp hcaller
    exact ⟨fun h => (nomatch h), fun h => absurd (.inr (.inr (.inl ⟨status, hquery⟩))) h.1⟩
  | ok caller =>
    obtain ⟨callerBoxName, callerSessionId⟩ := caller
    have hquery : ¬ ∃ status, m.queryCaller = .error status ∧ status ≠ STATUS_INVALID_CID := by
      rintro ⟨status, h⟩
      rw [(callerOf_error_iff m status).mpr h] at hcaller
      cases hcaller
    have hmay := mayKill_iff hcaller req.box (targetOf m req).sessionId
    have hown : (targetOf m req).sessionId = targetSession req callerSessionId := by
      rw [callerOf_session hcaller]
      rfl
    rw [hown, sessionMatches_target] at hmay
    have htarget : targetOf m req =
        ⟨req.box, targetSession req callerSessionId, terminateJob m req.box⟩ := by
      rw [callerOf_session hcaller]
      rfl
    rw [hown, or_iff_right hlength, or_iff_right hbox, or_iff_right hquery, Classical.not_not,
      hmay, htarget]
    dsimp only
    cases req.sessionId != 0xFFFFFFFF && !sessionMatches m callerSessionId req.sessionId with
    | true => simp
    | false =>
      cases boxMatches m callerBoxName req.box with
      | true => simp [eq_comm]
      | false => simp

/-- Something is stored in the flag for the job: the caller is in a box, or neither of the two
settings is there for the box. -/
def FlagSet (m : Machine hash) (box : List WChar) : Prop :=
  (∃ own, m.queryCaller = .ok own) ∨
    m.confBool box NoAddProcessToJob = false ∧ m.confBool box NoSecurityIsolation = false

theorem terminateJob_isSome_iff (m : Machine hash) (box : List WChar) :
    (terminateJob m box).isSome = true ↔ FlagSet m box := by
  unfold terminateJob FlagSet
  cases m.queryCaller with
  | ok own => exact iff_of_true rfl (.inl ⟨own, rfl⟩)
  | error status =>
    cases m.confBool box NoAddProcessToJob <;> cases m.confBool box NoSecurityIsolation <;> simp

/-- **Only what is asked for is killed.**  This is so of one process; of all processes of a box it
is when the request is refused, or else the flag is set and there is nothing to kill. -/
theorem kills_iff (m : Machine hash) :
    (∀ req, KillsOne m req) ∧
      ∀ req, KillsAll m req ↔
        Refused m req ∨ FlagSet m req.box ∧ NothingThere m (targetOf m req) := by
  refine ⟨killsOne m, fun req => ?_⟩
  by_cases hrefused : Refused m req
  · exact iff_of_true (fun t h => absurd hrefused ((killAllHandler_iff m req t).mp h).1)
      (.inl hrefused)
  have hmay : MayKill m req.box (targetOf m req).sessionId := by
    by_contra hnot
    exact hrefused (.inr (.inr (.inr hnot)))
  have hflag := terminateJob_isSome_iff m req.box
  constructor
  · intro h
    obtain ⟨hset, -, hnothing⟩ := (killsReported_iff m (targetOf m req)).mp
      (h _ ((killAllHandler_iff m req _).mpr ⟨hrefused, rfl⟩))
    exact .inr ⟨hflag.mp hset, hnothing⟩
  · rintro (h | ⟨hset, hnothing⟩) t ht
    · exact absurd h hrefused
    · obtain ⟨-, rfl⟩ := (killAllHandler_iff m req t).mp ht
      exact (killsReported_iff m _).mpr ⟨hflag.mpr hset, hmay, hnothing⟩

/-! ### A pid that was left on the stack -/

def oneProcess : Machine UInt64.toNat where
  towlower := asciiLower
  queryTarget _ := .error STATUS_INVALID_CID
  queryCaller := .error STATUS_INVALID_CID
  callerSessionId := 1
  isCallerAdmin := false
  confBool _ _ := false
  mySessionId := .ok 0
  processes _ := ProcessMap.init.insert ⟨100, some ⟨wide "DefaultBox".toList, 1⟩, false⟩
  stack _ := 4242
  killed _ := true

def killDefaultBox : KillAllReq where
  length := 92
  sessionId := 1
  boxname := wide "DefaultBox".toList ++ List.replicate 30 0
  boxname_length := by decide

/-- The process 4242 is killed, which nobody reported. -/
theorem not_killsAll_oneProcess : ¬ KillsAll oneProcess killDefaultBox := by
  intro h
  have htarget : killAllHandler oneProcess killDefaultBox =
      .ok ⟨wide "DefaultBox".toList, 1, some false⟩ := by decide +kernel
  obtain ⟨p, hp, hpid, -⟩ := (h _ htarget).reported 0 ⟨1, 4242⟩ (by decide +kernel)
  have hnodes : (oneProcess.processes 0).map.nodes =
      [⟨100, some ⟨wide "DefaultBox".toList, 1⟩, false⟩] := by decide +kernel
  rw [hnodes] at hp
  obtain rfl := mem_singleton.mp hp
  exact absurd hpid (by decide)

end Sandboxie.KillServer
