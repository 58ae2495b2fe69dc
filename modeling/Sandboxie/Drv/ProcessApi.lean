import Sandboxie.Common.Text
import Sandboxie.Lib.ChainMap

/-!
# Enumerating the processes

`Process_Enumerate` and `Process_Api_Enum` of `drv/process_api.c` over `Process_Map`.  Probing of
the caller's memory succeeds, and what `MyGetSessionId` says is given.

Without a buffer for the pids, without a box name and for all sessions the number of nodes of the
map is taken as it is; the walk over the map leaves out what is not in a box and what is there
for injection only.
-/

namespace Sandboxie.ProcessApi

open Text List

structure Box where
  name : List WChar
  sessionId : UInt32
deriving DecidableEq

/-- `PROCESS`; one that was terminated before it got a box has none. -/
structure Process where
  pid : UInt64
  box : Option Box
  bHostInject : Bool
deriving DecidableEq

inductive Failure
  | invalidParameter
  /-- what `MyGetSessionId` returns -/
  | session (status : UInt32)
  /-- the exception when a process without a box asks -/
  | accessViolation
deriving DecidableEq

/-! ### The processes -/

/-- `Process_Map`, by the hash of a pid. -/
structure ProcessMap (hash : UInt64 → Nat) where
  map : ChainMap fun p : Process => hash p.pid
  counted : map.Counted

namespace ProcessMap

variable {hash : UInt64 → Nat}

/-- The map of `Process_Init`. -/
def init : ProcessMap hash := ⟨ChainMap.empty.resize 128, ChainMap.counted_empty.resize (by decide)⟩

/-- `map_insert` of a process. -/
def insert (processes : ProcessMap hash) (p : Process) : ProcessMap hash :=
  ⟨processes.map.add p false, processes.counted.add p false⟩

/-- `map_take` of a process. -/
def take (processes : ProcessMap hash) (pid : UInt64) : ProcessMap hash :=
  ⟨processes.map.remove (hash pid) fun p => p.pid == pid, processes.counted.remove _ _⟩

end ProcessMap

/-! ### The calls -/

section Calls

variable {hash : UInt64 → Nat} (towlower : WChar → WChar)

def isSeen (boxname : List WChar) (allSessions : Bool) (sessionId : UInt32) (p : Process) : Bool :=
  match p.box with
  | none => false
  | some box =>
    !p.bHostInject && (boxname = [] || sameNoCase towlower box.name boxname) &&
      (allSessions || box.sessionId == sessionId)

/-- The walk over the processes with the number of those that were counted; `pids` says that there
is a buffer, and `count` how many pids it takes. -/
def enumLoop (seen : Process → Bool) (pids : Bool) (count : Nat) :
    List Process → Nat → List UInt32 → Nat × List UInt32
  | [], num, out => (num, out)
  | p :: rest, num, out =>
    if seen p then
      if pids then
        if num ≥ count then (num, out)
        else enumLoop seen pids count rest (num + 1) (out ++ [p.pid.toUInt32])
      else enumLoop seen pids count rest (num + 1) out
    else enumLoop seen pids count rest num out

/-- The session that is asked about: that of the caller, unless all are or another one is. -/
def askedSession (mySessionId : Except UInt32 UInt32) (allSessions : Bool) (sessionId : UInt32) :
    Except Failure UInt32 :=
  if !allSessions && sessionId == 0xFFFFFFFF then mySessionId.mapError .session
  else .ok sessionId

/-- `Process_Enumerate`: the number and the pids that are written.  `count` is missing when its
pointer is null. -/
def processEnumerate (mySessionId : Except UInt32 UInt32) (processes : ProcessMap hash)
    (boxname : List WChar) (allSessions : Bool) (sessionId : UInt32) (pids : Bool)
    (count : Option Nat) : Except Failure (Nat × List UInt32) :=
  match count with
  | none => .error .invalidParameter
  | some count =>
    (askedSession mySessionId allSessions sessionId).map fun sessionId =>
      -- the short cut for the number of all processes
      if !pids && boxname = [] && allSessions then (processes.map.nnodes, [])
      else enumLoop (isSeen towlower boxname allSessions sessionId) pids count
        processes.map.nodes 0 []

/-- The parameters of `Process_Api_Enum` but for the two buffers. -/
structure EnumParms where
  boxname : Option (List WChar)
  allSessions : UInt64
  sessionId : UInt32

/-- The box that the caller asks about: its own one, or the one it names. -/
def askedBox (proc : Option Process) (parms : EnumParms) : Except Failure (List WChar) :=
  match proc with
  | some p =>
    match p.box with
    | none => .error .accessViolation
    | some box => .ok (if box.name = [] then named else box.name)
  | none => .ok named
where
  /-- at most `BOXNAME_COUNT - 2` characters are taken -/
  named : List WChar :=
    match parms.boxname with
    | some name => (cut name).take 38
    | none => []

/-- `Process_Api_Enum` with a buffer for `pids` or without one; `userCount` is the number in the
count of the caller, which is missing in a legacy call, where the pids are counted in front of
them. -/
def processApiEnum (mySessionId : Except UInt32 UInt32) (processes : ProcessMap hash)
    (proc : Option Process) (parms : EnumParms) (pids : Bool) (userCount : Option Nat) :
    Except Failure (Nat × List UInt32) :=
  match askedBox proc parms with
  | .error failure => .error failure
  | .ok boxname =>
    let call count := processEnumerate towlower mySessionId processes boxname
      (parms.allSessions != 0) parms.sessionId pids (some count)
    match userCount with
    | some count => call (if pids then count else 0)
    | none => if pids then call 511 else .error .invalidParameter

end Calls

/-! ### What the walk counts -/

theorem enumLoop_count (seen : Process → Bool) (count : Nat) (out : List UInt32) :
    ∀ (ps : List Process) (num : Nat),
      enumLoop seen false count ps num out = (num + (ps.filter seen).length, out) := by
  intro ps
  induction ps with
  | nil => exact fun num => rfl
  | cons p rest ih =>
    intro num
    rw [enumLoop]
    by_cases h : seen p = true
    · rw [if_pos h, if_neg Bool.false_ne_true, ih, filter_cons_of_pos h, length_cons]
      congr 1
      omega
    · rw [if_neg h, ih, filter_cons_of_neg h]

theorem enumLoop_take (seen : Process → Bool) {count : Nat} :
    ∀ (ps : List Process) (num : Nat) (out : List UInt32), num ≤ count →
      enumLoop seen true count ps num out =
        (num + ((ps.filter seen).take (count - num)).length,
          out ++ ((ps.filter seen).take (count - num)).map fun p => p.pid.toUInt32) := by
  intro ps
  induction ps with
  | nil =>
    intro num out _
    rw [enumLoop, filter_nil, take_nil, map_nil, append_nil]
    rfl
  | cons p rest ih =>
    intro num out hroom
    rw [enumLoop]
    by_cases h : seen p = true
    · rw [if_pos h, if_pos rfl, filter_cons_of_pos h]
      by_cases hfull : num ≥ count
      · rw [if_pos hfull, show count - num = 0 by omega, take_zero, map_nil,
          append_nil]
        rfl
      · rw [if_neg hfull, ih _ _ (by omega), show count - num = count - (num + 1) + 1 by omega,
          take_succ_cons, length_cons, map_cons, append_assoc,
          singleton_append]
        congr 1
        omega
    · rw [if_neg h, ih _ _ hroom, filter_cons_of_neg h]

theorem enumLoop_pids (seen : Process → Bool) {count : Nat} (ps : List Process) (num : Nat)
    (out : List UInt32) (hroom : num + ps.length ≤ count) :
    enumLoop seen true count ps num out =
      (num + (ps.filter seen).length, out ++ (ps.filter seen).map fun p => p.pid.toUInt32) := by
  have hlen : (ps.filter seen).length ≤ count - num :=
    Nat.le_trans (length_filter_le seen ps) (by omega)
  rw [enumLoop_take seen ps num out (by omega), take_of_length_le hlen]

variable {hash : UInt64 → Nat} {towlower : WChar → WChar}

/-! ### Counting and enumerating -/

/-- The number without a buffer is that of the pids that come back in any buffer that is large
`enough`. -/
def Agrees (enough : Option Nat → Prop)
    (call : Bool → Option Nat → Except Failure (Nat × List UInt32)) : Prop :=
  ∀ (given : Nat) (count : Option Nat), enough count →
    (call false (some given)).map (fun r => r.1) = (call true count).map fun r => r.2.length

/-- Each process is in a box, and is not there for injection only. -/
def AllBoxed (processes : ProcessMap hash) : Prop :=
  ∀ p ∈ processes.map.nodes, p.box.isSome = true ∧ p.bHostInject = false

theorem isSeen_all (sessionId : UInt32) (p : Process) :
    isSeen towlower [] true sessionId p = true ↔ p.box.isSome = true ∧ p.bHostInject = false := by
  unfold isSeen
  cases p.box with
  | none => simp
  | some box => simp

theorem length_seen_iff (processes : ProcessMap hash) (sessionId : UInt32) :
    (processes.map.nodes.filter (isSeen towlower [] true sessionId)).length =
      processes.map.nodes.length ↔ AllBoxed processes := by
  rw [length_filter_eq_length_iff]
  exact forall₂_congr fun p _ => isSeen_all sessionId p

theorem processEnumerate_count (mySessionId : Except UInt32 UInt32) (processes : ProcessMap hash)
    (boxname : List WChar) (allSessions : Bool) (sessionId : UInt32) (given given' : Nat) :
    processEnumerate towlower mySessionId processes boxname allSessions sessionId false
        (some given) =
      processEnumerate towlower mySessionId processes boxname allSessions sessionId false
        (some given') := by
  simp only [processEnumerate, enumLoop_count]

/-- A buffer takes the pids of all processes. -/
def Enough (processes : ProcessMap hash) (count : Option Nat) : Prop :=
  ∃ room, count = some room ∧ processes.map.nodes.length ≤ room

/-- **When the number agrees with the pids**: when the short cut is not taken, or there is nothing
that the walk leaves out. -/
theorem processEnumerate_agrees_iff (mySessionId : Except UInt32 UInt32)
    (processes : ProcessMap hash) (boxname : List WChar) (allSessions : Bool) (sessionId : UInt32) :
    Agrees (Enough processes)
        (processEnumerate towlower mySessionId processes boxname allSessions sessionId) ↔
      (boxname = [] → allSessions = true → AllBoxed processes) := by
  cases hsession : askedSession mySessionId allSessions sessionId with
  | error failure =>
    have hall : allSessions = false := by
      cases allSessions with
      | false => rfl
      | true => cases hsession
    refine iff_of_true ?_ fun _ h => absurd h (by rw [hall]; decide)
    rintro given _ ⟨room, rfl, -⟩
    simp only [processEnumerate, hsession]
    rfl
  | ok session =>
    have hpids : ∀ room, processes.map.nodes.length ≤ room →
        ((processEnumerate towlower mySessionId processes boxname allSessions sessionId true
          (some room)).map fun r => r.2.length) =
        .ok (processes.map.nodes.filter (isSeen towlower boxname allSessions session)).length := by
      intro room hroom
      have hloop := @enumLoop_pids (isSeen towlower boxname allSessions session) room
        processes.map.nodes 0 [] (by omega)
      simp only [processEnumerate, hsession, Except.map, hloop]
      simp
    by_cases hshort : boxname = [] ∧ allSessions = true
    · obtain ⟨rfl, rfl⟩ := hshort
      have hcount : ∀ given, (processEnumerate towlower mySessionId processes [] true sessionId
          false (some given)).map (fun r => r.1) = .ok processes.map.nodes.length := by
        intro given
        exact congrArg Except.ok processes.counted
      refine ⟨fun h _ _ => ?_, ?_⟩
      · have hlen := h 0 (some _) ⟨_, rfl, Nat.le_refl _⟩
        rw [hcount, hpids _ (Nat.le_refl _)] at hlen
        exact (length_seen_iff processes session).mp (Except.ok.inj hlen).symm
      · rintro hboxed given _ ⟨room, rfl, hroom⟩
        rw [hcount, hpids _ hroom, (length_seen_iff processes session).mpr (hboxed rfl rfl)]
    · refine iff_of_true ?_ fun hbox hall => absurd ⟨hbox, hall⟩ hshort
      rintro given _ ⟨room, rfl, hroom⟩
      have hcond : ¬ (!false && decide (boxname = []) && allSessions) = true := by
        rw [Bool.not_false, Bool.true_and, Bool.and_eq_true, decide_eq_true_iff]
        exact hshort
      rw [hpids _ hroom]
      simp only [processEnumerate, hsession, Except.map, if_neg hcond, enumLoop_count]
      rw [Nat.zero_add]

/-- The buffer of the caller takes the pids of all processes, also in a legacy call. -/
def ApiEnough (processes : ProcessMap hash) (userCount : Option Nat) : Prop :=
  processes.map.nodes.length ≤ userCount.getD 511

/-- **The same for both calls.** -/
theorem enumerate_agrees_iff (mySessionId : Except UInt32 UInt32) (processes : ProcessMap hash) :
    (∀ boxname allSessions sessionId,
      Agrees (Enough processes)
          (processEnumerate towlower mySessionId processes boxname allSessions sessionId) ↔
        (boxname = [] → allSessions = true → AllBoxed processes)) ∧
    ∀ proc parms, Agrees (ApiEnough processes)
        (processApiEnum towlower mySessionId processes proc parms) ↔
      (askedBox proc parms = .ok [] → parms.allSessions ≠ 0 → AllBoxed processes) := by
  refine ⟨processEnumerate_agrees_iff mySessionId processes, fun proc parms => ?_⟩
  cases hbox : askedBox proc parms with
  | error failure =>
    refine iff_of_true (fun given count _ => ?_) fun h => nomatch h
    simp only [processApiEnum, hbox]
    rfl
  | ok boxname =>
    have henumerate := @processEnumerate_agrees_iff hash towlower mySessionId processes boxname
      (parms.allSessions != 0) parms.sessionId
    have hcondition : (boxname = [] → (parms.allSessions != 0) = true → AllBoxed processes) ↔
        (Except.ok (ε := Failure) boxname = .ok [] → parms.allSessions ≠ 0 →
          AllBoxed processes) := by
      rw [bne_iff_ne, Except.ok.injEq]
    rw [← hcondition, ← henumerate]
    have hcount : ∀ given, processApiEnum towlower mySessionId processes proc parms false
        (some given) = processEnumerate towlower mySessionId processes boxname
          (parms.allSessions != 0) parms.sessionId false (some 0) := by
      intro given
      simp only [processApiEnum, hbox]
      rfl
    have hpids : ∀ count, processApiEnum towlower mySessionId processes proc parms true count =
        processEnumerate towlower mySessionId processes boxname (parms.allSessions != 0)
          parms.sessionId true (some (count.getD 511)) := by
      intro count
      simp only [processApiEnum, hbox]
      cases count <;> rfl
    refine ⟨fun h => ?_, fun h given count henough => ?_⟩
    · rintro given _ ⟨room, rfl, hroom⟩
      have hapi := h given (some room) hroom
      rw [hcount, hpids] at hapi
      exact (congrArg _ (processEnumerate_count ..)).trans hapi
    · have hdirect := h 0 _ ⟨_, rfl, henough⟩
      rw [hcount, hpids]
      exact hdirect

/-! ### Short of two processes -/

def threeProcesses : ProcessMap UInt64.toNat :=
  ((ProcessMap.init.insert ⟨100, some ⟨wide "DefaultBox".toList, 1⟩, false⟩).insert
    ⟨104, some ⟨wide "DefaultBox".toList, 1⟩, true⟩).insert ⟨108, none, false⟩

/-- Three processes are counted, and one comes back. -/
theorem enumerate_counts_three :
    processEnumerate asciiLower (.ok 1) threeProcesses [] true 0 false (some 0) = .ok (3, []) ∧
      processEnumerate asciiLower (.ok 1) threeProcesses [] true 0 true (some 512) =
        .ok (1, [100]) := by
  decide +kernel

end Sandboxie.ProcessApi
