import Sandboxie.Drv.LogFifo

/-!
# Reading the monitor log

`Session_Api_MonitorGet2` of `core/drv/session.c` moves as many entries of the session's
monitor log as fit to a buffer of the caller.  The length that is left is a `ULONG`, and
the comparison with it is made in 64 bits.
-/

namespace Sandboxie.Monitor

open LogBuff List

/-- The `NTSTATUS` values of the calls. -/
inductive Status
  | success
  | notImplemented
  | invalidParameter
  | unsuccessful
  | deviceNotReady
  | noMoreEntries
  | moreEntries
  | bufferTooSmall
deriving DecidableEq, Repr

structure Session where
  monitorLog : Option LogBuffer
  monitorStackTrace : Bool
  monitorOverflow : Bool
deriving DecidableEq, Repr

/-- What a call of `Session_Api_MonitorGet2` leaves behind.  The bytes are written one after
the other from `args->buffer_ptr` on, whatever the length of the caller's buffer is. -/
structure Answer where
  status : Status
  session : Option Session
  written : List UInt8
  bufferLen : UInt32
deriving DecidableEq, Repr

/-- The loop of `Session_Api_MonitorGet2`.  Each turn but the last takes an entry out, so
`fuel` is a number that is above the bytes in use. -/
def getLoop : Nat → LogBuffer → UInt32 → List UInt8 →
    Option (Status × LogBuffer × List UInt8)
  | 0, _, _, _ => none
  | fuel + 1, log, bufferLen, written =>
    if log.bufferUsed = 0 then some (.success, log, written)
    else
      match logBufferGetSize log.bufferStartPtr log with
      | none => none
      | some (entrySize, readPtr) =>
        match logBufferGetSeqNum readPtr log with
        | none => none
        | some (_, readPtr) =>
          -- `sizeof` has 64 bits, and so has the difference
          if (bufferLen.toUInt64 - 4).toNat < entrySize then some (.moreEntries, log, written)
          else
            match logBufferGetBytes entrySize readPtr log with
            | none => none
            | some (data, _) =>
              match logBufferPopEntry log with
              | none => none
              | some log =>
                getLoop fuel log (bufferLen - 4 - UInt32.ofNat entrySize)
                  (written ++ Bytes.ofU32 entrySize ++ data)

/-- `Session_Api_MonitorGet2`, with whether the caller is sandboxed, the length of its
buffer and what `Session_Get` finds. -/
def sessionApiMonitorGet2 (proc : Bool) (bufferLen : UInt32) (session : Option Session) :
    Option Answer :=
  if proc then some ⟨.notImplemented, session, [], bufferLen⟩
  else
    match session with
    | none => some ⟨.unsuccessful, none, [], 0⟩
    | some session =>
      match session.monitorLog with
      | none => some ⟨.deviceNotReady, some session, [], 0⟩
      | some log =>
        if log.bufferUsed = 0 then
          some ⟨.noMoreEntries, some { session with monitorOverflow := false }, [], 0⟩
        else
          (getLoop (log.bufferUsed + 1) log bufferLen []).map fun r =>
            -- always terminate with null length
            let written := r.2.2 ++ Bytes.ofU32 0
            { status := r.1
              session := some { session with monitorLog := some r.2.1 }
              written := written
              bufferLen := UInt32.ofNat written.length }

/-! ### The records -/

def recordsOf (es : List Entry) : List UInt8 :=
  es.flatMap fun e => Bytes.ofU32 e.data.length ++ e.data

@[simp] theorem recordsOf_nil : recordsOf [] = [] := rfl

theorem recordsOf_cons (e : Entry) (es : List Entry) :
    recordsOf (e :: es) = Bytes.ofU32 e.data.length ++ e.data ++ recordsOf es :=
  flatMap_cons

theorem length_recordsOf_cons (e : Entry) (es : List Entry) :
    (recordsOf (e :: es)).length = 4 + e.data.length + (recordsOf es).length := by
  rw [recordsOf_cons, length_append, length_append, Bytes.length_ofU32]

/-- The entries that the loop moves. -/
def taken : UInt32 → List Entry → List Entry
  | _, [] => []
  | bufferLen, e :: es =>
    if (bufferLen.toUInt64 - 4).toNat < e.data.length then []
    else e :: taken (bufferLen - 4 - UInt32.ofNat e.data.length) es

/-! ### Reading on -/

def Before (log : LogBuffer) (ptr : Int) (s : List UInt8) : Prop :=
  ∃ a b, view log = a ++ s ++ b ∧ IsAt log ptr a.length

section Before

variable {log : LogBuffer} {ptr : Int} {d s : List UInt8}

theorem Before.getBytes (h : Before log ptr (d ++ s))
    (hlen : log.bufferData.length = log.bufferSize) :
    ∃ ptr', logBufferGetBytes d.length ptr log = some (d, ptr') ∧ Before log ptr' s := by
  obtain ⟨a, b, hview, hat⟩ := h
  have hview' : view log = a ++ d ++ (s ++ b) := by
    rw [hview]
    simp only [append_assoc]
  obtain ⟨ptr', hget, hat', _⟩ := logBufferGetBytes_spec hlen hview' hat
  refine ⟨ptr', hget, a ++ d, b, ?_, ?_⟩
  · rw [hview]
    simp only [append_assoc]
  · rw [length_append]
    exact hat'

theorem Before.getSize {n : Nat} (h : Before log ptr (Bytes.ofU32 n ++ s)) (hn : n < 2 ^ 32)
    (hlen : log.bufferData.length = log.bufferSize) :
    ∃ ptr', logBufferGetSize ptr log = some (n, ptr') ∧ Before log ptr' s := by
  obtain ⟨ptr', hget, hnext⟩ := h.getBytes hlen
  refine ⟨ptr', ?_, hnext⟩
  rw [Bytes.length_ofU32] at hget
  rw [logBufferGetSize, hget, Option.map_some, Bytes.u32_ofU32 hn]

theorem before_oldest {e : Entry} {es : List Entry} (h : Holds log (e :: es)) :
    Before log log.bufferStartPtr e.bytes := by
  have hle := h.used_le
  have hused := h.used_cons
  have htotal : 12 ≤ totalSize e.data.length := by rw [totalSize]; omega
  obtain ⟨rest, hview⟩ := (show Holds log ([] ++ e :: es) from h).view_eq
  exact ⟨[], rest, hview, by simpa using h.isAt (by omega) (Nat.zero_le _)⟩

end Before

theorem readTags_spec {log : LogBuffer} {e : Entry} {es : List Entry} (h : Holds log (e :: es)) :
    ∃ ptr₁ ptr₂, logBufferGetSize log.bufferStartPtr log = some (e.data.length, ptr₁) ∧
      logBufferGetSeqNum ptr₁ log = some (e.seqNumber, ptr₂) ∧
      Before log ptr₂ (e.data ++ Bytes.ofU32 e.data.length) := by
  have hfront := before_oldest h
  obtain ⟨ptr₁, hget₁, hnext₁⟩ := hfront.getSize e.length_lt h.length_data
  obtain ⟨ptr₂, hget₂, hnext₂⟩ := hnext₁.getSize e.seqNumber_lt h.length_data
  exact ⟨ptr₁, ptr₂, hget₁, hget₂, hnext₂⟩

theorem getLoop_spec : ∀ {fuel : Nat} {log : LogBuffer} {es : List Entry} (bufferLen : UInt32)
    (written : List UInt8), Holds log es → log.bufferUsed < fuel →
      ∃ status log' rest, getLoop fuel log bufferLen written =
          some (status, log', written ++ recordsOf (taken bufferLen es)) ∧
        es = taken bufferLen es ++ rest ∧ Holds log' rest := by
  intro fuel
  induction fuel with
  | zero => intro log es bufferLen written _ hfuel; omega
  | succ fuel ih =>
    intro log es bufferLen written h hfuel
    rw [getLoop]
    cases es with
    | nil =>
      rw [if_pos (h.used_eq_zero_iff.mpr rfl)]
      refine ⟨.success, log, [], ?_, rfl, h⟩
      rw [taken, recordsOf_nil, append_nil]
    | cons e es =>
      have hused := h.used_cons
      have htotal : 12 ≤ totalSize e.data.length := by rw [totalSize]; omega
      obtain ⟨ptr₁, ptr₂, hget₁, hget₂, hdata⟩ := readTags_spec h
      obtain ⟨ptr₃, hget₃, _⟩ := hdata.getBytes h.length_data
      rw [if_neg (by omega), hget₁]
      dsimp only
      rw [hget₂]
      dsimp only
      by_cases hfit : (bufferLen.toUInt64 - 4).toNat < e.data.length
      · rw [if_pos hfit, taken, if_pos hfit]
        refine ⟨.moreEntries, log, e :: es, ?_, rfl, h⟩
        rw [recordsOf_nil, append_nil]
      obtain ⟨log₁, hpop, hholds, _, _, hused₁⟩ := logBufferPopEntry_spec h
      obtain ⟨status, log', rest, hloop, hes, hrest⟩ :=
        ih (bufferLen - 4 - UInt32.ofNat e.data.length)
          (written ++ Bytes.ofU32 e.data.length ++ e.data) hholds (by omega)
      rw [if_neg hfit, hget₃]
      rw [hpop]
      refine ⟨status, log', rest, ?_, ?_, hrest⟩
      · dsimp only
        rw [hloop, taken, if_neg hfit, recordsOf_cons]
        simp only [append_assoc]
      · rw [taken, if_neg hfit, cons_append, ← hes]

/-! ### Room for the terminator -/

/-- However many of the oldest entries fit, four bytes are left behind them. -/
def RoomBehind (bufferLen : Nat) (es : List Entry) : Prop :=
  ∀ k ≤ es.length, (recordsOf (es.take k)).length ≤ bufferLen →
    (recordsOf (es.take k)).length + 4 ≤ bufferLen

theorem roomBehind_nil {n : Nat} : RoomBehind n [] ↔ 4 ≤ n := by
  refine ⟨fun h => h 0 le_rfl (Nat.zero_le _), fun h k _ _ => ?_⟩
  rw [take_nil]
  exact h

theorem roomBehind_cons_of_lt {n : Nat} {e : Entry} {es : List Entry}
    (h : n < 4 + e.data.length) : RoomBehind n (e :: es) ↔ 4 ≤ n := by
  refine ⟨fun hroom => hroom 0 (Nat.zero_le _) (Nat.zero_le _), fun hn k _ hfit => ?_⟩
  cases k with
  | zero => exact hn
  | succ k =>
    rw [take_succ_cons, length_recordsOf_cons] at hfit
    omega

theorem roomBehind_cons_of_le {n : Nat} {e : Entry} {es : List Entry}
    (h : 4 + e.data.length ≤ n) :
    RoomBehind n (e :: es) ↔ RoomBehind (n - (4 + e.data.length)) es := by
  constructor
  · intro hroom k hk hfit
    have hnext := hroom (k + 1) (Nat.succ_le_succ hk)
    rw [take_succ_cons, length_recordsOf_cons] at hnext
    have hnext := hnext (by omega)
    omega
  · intro hroom k hk hfit
    cases k with
    | zero =>
      show 4 ≤ n
      omega
    | succ k =>
      have hrest := hroom k (Nat.le_of_succ_le_succ hk)
      rw [take_succ_cons, length_recordsOf_cons] at hfit ⊢
      have hrest := hrest (by omega)
      omega

theorem toNat_toUInt64_sub {n : UInt32} (h : 4 ≤ n.toNat) :
    (n.toUInt64 - 4).toNat = n.toNat - 4 := by
  rw [UInt64.toNat_sub_of_le _ _ (by rw [UInt64.le_iff_toNat_le]; simpa using h)]
  rfl

theorem toNat_left {n : UInt32} {k : Nat} (h : 4 + k ≤ n.toNat) :
    (n - 4 - UInt32.ofNat k).toNat = n.toNat - (4 + k) := by
  have hn := n.toNat_lt
  have hfour : (n - 4).toNat = n.toNat - 4 := by
    rw [UInt32.toNat_sub_of_le _ _ (by rw [UInt32.le_iff_toNat_le]; show 4 ≤ _; omega)]
    rfl
  have hk : (UInt32.ofNat k).toNat = k := by
    rw [UInt32.toNat_ofNat']
    omega
  rw [UInt32.toNat_sub_of_le _ _ (by rw [UInt32.le_iff_toNat_le, hfour, hk]; omega), hfour, hk]
  omega

theorem taken_fits_iff (bufferLen : UInt32) (es : List Entry) :
    (recordsOf (taken bufferLen es)).length + 4 ≤ bufferLen.toNat ↔
      RoomBehind bufferLen.toNat es := by
  induction es generalizing bufferLen with
  | nil => rw [taken, roomBehind_nil]; rfl
  | cons e es ih =>
    by_cases hfour : 4 ≤ bufferLen.toNat
    · rw [taken, toNat_toUInt64_sub hfour]
      by_cases hfit : bufferLen.toNat - 4 < e.data.length
      · rw [if_pos hfit, roomBehind_cons_of_lt (by omega)]
        rfl
      · have hle : 4 + e.data.length ≤ bufferLen.toNat := by omega
        have ih := ih (bufferLen - 4 - UInt32.ofNat e.data.length)
        rw [toNat_left hle] at ih
        rw [if_neg hfit, roomBehind_cons_of_le hle, ← ih, length_recordsOf_cons]
        omega
    · -- not even the terminator fits
      refine iff_of_false (by omega) fun hroom => ?_
      exact hfour (hroom 0 (Nat.zero_le _) (Nat.zero_le _))

/-! ### The call -/

structure MonitorLog where
  log : LogBuffer
  entries : List Entry
  holds : Holds log entries

/-- The answer to a call respects the caller's buffer: what is written stays inside of it,
and it is the records of the oldest entries and a terminator, or nothing at all when there
is no entry.  These entries, and no others, are gone. -/
structure Respects (bufferLen : UInt32) (m : MonitorLog) (r : Answer) : Prop where
  inside : r.written.length ≤ bufferLen.toNat
  records : ∃ gone rest, m.entries = gone ++ rest ∧
    (r.written = if m.entries = [] then [] else recordsOf gone ++ Bytes.ofU32 0) ∧
    ∃ session log, r.session = some session ∧ session.monitorLog = some log ∧ Holds log rest

theorem monitorGet2_spec (m : MonitorLog) (bufferLen : UInt32) (trace overflow : Bool) :
    ∃ r, sessionApiMonitorGet2 false bufferLen (some ⟨some m.log, trace, overflow⟩) = some r ∧
      (r.written = if m.entries = [] then []
        else recordsOf (taken bufferLen m.entries) ++ Bytes.ofU32 0) ∧
      ∃ rest, m.entries = taken bufferLen m.entries ++ rest ∧
        ∃ session log, r.session = some session ∧ session.monitorLog = some log ∧
          Holds log rest := by
  have hiff := m.holds.used_eq_zero_iff
  by_cases hnil : m.entries = []
  · have hheld := m.holds
    rw [hnil] at hheld ⊢
    refine ⟨⟨.noMoreEntries, some ⟨some m.log, trace, false⟩, [], 0⟩, ?_, rfl, [], rfl, _, m.log,
      rfl, rfl, hheld⟩
    show (if m.log.bufferUsed = 0 then _ else _) = _
    rw [if_pos (hiff.mpr hnil)]
  · obtain ⟨status, log', rest, hloop, hes, hrest⟩ :=
      getLoop_spec bufferLen [] m.holds (Nat.lt_succ_self _)
    let written := recordsOf (taken bufferLen m.entries) ++ Bytes.ofU32 0
    refine ⟨⟨status, some ⟨some log', trace, overflow⟩, written, UInt32.ofNat written.length⟩, ?_,
      (if_neg hnil).symm, rest, hes, _, log', rfl, rfl, hrest⟩
    show (if m.log.bufferUsed = 0 then _ else _) = _
    rw [if_neg (fun hzero => hnil (hiff.mp hzero)), hloop]
    rfl

/-- **When a call of `Session_Api_MonitorGet2` respects the caller's buffer**: when there is
no entry, or four bytes are left behind the oldest entries, however many of them fit. -/
theorem monitorGet2_respects_iff (m : MonitorLog) (bufferLen : UInt32) (trace overflow : Bool) :
    ∃ r, sessionApiMonitorGet2 false bufferLen (some ⟨some m.log, trace, overflow⟩) = some r ∧
      (Respects bufferLen m r ↔ m.entries ≠ [] → RoomBehind bufferLen.toNat m.entries) := by
  obtain ⟨r, hcall, hwritten, rest, hes, hsession⟩ := monitorGet2_spec m bufferLen trace overflow
  refine ⟨r, hcall, fun h hne => ?_, fun hroom => ⟨?_, taken bufferLen m.entries, rest, hes,
    hwritten, hsession⟩⟩
  · have hinside := h.inside
    rw [hwritten, if_neg hne, length_append, Bytes.length_ofU32] at hinside
    exact (taken_fits_iff bufferLen m.entries).mp hinside
  · rw [hwritten]
    by_cases hnil : m.entries = []
    · rw [if_pos hnil]
      exact Nat.zero_le _
    · rw [if_neg hnil, length_append, Bytes.length_ofU32]
      exact (taken_fits_iff bufferLen m.entries).mpr (hroom hnil)

def fourBytes : MonitorLog where
  log :=
    { seqCounter := 1
      bufferSize := 16
      bufferUsed := 16
      bufferStartPtr := 0
      bufferData := Bytes.ofU32 4 ++ Bytes.ofU32 1 ++ [1, 2, 3, 4] ++ Bytes.ofU32 4 }
  entries := [⟨1, [1, 2, 3, 4], by decide, by decide⟩]
  holds := ⟨rfl, by decide, rfl, by decide⟩

/-- A buffer of eight bytes takes the entry, and the terminator is written behind it. -/
theorem monitorGet2_overruns : ∃ r,
    sessionApiMonitorGet2 false 8 (some ⟨some fourBytes.log, false, false⟩) = some r ∧
      r.written = Bytes.ofU32 4 ++ [1, 2, 3, 4] ++ Bytes.ofU32 0 ∧ ¬ Respects 8 fourBytes r := by
  let log : LogBuffer := { fourBytes.log with bufferUsed := 0 }
  let written := Bytes.ofU32 4 ++ [1, 2, 3, 4] ++ Bytes.ofU32 0
  refine ⟨⟨.success, some ⟨some log, false, false⟩, written, 12⟩, by decide +kernel, rfl,
    fun h => ?_⟩
  exact absurd h.inside (by decide)

end Sandboxie.Monitor
