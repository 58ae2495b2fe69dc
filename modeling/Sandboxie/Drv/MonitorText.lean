import Sandboxie.Drv.Monitor

/-!
# The text of a monitor entry

`Session_MonitorPutEx` of `core/drv/session.c` logs a time, a type, a process, a thread and
strings, each with its null, and `Session_Api_MonitorGetEx` reads the oldest entry back.
The writer counts the header with twenty bytes and the reader with twelve.
-/

namespace Sandboxie.Monitor

open LogBuff Bytes List

/-! ### Writing -/

/-- What a call of `Session_MonitorPutEx` gets, with the time that it takes and the stack that
it captures. -/
structure PutArgs where
  type : UInt32
  strings : List (List UInt16)
  lengths : Option (List Nat)
  pid : UInt32
  tid : UInt32
  timestamp : UInt64
  backTrace : List UInt64
deriving DecidableEq, Repr

/-- The characters of a string: as many as its length says, or up to its null. -/
def charsOf (lengths : Option (List Nat)) (i : Nat) (s : List UInt16) : List UInt16 :=
  match lengths with
  | some lengths => s.take (lengths.getD i 0)
  | none => s.takeWhile (· ≠ 0)

def bytesOfChars (s : List UInt16) : List UInt8 := s.flatMap fun c => ofU16 c.toNat

namespace PutArgs

def texts (args : PutArgs) : List (List UInt16) :=
  args.strings.mapIdx fun i s => charsOf args.lengths i s

def dataLen (args : PutArgs) : Nat := (args.texts.map fun s => (s.length + 1) * 2).sum

def entrySize (args : PutArgs) (stackTrace : Bool) : Nat :=
  8 + 4 + 4 + 4 + args.dataLen +
    if stackTrace then 2 + 4 + 4 + args.backTrace.length * 8 else 0

/-- The bytes of the captured stack behind the strings; nothing for an empty one. -/
def stack (args : PutArgs) (stackTrace : Bool) : List (List UInt8) :=
  if stackTrace ∧ args.backTrace ≠ [] then
    [ofU16 0xFFFF, ofU32 0x5354434B, ofU32 (args.backTrace.length * 8),
      args.backTrace.flatMap fun a => ofU64 a.toNat]
  else []

def pieces (args : PutArgs) (stackTrace : Bool) : List (List UInt8) :=
  [ofU64 args.timestamp.toNat, ofU32 args.type.toNat, ofU32 args.pid.toNat,
      ofU32 args.tid.toNat] ++
    (args.texts.flatMap fun s => [bytesOfChars s, ofU16 0]) ++ args.stack stackTrace

end PutArgs

/-- `Session_MonitorPutEx`: the session, and whether there was room for the entry. -/
def sessionMonitorPutEx (args : PutArgs) (session : Option Session) :
    Option (Option Session × Bool) :=
  match session with
  | none => some (none, false)
  | some session =>
    match session.monitorLog with
    | none => some (some session, false)
    | some log =>
      match logBufferPushEntry (args.entrySize session.monitorStackTrace % 2 ^ 32) log false with
      | none => none
      | some (log, none) =>
        some (some { session with monitorLog := some log, monitorOverflow := true }, false)
      | some (log, some writePtr) =>
        (pushPieces (args.pieces session.monitorStackTrace) writePtr log).map fun log =>
          (some { session with monitorLog := some log }, true)

def sessionMonitorPut (type : UInt32) (name : List UInt16) (pid tid : UInt32)
    (timestamp : UInt64) (backTrace : List UInt64) :
    Option Session → Option (Option Session × Bool) :=
  sessionMonitorPutEx ⟨type, [name], none, pid, tid, timestamp, backTrace⟩

/-! ### Reading -/

/-- The arguments of `Session_Api_MonitorGetEx`: whether the caller asks for the process and
the thread, and the maximal length of its string, if it has one with a buffer. -/
structure GetExArgs where
  logPid : Bool
  logTid : Bool
  maximumLength : Option UInt16
deriving DecidableEq, Repr

/-- What a call of `Session_Api_MonitorGetEx` leaves behind, with `none` for what it does not
write.  The null is written at an offset into the caller's buffer. -/
structure Entered where
  status : Status
  session : Option Session
  logType : Option Nat
  logPid : Option Nat
  logTid : Option Nat
  length : Option Nat
  copied : List UInt8
  null : Option Nat
deriving DecidableEq, Repr

/-- `data_size`, and the status that goes with it. -/
def dataSize (maximumLength : UInt16) (entrySize : Nat) : Nat × Status :=
  let dataSize := (entrySize + 2 ^ 32 - (4 + 4 + 4)) % 2 ^ 32
  if (maximumLength.toNat : Int) - 1 < (dataSize % 2 ^ 16 : Nat) then
    ((maximumLength.toNat + 2 ^ 32 - 1) % 2 ^ 32, .bufferTooSmall)
  else (dataSize, .success)

def getULong (ptr : Int) (log : LogBuffer) : Option (Nat × Int) :=
  (logBufferGetBytes 4 ptr log).map fun r => (u32 r.1 0, r.2)

/-- The body of `Session_Api_MonitorGetEx` for a log with an entry. -/
def getOldest (args : GetExArgs) (maximumLength : UInt16) (session : Session) (log : LogBuffer) :
    Option Entered := do
  let (entrySize, ptr) ← logBufferGetSize log.bufferStartPtr log
  let (_, ptr) ← logBufferGetSeqNum ptr log
  let (_, ptr) ← logBufferGetBytes 8 ptr log
  let (type, ptr) ← getULong ptr log
  let (pid, ptr) ← getULong ptr log
  let (tid, ptr) ← getULong ptr log
  let (size, status) := dataSize maximumLength entrySize
  let (copied, _) ← logBufferGetBytes size ptr log
  let log ← logBufferPopEntry log
  return {
    status := status
    session := some { session with monitorLog := some log }
    logType := some type
    logPid := if args.logPid then some pid else none
    logTid := if args.logTid then some tid else none
    length := some (size % 2 ^ 16)
    copied := copied
    null := some (size / 2 * 2) }

def sessionApiMonitorGetEx (proc : Bool) (args : GetExArgs) (session : Option Session) :
    Option Entered :=
  let blank : Entered :=
    { status := .success
      session := session
      logType := some 0
      logPid := if args.logPid then some 0 else none
      logTid := if args.logTid then some 0 else none
      length := none
      copied := []
      null := none }
  if proc then
    some { blank with status := .notImplemented, logType := none, logPid := none, logTid := none }
  else
    match args.maximumLength with
    | none => some { blank with status := .invalidParameter }
    | some maximumLength =>
      match session with
      | none => some { blank with status := .unsuccessful }
      | some session =>
        match session.monitorLog with
        | none => some { blank with status := .deviceNotReady }
        | some log =>
          if log.bufferUsed = 0 then
            some { blank with
              status := .noMoreEntries
              session := some { session with monitorOverflow := false } }
          else getOldest args maximumLength session log

/-! ### The entry -/

/-- A text that `Session_MonitorPut` gets and the stack behind the call, of a size that an entry
can say. -/
structure Text where
  name : List UInt16
  backTrace : List UInt64
  size_lt : 8 + 4 + 4 + 4 + ((name.takeWhile (· ≠ 0)).length + 1) * 2 +
    (2 + 4 + 4 + backTrace.length * 8) < 2 ^ 32

namespace Text

def bytes (t : Text) : List UInt8 := bytesOfChars (t.name.takeWhile (· ≠ 0))

def stored (t : Text) : List UInt8 := t.bytes ++ ofU16 0

end Text

theorem length_bytesOfChars (s : List UInt16) : (bytesOfChars s).length = 2 * s.length := by
  induction s with
  | nil => rfl
  | cons c s ih =>
    rw [bytesOfChars, flatMap_cons, length_append, length_ofU16, length_cons]
    show 2 + (bytesOfChars s).length = _
    omega

theorem Text.length_stored (t : Text) :
    t.stored.length = ((t.name.takeWhile (· ≠ 0)).length + 1) * 2 := by
  rw [stored, bytes, length_append, length_bytesOfChars, length_ofU16]
  omega

def headOf (type pid tid : UInt32) (timestamp : UInt64) : List UInt8 :=
  ofU64 timestamp.toNat ++ (ofU32 type.toNat ++ (ofU32 pid.toNat ++ ofU32 tid.toNat))

def sizeOf (t : Text) (stackTrace : Bool) : Nat :=
  20 + t.stored.length + if stackTrace then 10 + t.backTrace.length * 8 else 0

section Put

variable (type pid tid : UInt32) (timestamp : UInt64) (t : Text)

variable (stackTrace : Bool)

theorem entrySize_eq :
    (PutArgs.mk type [t.name] none pid tid timestamp t.backTrace).entrySize stackTrace =
      sizeOf t stackTrace := by
  rw [sizeOf, t.length_stored]
  simp [PutArgs.entrySize, PutArgs.dataLen, PutArgs.texts, charsOf]

theorem sizeOf_lt : sizeOf t stackTrace < 2 ^ 32 := by
  have hlt := t.size_lt
  rw [sizeOf, t.length_stored]
  split <;> omega

theorem flatten_pieces :
    ((PutArgs.mk type [t.name] none pid tid timestamp t.backTrace).pieces stackTrace).flatten =
      headOf type pid tid timestamp ++ t.stored ++
        ((PutArgs.mk type [t.name] none pid tid timestamp t.backTrace).stack
          stackTrace).flatten := by
  simp [PutArgs.pieces, PutArgs.texts, charsOf, headOf, Text.stored, Text.bytes]

theorem length_pieces_le :
    ((PutArgs.mk type [t.name] none pid tid timestamp t.backTrace).pieces stackTrace).flatten.length
      ≤ sizeOf t stackTrace := by
  have hstack : ((PutArgs.mk type [t.name] none pid tid timestamp t.backTrace).stack
      stackTrace).flatten.length ≤ if stackTrace then 10 + t.backTrace.length * 8 else 0 := by
    rw [PutArgs.stack]
    by_cases htrace : stackTrace = true
    · rw [if_pos htrace]
      split
      · simp [length_flatMap]
        omega
      · exact Nat.zero_le _
    · simp [htrace]
  have hhead : (headOf type pid tid timestamp).length = 20 := rfl
  rw [flatten_pieces, sizeOf, length_append, length_append]
  omega

end Put

/-- The oldest entry that is logged holds the header and the text. -/
def Stores (type pid tid : UInt32) (timestamp : UInt64) (t : Text) (stackTrace : Bool)
    (e : Entry) : Prop :=
  headOf type pid tid timestamp ++ t.stored <+: e.data ∧ e.data.length = sizeOf t stackTrace

theorem logBufferPushEntry_room {log : LogBuffer} {size : Nat}
    (hle : log.bufferUsed ≤ log.bufferSize) :
    logBufferPushEntry size log false =
      if log.bufferSize - log.bufferUsed < totalSize size then
        some (if log.bufferSize < totalSize size then log
          else { log with seqCounter := (log.seqCounter + 1) % 2 ^ 32 }, none)
      else
        (writeTags size { log with seqCounter := (log.seqCounter + 1) % 2 ^ 32 }).map fun r =>
          (r.1, some r.2) := by
  rw [logBufferPushEntry]
  by_cases hbig : log.bufferSize < totalSize size
  · rw [if_pos hbig, if_pos (by omega), if_pos hbig]
  · rw [if_neg hbig]
    by_cases hroom : log.bufferSize - log.bufferUsed < totalSize size
    · simp only [makeRoom, if_pos hroom, if_neg hbig, if_true]
    · simp only [makeRoom, if_neg hroom]

theorem sessionMonitorPut_stores (m : MonitorLog) (type pid tid : UInt32) (timestamp : UInt64)
    (t : Text) (stackTrace overflow : Bool)
    (hput : (sessionMonitorPut type t.name pid tid timestamp t.backTrace
      (some ⟨some m.log, stackTrace, overflow⟩)).map Prod.snd = some true) :
    ∃ (m' : MonitorLog) (e : Entry),
      sessionMonitorPut type t.name pid tid timestamp t.backTrace
        (some ⟨some m.log, stackTrace, overflow⟩) =
          some (some ⟨some m'.log, stackTrace, overflow⟩, true) ∧
      m'.entries = m.entries ++ [e] ∧ Stores type pid tid timestamp t stackTrace e := by
  let log : LogBuffer := { m.log with seqCounter := (m.log.seqCounter + 1) % 2 ^ 32 }
  have hlog : Holds log m.entries :=
    ⟨m.holds.length_data, m.holds.start_lt, m.holds.used, m.holds.held⟩
  have hsize : (PutArgs.mk type [t.name] none pid tid timestamp t.backTrace).entrySize stackTrace %
      2 ^ 32 = sizeOf t stackTrace := by
    rw [entrySize_eq, Nat.mod_eq_of_lt (sizeOf_lt t stackTrace)]
  rw [sessionMonitorPut, sessionMonitorPutEx] at hput ⊢
  dsimp only at hput ⊢
  rw [hsize, logBufferPushEntry_room m.holds.used_le] at hput ⊢
  by_cases hroom : m.log.bufferSize - m.log.bufferUsed < totalSize (sizeOf t stackTrace)
  · rw [if_pos hroom] at hput
    exact absurd (Option.some.inj hput) Bool.false_ne_true
  rw [if_neg hroom]
  obtain ⟨log₁, ptr, hwrite, log', e, hpush, hholds, -, hlen, hprefix, -⟩ :=
    writeTags_prefix hlog (sizeOf_lt t stackTrace) (Nat.mod_lt _ (by decide))
      (show totalSize (sizeOf t stackTrace) ≤ log.bufferSize - log.bufferUsed from
        Nat.le_of_not_lt hroom)
      (length_pieces_le type pid tid timestamp t stackTrace)
  refine ⟨⟨log', m.entries ++ [e], hholds⟩, e, ?_, rfl, ?_, hlen⟩
  · rw [show writeTags (sizeOf t stackTrace) { m.log with
      seqCounter := (m.log.seqCounter + 1) % 2 ^ 32 } = _ from hwrite]
    dsimp only [Option.map_some]
    rw [hpush]
    rfl
  · rw [flatten_pieces] at hprefix
    exact (prefix_append _ _).trans hprefix

/-! ### Reading it back -/

theorem getBytes_total {log : LogBuffer} (hlen : log.bufferData.length = log.bufferSize)
    (n : Nat) : ∀ {ptr : Int} {i : Nat}, IsAt log ptr i →
      ∃ d ptr', logBufferGetBytes n ptr log = some (d, ptr') ∧ d.length = n := by
  induction n with
  | zero => intro ptr i _; exact ⟨[], ptr, rfl, rfl⟩
  | succ n ih =>
    intro ptr i hat
    have hpos : (log.bufferStartPtr + i) % log.bufferSize < log.bufferData.length := by
      rw [hlen]
      exact Nat.mod_lt _ hat.pos
    obtain ⟨d, ptr', hget, hd⟩ := ih hat.next.1
    have hload : load log (((log.bufferStartPtr + i) % log.bufferSize : Nat) : Int) =
        some log.bufferData[(log.bufferStartPtr + i) % log.bufferSize] := by
      rw [load, if_neg (by omega), Int.toNat_natCast, getElem?_eq_getElem hpos]
    refine ⟨log.bufferData[(log.bufferStartPtr + i) % log.bufferSize] :: d, ptr', ?_,
      by rw [length_cons, hd]⟩
    rw [logBufferGetBytes, logBufferByteAt_eq hat]
    simp only [hload, hget, Option.map_some]

theorem Before.getSome {log : LogBuffer} {ptr : Int} {s : List UInt8} (h : Before log ptr s)
    (hlen : log.bufferData.length = log.bufferSize) (n : Nat) :
    ∃ d ptr', logBufferGetBytes n ptr log = some (d, ptr') ∧ d.length = n ∧
      (n ≤ s.length → d = s.take n) := by
  by_cases hn : n ≤ s.length
  · have hsplit : Before log ptr (s.take n ++ s.drop n) := by
      rw [take_append_drop]
      exact h
    obtain ⟨ptr', hget, _⟩ := hsplit.getBytes hlen
    rw [length_take_of_le hn] at hget
    exact ⟨s.take n, ptr', hget, length_take_of_le hn, fun _ => rfl⟩
  · obtain ⟨a, b, _, hat⟩ := h
    obtain ⟨d, ptr', hget, hd⟩ := getBytes_total hlen n hat
    exact ⟨d, ptr', hget, hd, fun hle => absurd hle hn⟩

/-- **What `Session_Api_MonitorGetEx` copies of the entry of a text.** -/
theorem getEx_spec {m : MonitorLog} {e : Entry} (hhead : m.entries.head? = some e)
    {type pid tid : UInt32} {timestamp : UInt64} {t : Text} {stackTrace : Bool}
    (he : Stores type pid tid timestamp t stackTrace e) (logPid logTid : Bool)
    (maximumLength : UInt16) (trace overflow : Bool) :
    ∃ r, sessionApiMonitorGetEx false ⟨logPid, logTid, some maximumLength⟩
        (some ⟨some m.log, trace, overflow⟩) = some r ∧
      r.logType = some type.toNat ∧
      r.logPid = (if logPid then some pid.toNat else none) ∧
      r.logTid = (if logTid then some tid.toNat else none) ∧
      r.status = (dataSize maximumLength (sizeOf t stackTrace)).2 ∧
      r.copied.length = (dataSize maximumLength (sizeOf t stackTrace)).1 ∧
      (r.copied.length ≤ t.stored.length → r.copied = t.stored.take r.copied.length) := by
  obtain ⟨es, hes⟩ : ∃ es, m.entries = e :: es := by
    cases hm : m.entries with
    | nil => rw [hm] at hhead; cases hhead
    | cons x es =>
      rw [hm] at hhead
      exact ⟨es, by rw [Option.some.inj hhead]⟩
  have hholds := m.holds
  rw [hes] at hholds
  have hlen := hholds.length_data
  have hpos : m.log.bufferUsed ≠ 0 := fun hzero => by
    have := hholds.used_eq_zero_iff.mp hzero
    cases this
  obtain ⟨⟨more, hmore⟩, hsize⟩ := he
  obtain ⟨ptr₁, ptr₂, hget₁, hget₂, hdata⟩ := readTags_spec hholds
  rw [← hmore, headOf] at hdata
  simp only [append_assoc] at hdata
  obtain ⟨ptr₃, hget₃, htype⟩ := hdata.getBytes hlen
  obtain ⟨ptr₄, hget₄, hpid⟩ := htype.getSize type.toNat_lt hlen
  obtain ⟨ptr₅, hget₅, htid⟩ := hpid.getSize pid.toNat_lt hlen
  obtain ⟨ptr₆, hget₆, htext⟩ := htid.getSize tid.toNat_lt hlen
  obtain ⟨d, ptr₇, hget₇, hd, hcopied⟩ :=
    htext.getSome hlen (dataSize maximumLength e.data.length).1
  obtain ⟨log', hpop, _⟩ := logBufferPopEntry_spec hholds
  rw [hsize] at hget₁ hget₇ hd hcopied
  let size := dataSize maximumLength (sizeOf t stackTrace)
  refine ⟨⟨size.2, some ⟨some log', trace, overflow⟩, some type.toNat,
    if logPid then some pid.toNat else none, if logTid then some tid.toNat else none,
    some (size.1 % 2 ^ 16), d, some (size.1 / 2 * 2)⟩, ?_, rfl, rfl, rfl, rfl, hd, fun hle => ?_⟩
  · have hget₂ : logBufferGetSeqNum ptr₁ m.log = some (e.seqNumber, ptr₂) := hget₂
    have hget₃ : logBufferGetBytes 8 ptr₂ m.log = some (ofU64 timestamp.toNat, ptr₃) := hget₃
    have hget₄ : getULong ptr₃ m.log = some (type.toNat, ptr₄) := hget₄
    have hget₅ : getULong ptr₄ m.log = some (pid.toNat, ptr₅) := hget₅
    have hget₆ : getULong ptr₅ m.log = some (tid.toNat, ptr₆) := hget₆
    show (if m.log.bufferUsed = 0 then _ else _) = _
    rw [if_neg hpos, getOldest]
    simp only [hget₁, hget₂, hget₃, hget₄, hget₅, hget₆, hget₇, hpop, Option.bind_eq_bind,
      Option.bind_some]
    rfl
  · have hle : d.length ≤ t.stored.length := hle
    show d = t.stored.take d.length
    rw [hd] at hle ⊢
    rw [hcopied (by rw [length_append]; omega), take_append_of_le_length hle]

/-! ### The round trip -/

/-- The caller gets the type, the process and the thread, and of the text and its null as much
as its buffer takes: all of the text when the call says that this was all. -/
structure RoundTrips (type pid tid : UInt32) (t : Text) (args : GetExArgs)
    (maximumLength : UInt16) (r : Entered) : Prop where
  type : r.logType = some type.toNat
  pid : r.logPid = if args.logPid then some pid.toNat else none
  tid : r.logTid = if args.logTid then some tid.toNat else none
  text : r.copied <+: t.stored
  whole : r.status = .success → t.bytes <+: r.copied
  inside : r.copied.length ≤ maximumLength.toNat

/-- The caller's buffer takes no more than the text and its null, and the reader notices it. -/
def TakesNoMore (maximumLength : UInt16) (t : Text) (stackTrace : Bool) : Prop :=
  1 ≤ maximumLength.toNat ∧ maximumLength.toNat - 1 ≤ t.stored.length ∧
    maximumLength.toNat - 1 < (sizeOf t stackTrace - 12) % 2 ^ 16

instance (maximumLength : UInt16) (t : Text) (stackTrace : Bool) :
    Decidable (TakesNoMore maximumLength t stackTrace) := inferInstanceAs (Decidable (_ ∧ _))

theorem sizeOf_sub (t : Text) (stackTrace : Bool) :
    (sizeOf t stackTrace + 2 ^ 32 - (4 + 4 + 4)) % 2 ^ 32 = sizeOf t stackTrace - 12 ∧
      20 + t.stored.length ≤ sizeOf t stackTrace := by
  have hlt := sizeOf_lt t stackTrace
  have hle : 20 + t.stored.length ≤ sizeOf t stackTrace := Nat.le_add_right _ _
  exact ⟨by omega, hle⟩

theorem dataSize_le_iff (maximumLength : UInt16) (t : Text) (stackTrace : Bool) :
    (dataSize maximumLength (sizeOf t stackTrace)).1 ≤ t.stored.length ↔
      TakesNoMore maximumLength t stackTrace := by
  have hmax := maximumLength.toNat_lt
  obtain ⟨hsize, hle⟩ := sizeOf_sub t stackTrace
  rw [dataSize, TakesNoMore, hsize]
  split
  · dsimp only
    omega
  · dsimp only
    omega

theorem dataSize_cut {maximumLength : UInt16} {t : Text} {stackTrace : Bool}
    (h : TakesNoMore maximumLength t stackTrace) :
    dataSize maximumLength (sizeOf t stackTrace) =
      (maximumLength.toNat - 1, .bufferTooSmall) := by
  obtain ⟨hpos, -, hnotice⟩ := h
  have hmax := maximumLength.toNat_lt
  obtain ⟨hsize, hle⟩ := sizeOf_sub t stackTrace
  have hwrap : (maximumLength.toNat + 2 ^ 32 - 1) % 2 ^ 32 = maximumLength.toNat - 1 := by omega
  rw [dataSize, hsize, if_pos (by omega), hwrap]

/-- **When a text that was logged comes back**, whatever was logged and read in between: when the
caller's buffer takes no more than the text and its null. -/
theorem monitorPut_getEx_iff (m : MonitorLog) (type pid tid : UInt32) (timestamp : UInt64)
    (t : Text) (stackTrace overflow : Bool)
    (hput : (sessionMonitorPut type t.name pid tid timestamp t.backTrace
      (some ⟨some m.log, stackTrace, overflow⟩)).map Prod.snd = some true) :
    ∃ (m' : MonitorLog) (e : Entry),
      sessionMonitorPut type t.name pid tid timestamp t.backTrace
        (some ⟨some m.log, stackTrace, overflow⟩) =
          some (some ⟨some m'.log, stackTrace, overflow⟩, true) ∧
      m'.entries = m.entries ++ [e] ∧
      ∀ later : MonitorLog, later.entries.head? = some e →
        ∀ (logPid logTid : Bool) (maximumLength : UInt16) (trace overflow : Bool),
          ∃ r, sessionApiMonitorGetEx false ⟨logPid, logTid, some maximumLength⟩
              (some ⟨some later.log, trace, overflow⟩) = some r ∧
            (RoundTrips type pid tid t ⟨logPid, logTid, some maximumLength⟩ maximumLength r ↔
              TakesNoMore maximumLength t stackTrace) := by
  obtain ⟨m', e, hcall, hentries, hstores⟩ :=
    sessionMonitorPut_stores m type pid tid timestamp t stackTrace overflow hput
  refine ⟨m', e, hcall, hentries, fun later hhead logPid logTid maximumLength trace overflow => ?_⟩
  obtain ⟨r, hget, htype, hpid, htid, hstatus, hlen, hcopied⟩ :=
    getEx_spec hhead hstores logPid logTid maximumLength trace overflow
  have hiff := dataSize_le_iff maximumLength t stackTrace
  rw [← hlen] at hiff
  refine ⟨r, hget, fun h => hiff.mp h.text.length_le, fun h => ?_⟩
  have hcut := dataSize_cut h
  rw [hcut] at hstatus hlen
  refine ⟨htype, hpid, htid, ?_, fun hsuccess => ?_, ?_⟩
  · rw [hcopied (hiff.mpr h)]
    exact take_prefix _ _
  · rw [hstatus] at hsuccess
    cases hsuccess
  · rw [hlen]
    exact Nat.sub_le _ _

def emptyLog : MonitorLog where
  log := logBufferInit (List.replicate 64 0)
  entries := []
  holds := holds_init _

def oneChar : Text where
  name := [65, 0]
  backTrace := []
  size_lt := by decide

theorem monitorPut_getEx_iff_oneChar : ∃ (m' : MonitorLog) (e : Entry),
    sessionMonitorPut 1 oneChar.name 7 8 0 oneChar.backTrace
      (some ⟨some emptyLog.log, false, false⟩) = some (some ⟨some m'.log, false, false⟩, true) ∧
    m'.entries = emptyLog.entries ++ [e] ∧
    ∀ later : MonitorLog, later.entries.head? = some e →
      ∀ (logPid logTid : Bool) (maximumLength : UInt16) (trace overflow : Bool),
        ∃ r, sessionApiMonitorGetEx false ⟨logPid, logTid, some maximumLength⟩
            (some ⟨some later.log, trace, overflow⟩) = some r ∧
          (RoundTrips 1 7 8 oneChar ⟨logPid, logTid, some maximumLength⟩ maximumLength r ↔
            TakesNoMore maximumLength oneChar false) :=
  monitorPut_getEx_iff emptyLog 1 7 8 0 oneChar false false (by decide +kernel)

/-- With a buffer of 512 bytes, eight bytes behind the text are copied with it. -/
theorem monitorGetEx_copies_more : ∃ s r,
    sessionMonitorPut 1 oneChar.name 7 8 0 oneChar.backTrace
      (some ⟨some emptyLog.log, false, false⟩) = some (s, true) ∧
    sessionApiMonitorGetEx false ⟨true, true, some 512⟩ s = some r ∧
    r.copied = oneChar.stored ++ ofU32 24 ++ [0, 0, 0, 0] ∧
    ¬ RoundTrips 1 7 8 oneChar ⟨true, true, some 512⟩ 512 r := by
  let data := ofU32 24 ++ ofU32 1 ++ headOf 1 7 8 0 ++ oneChar.stored ++ ofU32 24 ++
    List.replicate 28 0
  let copied := oneChar.stored ++ ofU32 24 ++ [0, 0, 0, 0]
  refine ⟨some ⟨some ⟨1, 64, 36, 0, data⟩, false, false⟩,
    ⟨.success, some ⟨some ⟨1, 64, 0, 36, data⟩, false, false⟩, some 1, some 7, some 8, some 12,
      copied, some 12⟩, by decide +kernel, by decide +kernel, rfl, fun h => ?_⟩
  exact absurd h.text.length_le (by decide)

end Sandboxie.Monitor
