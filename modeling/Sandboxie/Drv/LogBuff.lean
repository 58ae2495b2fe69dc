import Sandboxie.Lib.Bytes
import Sandboxie.Lib.Ring

/-!
# The log buffer

`core/drv/log_buff.c`: a ring of bytes with entries of different sizes.  An entry stores
its size in front of and behind its data, so that the ring can be walked both ways.

Pointers are offsets from `buffer_data`.  An access outside of the buffer gives `none`, and
so does a subtraction below zero of the unsigned sizes.  `SIZE_T` has 64 bits, so the sum
of an entry's size and its tags does not overflow.
-/

namespace Sandboxie.LogBuff

open List

structure LogBuffer where
  seqCounter : Nat
  bufferSize : Nat
  bufferUsed : Nat
  bufferStartPtr : Nat
  bufferData : List UInt8
deriving DecidableEq, Repr

/-- `log_buffer_init`, with what the allocated memory holds. -/
def logBufferInit (memory : List UInt8) : LogBuffer where
  seqCounter := 0
  bufferSize := memory.length
  bufferUsed := 0
  bufferStartPtr := 0
  bufferData := memory

/-- The size of an entry with its tags: `total_size`. -/
def totalSize (size : Nat) : Nat := size + 4 * 2 + 4

/-- `log_buffer_byte_at`: the byte's place, and the advanced pointer. -/
def logBufferByteAt (dataPtr : Int) (buf : LogBuffer) : Int × Int :=
  let data :=
    if (buf.bufferSize : Int) ≤ dataPtr then dataPtr - buf.bufferSize
    else if dataPtr < 0 then dataPtr + buf.bufferSize
    else dataPtr
  (data, data + 1)

def load (buf : LogBuffer) (ptr : Int) : Option UInt8 :=
  if ptr < 0 then none else buf.bufferData[ptr.toNat]?

def store (buf : LogBuffer) (ptr : Int) (c : UInt8) : Option LogBuffer :=
  if ptr < 0 ∨ (buf.bufferData.length : Int) ≤ ptr then none
  else some { buf with bufferData := buf.bufferData.set ptr.toNat c }

/-- `log_buffer_push_bytes`: the buffer and the advanced pointer. -/
def logBufferPushBytes : List UInt8 → Int → LogBuffer → Option (LogBuffer × Int)
  | [], writePtr, buf => some (buf, writePtr)
  | c :: data, writePtr, buf =>
    match logBufferByteAt writePtr buf with
    | (ptr, writePtr) =>
      match store buf ptr c with
      | none => none
      | some buf => logBufferPushBytes data writePtr buf

/-- `log_buffer_get_bytes`: the bytes and the advanced pointer. -/
def logBufferGetBytes : Nat → Int → LogBuffer → Option (List UInt8 × Int)
  | 0, readPtr, _ => some ([], readPtr)
  | size + 1, readPtr, buf =>
    match logBufferByteAt readPtr buf with
    | (ptr, readPtr) =>
      match load buf ptr with
      | none => none
      | some c => (logBufferGetBytes size readPtr buf).map fun r => (c :: r.1, r.2)

def logBufferGetSize (readPtr : Int) (buf : LogBuffer) : Option (Nat × Int) :=
  (logBufferGetBytes 4 readPtr buf).map fun r => (Bytes.u32 r.1 0, r.2)

def logBufferGetSeqNum (readPtr : Int) (buf : LogBuffer) : Option (Nat × Int) :=
  (logBufferGetBytes 4 readPtr buf).map fun r => (Bytes.u32 r.1 0, r.2)

def logBufferPopEntry (buf : LogBuffer) : Option LogBuffer :=
  if buf.bufferUsed = 0 then some buf
  else
    match logBufferGetSize buf.bufferStartPtr buf with
    | none => none
    | some (size, _) =>
      let total := totalSize size
      let start := buf.bufferStartPtr + total
      if buf.bufferUsed < total then none
      else
        some { buf with
          bufferStartPtr := if buf.bufferSize ≤ start then start - buf.bufferSize else start
          bufferUsed := buf.bufferUsed - total }

/-- The loop of `log_buffer_push_entry` that makes room, and whether there is room then.
Each turn takes an entry out, so `fuel` is a number that is above the bytes in use. -/
def makeRoom (total : Nat) (canPop : Bool) : Nat → LogBuffer → Option (LogBuffer × Bool)
  | 0, _ => none
  | fuel + 1, buf =>
    if buf.bufferSize - buf.bufferUsed < total then
      if canPop = false then some (buf, false)
      else
        match logBufferPopEntry buf with
        | none => none
        | some buf => makeRoom total canPop fuel buf
    else some (buf, true)

/-- `log_buffer_push_entry` behind its loop: the tags are written and the data left out. -/
def writeTags (size : Nat) (buf : LogBuffer) : Option (LogBuffer × Int) :=
  let writePtr : Int := buf.bufferStartPtr + buf.bufferUsed
  let buf := { buf with bufferUsed := buf.bufferUsed + totalSize size }
  match logBufferPushBytes (Bytes.ofU32 size) writePtr buf with
  | none => none
  | some (buf, writePtr) =>
    match logBufferPushBytes (Bytes.ofU32 buf.seqCounter) writePtr buf with
    | none => none
    | some (buf, writePtr) =>
      let endPtr := writePtr + size
      (logBufferPushBytes (Bytes.ofU32 size) endPtr buf).map fun r => (r.1, writePtr)

/-- `log_buffer_push_entry`: the buffer, and the pointer it returns. -/
def logBufferPushEntry (size : Nat) (buf : LogBuffer) (canPop : Bool) :
    Option (LogBuffer × Option Int) :=
  if buf.bufferSize < totalSize size then some (buf, none)
  else
    let buf := { buf with seqCounter := (buf.seqCounter + 1) % 2 ^ 32 }
    match makeRoom (totalSize size) canPop (buf.bufferUsed + 1) buf with
    | none => none
    | some (buf, false) => some (buf, none)
    | some (buf, true) => (writeTags size buf).map fun r => (r.1, some r.2)

/-- The entry in front of the offset `sizeLeft`, as the loop of `log_buffer_get_next` finds
it by the size behind it: a pointer to it, its total size and its number. -/
def entryBefore (sizeLeft : Nat) (buf : LogBuffer) : Option (Int × Nat × Nat) :=
  match logBufferGetSize ((buf.bufferStartPtr : Int) + sizeLeft - 4) buf with
  | none => none
  | some (size, endPtr) =>
    let total := totalSize size
    let readPtr := endPtr - total
    (logBufferGetSeqNum (readPtr + 4) buf).map fun r => (readPtr, total, r.1)

/-- The loop of `log_buffer_get_next`.  Each turn goes back by an entry, so `fuel` is a
number that is above `sizeLeft`. -/
def searchBack (seqNumber : Nat) (buf : LogBuffer) : Nat → Nat → Option (Option Int)
  | 0, _ => none
  | fuel + 1, sizeLeft =>
    if sizeLeft = 0 then
      if buf.bufferUsed ≠ 0 then some (some buf.bufferStartPtr) else some none
    else
      match entryBefore sizeLeft buf with
      | none => none
      | some (readPtr, total, curNumber) =>
        if curNumber = seqNumber ∧ sizeLeft = buf.bufferUsed then some none
        else if curNumber = (seqNumber + 1) % 2 ^ 32 then some (some readPtr)
        else if sizeLeft < total then none
        else searchBack seqNumber buf fuel (sizeLeft - total)

def logBufferGetNext (seqNumber : Nat) (buf : LogBuffer) : Option (Option Int) :=
  searchBack seqNumber buf (buf.bufferUsed + 1) buf.bufferUsed

/-! ### Callers -/

/-- A caller that logs an entry, piece by piece: the buffer, and whether it was logged. -/
def pushPieces : List (List UInt8) → Int → LogBuffer → Option LogBuffer
  | [], _, buf => some buf
  | piece :: pieces, writePtr, buf =>
    match logBufferPushBytes piece writePtr buf with
    | none => none
    | some (buf, writePtr) => pushPieces pieces writePtr buf

/-- An entry that is logged: its pieces, together not longer than a size can say. -/
structure Message where
  pieces : List (List UInt8)
  length_lt : pieces.flatten.length < 2 ^ 32
deriving DecidableEq, Repr

/-- A caller that logs an entry as `Api_AddMessage` and `Session_MonitorPut2` do: the
buffer, and whether the entry was logged. -/
def push (msg : Message) (canPop : Bool) (buf : LogBuffer) : Option (LogBuffer × Bool) :=
  match logBufferPushEntry msg.pieces.flatten.length buf canPop with
  | none => none
  | some (buf, none) => some (buf, false)
  | some (buf, some writePtr) => (pushPieces msg.pieces writePtr buf).map fun buf => (buf, true)

/-- A caller that reads the entry at a pointer: its number and its data. -/
def readEntry (readPtr : Int) (buf : LogBuffer) : Option (Nat × List UInt8) :=
  match logBufferGetSize readPtr buf with
  | none => none
  | some (size, readPtr) =>
    match logBufferGetSeqNum readPtr buf with
    | none => none
    | some (seqNumber, readPtr) =>
      (logBufferGetBytes size readPtr buf).map fun r => (seqNumber, r.1)

/-! ### Bytes of the ring -/

def view (buf : LogBuffer) : List UInt8 := buf.bufferData.rotate buf.bufferStartPtr

abbrev IsAt (buf : LogBuffer) (ptr : Int) (i : Nat) : Prop :=
  Ring.At buf.bufferSize buf.bufferStartPtr ptr i

def Inside (buf : LogBuffer) (ptr : Int) : Prop := 1 ≤ ptr ∧ ptr ≤ buf.bufferSize

theorem length_view (buf : LogBuffer) : (view buf).length = buf.bufferData.length :=
  length_rotate ..

variable {buf : LogBuffer} {ptr : Int}

theorem logBufferByteAt_eq {i : Nat} (h : IsAt buf ptr i) :
    logBufferByteAt ptr buf =
      ((((buf.bufferStartPtr + i) % buf.bufferSize : Nat) : Int),
        Ring.wrap buf.bufferSize ptr + 1) := by
  rw [← h.wrap]
  rfl

theorem logBufferPushBytes_spec {d : List UInt8} : ∀ {buf : LogBuffer} {a f b : List UInt8}
    {ptr : Int}, buf.bufferData.length = buf.bufferSize → view buf = a ++ f ++ b →
      f.length = d.length → IsAt buf ptr a.length →
      ∃ data ptr', logBufferPushBytes d ptr buf = some ({ buf with bufferData := data }, ptr') ∧
        data.length = buf.bufferSize ∧ data.rotate buf.bufferStartPtr = a ++ d ++ b ∧
        IsAt buf ptr' (a.length + d.length) ∧ (d ≠ [] → Inside buf ptr') := by
  induction d with
  | nil =>
    intro buf a f b ptr hlen hview hf hat
    have hf : f = [] := eq_nil_of_length_eq_zero hf
    subst hf
    exact ⟨buf.bufferData, ptr, rfl, hlen, hview, hat, fun h => absurd rfl h⟩
  | cons c d ih =>
    intro buf a f b ptr hlen hview hf hat
    obtain ⟨x, f, rfl⟩ : ∃ x f', f = x :: f' := exists_cons_of_length_eq_add_one hf
    have hi : a.length < buf.bufferData.length := by
      rw [← length_view, hview]
      simp
    have hpos : (buf.bufferStartPtr + a.length) % buf.bufferSize < buf.bufferData.length := by
      rw [hlen]
      exact Nat.mod_lt _ hat.pos
    let buf' : LogBuffer :=
      { buf with
        bufferData := buf.bufferData.set ((buf.bufferStartPtr + a.length) % buf.bufferSize) c }
    have hstore : store buf (((buf.bufferStartPtr + a.length) % buf.bufferSize : Nat) : Int) c =
        some buf' := by
      rw [store, if_neg (by omega)]
      rfl
    have hlen' : buf'.bufferData.length = buf'.bufferSize := by
      show (buf.bufferData.set _ c).length = _
      rw [length_set, hlen]
    have hview' : view buf' = (a ++ [c]) ++ f ++ b := by
      show (buf.bufferData.set _ c).rotate buf.bufferStartPtr = _
      have hset := Ring.rotate_set buf.bufferData buf.bufferStartPtr hi c
      rw [hlen] at hset
      rw [hset]
      show (view buf).set a.length c = _
      rw [hview]
      simp
    have hnext := hat.next
    have hat1 : IsAt buf' (Ring.wrap buf.bufferSize ptr + 1) (a ++ [c]).length := by
      simpa using hnext.1
    obtain ⟨data, ptr', hpush, hdata, hrot, hat', hin⟩ := ih hlen' hview' (by simpa using hf) hat1
    refine ⟨data, ptr', ?_, hdata, ?_, ?_, ?_⟩
    · rw [logBufferPushBytes, logBufferByteAt_eq hat]
      simp only [hstore]
      exact hpush
    · rw [hrot]
      simp
    · have hsum : a.length + (c :: d).length = (a ++ [c]).length + d.length := by simp; omega
      rw [hsum]
      exact hat'
    intro _
    cases d with
    | nil =>
      have hptr : ptr' = Ring.wrap buf.bufferSize ptr + 1 := by
        rw [logBufferPushBytes] at hpush
        simp only [Option.some.injEq, Prod.mk.injEq] at hpush
        exact hpush.2.symm
      rw [hptr]
      exact hnext.2
    | cons y d => exact hin (by simp)

theorem logBufferGetBytes_spec (hlen : buf.bufferData.length = buf.bufferSize)
    {d : List UInt8} : ∀ {a b : List UInt8} {ptr : Int}, view buf = a ++ d ++ b →
      IsAt buf ptr a.length →
      ∃ ptr', logBufferGetBytes d.length ptr buf = some (d, ptr') ∧
        IsAt buf ptr' (a.length + d.length) ∧ (d ≠ [] → Inside buf ptr') := by
  induction d with
  | nil =>
    intro a b ptr _ hat
    exact ⟨ptr, rfl, hat, fun h => absurd rfl h⟩
  | cons c d ih =>
    intro a b ptr hview hat
    have hi : a.length < buf.bufferData.length := by
      rw [← length_view, hview]
      simp
    have hload : load buf
      (((buf.bufferStartPtr + a.length) % buf.bufferSize : Nat) : Int) = some c := by
      have hcell := Ring.getElem?_rotate buf.bufferData buf.bufferStartPtr hi
      rw [load, if_neg (by omega), Int.toNat_natCast, ← hlen, ← hcell]
      show (view buf)[a.length]? = some c
      rw [hview]
      simp
    have hnext := hat.next
    have hview' : view buf = (a ++ [c]) ++ d ++ b := by rw [hview]; simp
    have hat1 : IsAt buf (Ring.wrap buf.bufferSize ptr + 1) (a ++ [c]).length := by
      simpa using hnext.1
    obtain ⟨ptr', hget, hat', hin⟩ := ih hview' hat1
    refine ⟨ptr', ?_, ?_, ?_⟩
    · rw [length_cons, logBufferGetBytes, logBufferByteAt_eq hat]
      simp only [hload, hget, Option.map_some]
    · have hsum : a.length + (c :: d).length = (a ++ [c]).length + d.length := by simp; omega
      rw [hsum]
      exact hat'
    intro _
    cases d with
    | nil =>
      have hptr : ptr' = Ring.wrap buf.bufferSize ptr + 1 := by
        rw [length_nil, logBufferGetBytes] at hget
        simp only [Option.some.injEq, Prod.mk.injEq] at hget
        exact hget.2.symm
      rw [hptr]
      exact hnext.2
    | cons y d => exact hin (by simp)

theorem logBufferGetSize_spec (hlen : buf.bufferData.length = buf.bufferSize)
    {n : Nat} (hn : n < 2 ^ 32) {a b : List UInt8} (hview : view buf = a ++ Bytes.ofU32 n ++ b)
    (hat : IsAt buf ptr a.length) :
    ∃ ptr', logBufferGetSize ptr buf = some (n, ptr') ∧ IsAt buf ptr' (a.length + 4) ∧
      Inside buf ptr' := by
  obtain ⟨ptr', hget, hat', hin⟩ := logBufferGetBytes_spec hlen hview hat
  rw [Bytes.length_ofU32] at hget hat'
  refine ⟨ptr', ?_, hat', hin (by simp [Bytes.ofU32])⟩
  rw [logBufferGetSize, hget, Option.map_some, Bytes.u32_ofU32 hn]

/-! ### Entries -/

/-- What is logged: a number and data, which a tag can say the number and the length of. -/
structure Entry where
  seqNumber : Nat
  data : List UInt8
  seqNumber_lt : seqNumber < 2 ^ 32
  length_lt : data.length < 2 ^ 32
deriving DecidableEq, Repr

namespace Entry

def bytes (e : Entry) : List UInt8 :=
  Bytes.ofU32 e.data.length ++ Bytes.ofU32 e.seqNumber ++ e.data ++ Bytes.ofU32 e.data.length

def content (e : Entry) : Nat × List UInt8 := (e.seqNumber, e.data)

theorem length_bytes (e : Entry) : e.bytes.length = totalSize e.data.length := by
  simp only [bytes, length_append, Bytes.length_ofU32, totalSize]
  omega

theorem length_pos (e : Entry) : 12 ≤ e.bytes.length := by
  rw [length_bytes, totalSize]
  omega

end Entry

def bytesOf (entries : List Entry) : List UInt8 := entries.flatMap Entry.bytes

theorem bytesOf_append (es fs : List Entry) : bytesOf (es ++ fs) = bytesOf es ++ bytesOf fs :=
  flatMap_append

theorem bytesOf_cons (e : Entry) (es : List Entry) : bytesOf (e :: es) = e.bytes ++ bytesOf es :=
  flatMap_cons

theorem bytesOf_singleton (e : Entry) : bytesOf [e] = e.bytes := by
  rw [bytesOf_cons, bytesOf, flatMap_nil, append_nil]

/-- **The buffer holds these entries**, the oldest first. -/
structure Holds (buf : LogBuffer) (entries : List Entry) : Prop where
  length_data : buf.bufferData.length = buf.bufferSize
  start_lt : 0 < buf.bufferSize → buf.bufferStartPtr < buf.bufferSize
  used : buf.bufferUsed = (bytesOf entries).length
  held : bytesOf entries <+: view buf

theorem holds_init (memory : List UInt8) : Holds (logBufferInit memory) [] where
  length_data := rfl
  start_lt h := h
  used := rfl
  held := nil_prefix

namespace Holds

variable {buf : LogBuffer} {es fs : List Entry} {e : Entry}

theorem used_le (h : Holds buf es) : buf.bufferUsed ≤ buf.bufferSize := by
  rw [h.used, ← h.length_data, ← length_view]
  exact h.held.length_le

theorem view_eq (h : Holds buf (es ++ e :: fs)) :
    ∃ rest, view buf = bytesOf es ++ e.bytes ++ rest := by
  obtain ⟨free, hfree⟩ := h.held
  refine ⟨bytesOf fs ++ free, ?_⟩
  rw [← hfree, bytesOf_append, bytesOf_cons]
  simp

theorem used_cons (h : Holds buf (e :: es)) :
    buf.bufferUsed = totalSize e.data.length + (bytesOf es).length := by
  rw [h.used, bytesOf_cons, length_append, e.length_bytes]

theorem used_eq_zero_iff (h : Holds buf es) : buf.bufferUsed = 0 ↔ es = [] := by
  rw [h.used]
  refine ⟨fun hzero => ?_, fun hnil => by rw [hnil]; rfl⟩
  cases es with
  | nil => rfl
  | cons e es =>
    have hpos := e.length_pos
    rw [bytesOf_cons, length_append] at hzero
    omega

theorem isAt (h : Holds buf es) (hpos : 0 < buf.bufferSize) {i : Nat} (hi : i ≤ buf.bufferSize) :
    IsAt buf ((buf.bufferStartPtr : Int) + i) i :=
  Ring.At.start (h.start_lt hpos) hi

end Holds

theorem readEntry_spec (hlen : buf.bufferData.length = buf.bufferSize)
    {e : Entry} {a rest : List UInt8} (hview : view buf = a ++ e.bytes ++ rest)
    (hat : IsAt buf ptr a.length) : readEntry ptr buf = some e.content := by
  have hsize : view buf = a ++ Bytes.ofU32 e.data.length ++
      (Bytes.ofU32 e.seqNumber ++ e.data ++ Bytes.ofU32 e.data.length ++ rest) := by
    rw [hview, Entry.bytes]
    simp only [append_assoc]
  obtain ⟨ptr1, hget1, hat1, _⟩ := logBufferGetSize_spec hlen e.length_lt hsize hat
  have hseq : view buf = (a ++ Bytes.ofU32 e.data.length) ++ Bytes.ofU32 e.seqNumber ++
      (e.data ++ Bytes.ofU32 e.data.length ++ rest) := by
    rw [hsize]
    simp only [append_assoc]
  have hat1 : IsAt buf ptr1 (a ++ Bytes.ofU32 e.data.length).length := by simpa using hat1
  obtain ⟨ptr2, hget2, hat2, _⟩ := logBufferGetSize_spec hlen e.seqNumber_lt hseq hat1
  have hdata : view buf = (a ++ Bytes.ofU32 e.data.length ++ Bytes.ofU32 e.seqNumber) ++ e.data ++
      (Bytes.ofU32 e.data.length ++ rest) := by
    rw [hsize]
    simp only [append_assoc]
  have hat2 : IsAt buf ptr2 (a ++ Bytes.ofU32 e.data.length ++ Bytes.ofU32 e.seqNumber).length := by
    simpa [Nat.add_assoc] using hat2
  obtain ⟨ptr3, hget3, _, _⟩ := logBufferGetBytes_spec hlen hdata hat2
  have hget2' : logBufferGetSeqNum ptr1 buf = some (e.seqNumber, ptr2) := hget2
  rw [readEntry, hget1]
  simp only [hget2', hget3, Option.map_some]
  rfl

theorem logBufferPopEntry_spec {e : Entry} {es : List Entry}
    (h : Holds buf (e :: es)) :
    ∃ buf', logBufferPopEntry buf = some buf' ∧ Holds buf' es ∧
      buf'.bufferSize = buf.bufferSize ∧ buf'.seqCounter = buf.seqCounter ∧
      buf'.bufferUsed + totalSize e.data.length = buf.bufferUsed := by
  have hused := h.used_cons
  have hle := h.used_le
  have htotal : 12 ≤ totalSize e.data.length := by rw [totalSize]; omega
  obtain ⟨rest, hview⟩ := (show Holds buf ([] ++ e :: es) from h).view_eq
  have hsize : view buf = [] ++ Bytes.ofU32 e.data.length ++
      (Bytes.ofU32 e.seqNumber ++ e.data ++ Bytes.ofU32 e.data.length ++ rest) := by
    rw [hview, Entry.bytes, show bytesOf [] = [] from rfl]
    simp only [append_assoc]
  have hat : IsAt buf buf.bufferStartPtr ([] : List UInt8).length := by
    simpa using h.isAt (by omega) (Nat.zero_le _)
  obtain ⟨ptr, hget, _, _⟩ := logBufferGetSize_spec h.length_data e.length_lt hsize hat
  have hstart := h.start_lt (by omega)
  let start := buf.bufferStartPtr + totalSize e.data.length
  let buf' : LogBuffer :=
    { buf with
      bufferStartPtr := if buf.bufferSize ≤ start then start - buf.bufferSize else start
      bufferUsed := buf.bufferUsed - totalSize e.data.length }
  refine ⟨buf', ?_, ?_, rfl, rfl, ?_⟩
  · rw [logBufferPopEntry, if_neg (by omega), hget]
    show (if buf.bufferUsed < totalSize e.data.length then none else some buf') = some buf'
    rw [if_neg (by omega)]
  · refine ⟨h.length_data, fun _ => ?_, ?_, ?_⟩
    · show (if buf.bufferSize ≤ start then start - buf.bufferSize else start) < buf.bufferSize
      split <;> omega
    · show buf.bufferUsed - totalSize e.data.length = _
      omega
    · obtain ⟨free, hfree⟩ := h.held
      have hrot : view buf' = (view buf).rotate e.bytes.length := by
        rw [view, view, rotate_rotate, e.length_bytes]
        show buf.bufferData.rotate
          (if buf.bufferSize ≤ start then start - buf.bufferSize else start)
          = buf.bufferData.rotate start
        split
        · rename_i hge
          rw [← h.length_data] at hge ⊢
          rw [← rotate_mod buf.bufferData start, Nat.mod_eq_sub_mod hge, rotate_mod]
        · rfl
      rw [hrot, ← hfree, bytesOf_cons, append_assoc, rotate_append_length_eq,
        append_assoc]
      exact prefix_append ..
  · show buf.bufferUsed - totalSize e.data.length + totalSize e.data.length = _
    omega

end Sandboxie.LogBuff
