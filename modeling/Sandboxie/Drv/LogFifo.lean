import Mathlib.Data.List.DropRight
import Sandboxie.Drv.LogBuff

/-!
# The log buffer as a queue

The log buffer is a queue of entries: those that were pushed with success and not yet
popped, the oldest first.  `Fifo` is that queue, `step_refines` says that the operations on
the ring are the operations on the queue, and `run_fifo` reads the ring back, forwards and
backwards, after any run.
-/

namespace Sandboxie.LogBuff

open List

/-! ### The queue -/

def usedBy (entries : List Entry) : Nat := (entries.map fun e => totalSize e.data.length).sum

/-- How many of the oldest entries go to make room. -/
def popsFor (bufferSize total : Nat) : List Entry → Nat
  | [] => 0
  | e :: es =>
    if bufferSize - usedBy (e :: es) < total then popsFor bufferSize total es + 1 else 0

/-- The entries that were pushed with success, and how many of them were popped. -/
structure Fifo where
  seqCounter : Nat
  pushed : List Entry
  popped : Nat
  popped_le : popped ≤ pushed.length

namespace Fifo

def empty : Fifo := ⟨0, [], 0, le_rfl⟩

def entries (q : Fifo) : List Entry := q.pushed.drop q.popped

end Fifo

theorem popsFor_le (bufferSize total : Nat) (es : List Entry) :
    popsFor bufferSize total es ≤ es.length := by
  induction es with
  | nil => exact le_rfl
  | cons e es ih =>
    rw [popsFor, length_cons]
    split <;> omega

namespace Fifo

theorem length_entries (q : Fifo) : q.entries.length = q.pushed.length - q.popped :=
  length_drop ..

def nextSeq (q : Fifo) : Nat := (q.seqCounter + 1) % 2 ^ 32

/-- The entry that a message becomes. -/
def entryOf (q : Fifo) (msg : Message) : Entry where
  seqNumber := q.nextSeq
  data := msg.pieces.flatten
  seqNumber_lt := Nat.mod_lt _ (by decide)
  length_lt := msg.length_lt

/-- There is no room for the message, and none may be made. -/
def Refuses (bufferSize : Nat) (msg : Message) (canPop : Bool) (q : Fifo) : Prop :=
  canPop = false ∧ bufferSize - usedBy q.entries < totalSize msg.pieces.flatten.length

instance (bufferSize : Nat) (msg : Message) (canPop : Bool) (q : Fifo) :
    Decidable (Refuses bufferSize msg canPop q) := inferInstanceAs (Decidable (_ ∧ _))

/-- A message that is not too long for the buffer takes a number; it is pushed when there
is room, or the oldest entries may be popped to make it. -/
def push (bufferSize : Nat) (msg : Message) (canPop : Bool) (q : Fifo) : Fifo × Bool :=
  if bufferSize < totalSize msg.pieces.flatten.length then (q, false)
  else if Refuses bufferSize msg canPop q then ({ q with seqCounter := q.nextSeq }, false)
  else
    ({  seqCounter := q.nextSeq
        pushed := q.pushed ++ [q.entryOf msg]
        popped := q.popped + popsFor bufferSize (totalSize msg.pieces.flatten.length) q.entries
        popped_le := by
          have hle := popsFor_le bufferSize (totalSize msg.pieces.flatten.length) q.entries
          have hq := q.popped_le
          rw [length_entries] at hle
          rw [List.length_append]
          omega }, true)

def pop (q : Fifo) : Fifo where
  seqCounter := q.seqCounter
  pushed := q.pushed
  popped := min (q.popped + 1) q.pushed.length
  popped_le := min_le_right _ _

theorem entries_pop (q : Fifo) : q.pop.entries = q.entries.tail := by
  rw [entries, pop, entries, tail_drop]
  show q.pushed.drop (min (q.popped + 1) q.pushed.length) = _
  rcases Nat.le_total (q.popped + 1) q.pushed.length with h | h
  · rw [min_eq_left h]
  · rw [min_eq_right h, drop_length, drop_of_length_le h]

end Fifo

inductive Op
  | push (msg : Message) (canPop : Bool)
  | pop

def step : Op → LogBuffer → Option (LogBuffer × Bool)
  | .push msg canPop, buf => push msg canPop buf
  | .pop, buf => (logBufferPopEntry buf).map fun buf => (buf, false)

def Fifo.step (bufferSize : Nat) : Op → Fifo → Fifo × Bool
  | .push msg canPop, q => q.push bufferSize msg canPop
  | .pop, q => (q.pop, false)

def run : List Op → LogBuffer → Option (LogBuffer × List Bool)
  | [], buf => some (buf, [])
  | op :: ops, buf =>
    match step op buf with
    | none => none
    | some (buf, logged) => (run ops buf).map fun r => (r.1, logged :: r.2)

def Fifo.run (bufferSize : Nat) : List Op → Fifo → Fifo × List Bool
  | [], q => (q, [])
  | op :: ops, q =>
    let r := Fifo.step bufferSize op q
    let rest := Fifo.run bufferSize ops r.1
    (rest.1, r.2 :: rest.2)

/-! ### The ring is the queue -/

theorem length_bytesOf (es : List Entry) : (bytesOf es).length = usedBy es := by
  induction es with
  | nil => rfl
  | cons e es ih =>
    rw [bytesOf_cons, length_append, e.length_bytes, ih, usedBy, usedBy, map_cons,
      sum_cons]

theorem exists_append {l : List UInt8} {n : Nat} (h : n ≤ l.length) :
    ∃ a b, l = a ++ b ∧ a.length = n :=
  ⟨l.take n, l.drop n, (take_append_drop n l).symm, length_take_of_le h⟩

theorem makeRoom_spec {total : Nat} : ∀ {fuel : Nat} {buf : LogBuffer} {es : List Entry},
    Holds buf es → buf.bufferUsed < fuel → total ≤ buf.bufferSize →
      ∃ buf', makeRoom total true fuel buf = some (buf', true) ∧
        Holds buf' (es.drop (popsFor buf.bufferSize total es)) ∧
        buf'.bufferSize = buf.bufferSize ∧ buf'.seqCounter = buf.seqCounter ∧
        total ≤ buf'.bufferSize - buf'.bufferUsed := by
  intro fuel
  induction fuel with
  | zero => intro buf es _ hfuel; omega
  | succ fuel ih =>
    intro buf es h hfuel htotal
    rw [makeRoom]
    by_cases hroom : buf.bufferSize - buf.bufferUsed < total
    · rw [if_pos hroom, if_neg (by simp)]
      cases es with
      | nil =>
        have hzero := h.used_eq_zero_iff.mpr rfl
        omega
      | cons e es =>
        obtain ⟨buf1, hpop, hholds, hsize, hseq, hused⟩ := logBufferPopEntry_spec h
        have hpos : 12 ≤ totalSize e.data.length := by rw [totalSize]; omega
        obtain ⟨buf', hmake, hholds', hsize', hseq', hroom'⟩ :=
          ih hholds (by omega) (by rw [hsize]; exact htotal)
        have hpops : popsFor buf.bufferSize total (e :: es) =
            popsFor buf.bufferSize total es + 1 := by
          rw [popsFor, if_pos]
          rw [← length_bytesOf, ← h.used]
          exact hroom
        refine ⟨buf', ?_, ?_, hsize'.trans hsize, hseq'.trans hseq, hroom'⟩
        · simp only [hpop]
          exact hmake
        · rw [hpops, drop_succ_cons, ← hsize]
          exact hholds'
    · have hpops : popsFor buf.bufferSize total es = 0 := by
        cases es with
        | nil => rfl
        | cons e es =>
          rw [popsFor, if_neg]
          rw [← length_bytesOf, ← h.used]
          exact hroom
      rw [if_neg hroom, hpops]
      exact ⟨buf, rfl, h, rfl, rfl, by omega⟩

variable {pieces : List (List UInt8)}

theorem pushPieces_spec : ∀ {buf : LogBuffer} {a f b : List UInt8}
    {ptr : Int}, buf.bufferData.length = buf.bufferSize → view buf = a ++ f ++ b →
      f.length = pieces.flatten.length → IsAt buf ptr a.length →
      ∃ data, pushPieces pieces ptr buf = some { buf with bufferData := data } ∧
        data.length = buf.bufferSize ∧
        data.rotate buf.bufferStartPtr = a ++ pieces.flatten ++ b := by
  induction pieces with
  | nil =>
    intro buf a f b ptr hlen hview hf _
    have hf : f = [] := eq_nil_of_length_eq_zero hf
    subst hf
    exact ⟨buf.bufferData, rfl, hlen, hview⟩
  | cons piece pieces ih =>
    intro buf a f b ptr hlen hview hf hat
    rw [flatten_cons, length_append] at hf
    obtain ⟨f1, f2, rfl, hf1⟩ := exists_append (show piece.length ≤ f.length by omega)
    rw [length_append] at hf
    have hview1 : view buf = a ++ f1 ++ (f2 ++ b) := by rw [hview]; simp
    obtain ⟨data1, ptr1, hpush, hlen1, hrot1, hat1, _⟩ :=
      logBufferPushBytes_spec hlen hview1 hf1 hat
    let buf1 : LogBuffer := { buf with bufferData := data1 }
    have hview2 : view buf1 = (a ++ piece) ++ f2 ++ b := by
      show data1.rotate buf.bufferStartPtr = _
      rw [hrot1]
      simp
    have hat2 : IsAt buf1 ptr1 (a ++ piece).length := by
      rw [length_append]
      exact hat1
    obtain ⟨data, hrest, hdata, hrot⟩ :=
      ih (show buf1.bufferData.length = buf1.bufferSize from hlen1) hview2 (by omega) hat2
    refine ⟨data, ?_, hdata, ?_⟩
    · rw [pushPieces, hpush]
      exact hrest
    · rw [flatten_cons, ← append_assoc]
      exact hrot

variable {buf : LogBuffer} {es : List Entry}

/-- With room for it, an entry is written behind the others.  Its size may be more than the
pieces fill; what is behind them then is what the ring had there. -/
theorem writeTags_prefix (h : Holds buf es) {size : Nat}
    (hsize : size < 2 ^ 32) (hseq : buf.seqCounter < 2 ^ 32)
    (hroom : totalSize size ≤ buf.bufferSize - buf.bufferUsed)
    (hpieces : pieces.flatten.length ≤ size) :
    ∃ buf1 ptr, writeTags size buf = some (buf1, ptr) ∧
      ∃ buf' e, pushPieces pieces ptr buf1 = some buf' ∧ Holds buf' (es ++ [e]) ∧
        e.seqNumber = buf.seqCounter ∧ e.data.length = size ∧ pieces.flatten <+: e.data ∧
        buf'.bufferSize = buf.bufferSize ∧ buf'.seqCounter = buf.seqCounter := by
  have hlen := h.length_data
  have hle := h.used_le
  have htotal : totalSize size = 4 + 4 + size + 4 := by rw [totalSize]; omega
  obtain ⟨free, hfree⟩ := h.held
  have hfreelen : (bytesOf es).length + free.length = buf.bufferSize := by
    rw [← hlen, ← length_view, ← hfree, length_append]
  have hused := h.used
  -- the tags and the data fall on parts of the free space
  obtain ⟨f1, r1, rfl, hf1⟩ := exists_append (show 4 ≤ free.length by omega)
  rw [length_append] at hfreelen
  obtain ⟨f2, r2, rfl, hf2⟩ := exists_append (show 4 ≤ r1.length by omega)
  rw [length_append] at hfreelen
  obtain ⟨f3, r3, rfl, hf3⟩ := exists_append (show size ≤ r2.length by omega)
  rw [length_append] at hfreelen
  obtain ⟨f4, rest, rfl, hf4⟩ := exists_append (show 4 ≤ r3.length by omega)
  obtain ⟨stored, slack, rfl, hstored⟩ :=
    exists_append (show pieces.flatten.length ≤ f3.length by omega)
  let sizeTag := Bytes.ofU32 size
  let seqTag := Bytes.ofU32 buf.seqCounter
  let buf0 : LogBuffer := { buf with bufferUsed := buf.bufferUsed + totalSize size }
  have hview0 : view buf0 = bytesOf es ++ f1 ++ (f2 ++ (stored ++ slack ++ (f4 ++ rest))) := by
    show view buf = _
    rw [← hfree]
    simp
  have hat0 : IsAt buf0 ((buf.bufferStartPtr : Int) + buf.bufferUsed) (bytesOf es).length := by
    rw [← hused]
    exact h.isAt (by omega) hle
  obtain ⟨data1, ptr1, hpush1, hlen1, hrot1, hat1, _⟩ :=
    logBufferPushBytes_spec (show buf0.bufferData.length = buf0.bufferSize from hlen) hview0
      (show f1.length = sizeTag.length from hf1) hat0
  let buf1 : LogBuffer := { buf0 with bufferData := data1 }
  have hview1 : view buf1 = (bytesOf es ++ sizeTag) ++ f2 ++ (stored ++ slack ++ (f4 ++ rest)) := by
    show data1.rotate buf.bufferStartPtr = _
    rw [show data1.rotate buf.bufferStartPtr = _ from hrot1]
    simp
  have hat1 : IsAt buf1 ptr1 (bytesOf es ++ sizeTag).length := by
    rw [length_append]
    exact hat1
  obtain ⟨data2, ptr2, hpush2, hlen2, hrot2, hat2, hin2⟩ :=
    logBufferPushBytes_spec (show buf1.bufferData.length = buf1.bufferSize from hlen1) hview1
      (show f2.length = seqTag.length from hf2) hat1
  let buf2 : LogBuffer := { buf1 with bufferData := data2 }
  have hat2 : IsAt buf2 ptr2 (bytesOf es ++ sizeTag ++ seqTag).length := by
    rw [length_append]
    exact hat2
  have hview2 : view buf2 =
      (bytesOf es ++ sizeTag ++ seqTag ++ (stored ++ slack)) ++ f4 ++ rest := by
    show data2.rotate buf.bufferStartPtr = _
    rw [show data2.rotate buf.bufferStartPtr = _ from hrot2]
    simp
  have hend : IsAt buf2 (ptr2 + size)
      (bytesOf es ++ sizeTag ++ seqTag ++ (stored ++ slack)).length := by
    obtain ⟨hlow, hhigh⟩ := hin2 (by simp [seqTag, Bytes.ofU32])
    have hhigh : ptr2 ≤ buf.bufferSize := hhigh
    refine hat2.move _ ?_ ?_ ?_
    · show -(buf.bufferSize : Int) ≤ _
      omega
    · show _ < 2 * (buf.bufferSize : Int)
      omega
    · rw [@length_append _ (bytesOf es ++ sizeTag ++ seqTag) (stored ++ slack), hf3,
        Int.natCast_add]
  obtain ⟨data3, ptr3, hpush3, hlen3, hrot3, _, _⟩ :=
    logBufferPushBytes_spec (show buf2.bufferData.length = buf2.bufferSize from hlen2) hview2
      (show f4.length = sizeTag.length from hf4) hend
  let buf3 : LogBuffer := { buf2 with bufferData := data3 }
  have hview3 : view buf3 =
      (bytesOf es ++ sizeTag ++ seqTag) ++ stored ++ (slack ++ (sizeTag ++ rest)) := by
    show data3.rotate buf.bufferStartPtr = _
    rw [show data3.rotate buf.bufferStartPtr = _ from hrot3]
    simp
  obtain ⟨data4, hpush4, hlen4, hrot4⟩ :=
    pushPieces_spec (show buf3.bufferData.length = buf3.bufferSize from hlen3) hview3 hstored
      (show IsAt buf3 ptr2 _ from hat2)
  have hdata : (pieces.flatten ++ slack).length = size := by
    rw [length_append] at hf3 ⊢
    omega
  let e : Entry := ⟨buf.seqCounter, pieces.flatten ++ slack, hseq, by rw [hdata]; exact hsize⟩
  refine ⟨buf3, ptr2, ?_, { buf3 with bufferData := data4 }, e, hpush4, ?_, rfl, hdata,
    prefix_append _ _, rfl, rfl⟩
  · have hpush1 : logBufferPushBytes (Bytes.ofU32 size)
        ((buf.bufferStartPtr : Int) + buf.bufferUsed) buf0 = some (buf1, ptr1) := hpush1
    have hpush2 : logBufferPushBytes (Bytes.ofU32 buf1.seqCounter) ptr1 buf1 =
        some (buf2, ptr2) := hpush2
    have hpush3 : logBufferPushBytes (Bytes.ofU32 size) (ptr2 + size) buf2 =
        some (buf3, ptr3) := hpush3
    rw [writeTags]
    rw [hpush1]
    dsimp only
    rw [hpush2]
    dsimp only
    rw [hpush3]
    rfl
  · have hbytes : bytesOf (es ++ [e]) =
        bytesOf es ++ sizeTag ++ seqTag ++ pieces.flatten ++ (slack ++ sizeTag) := by
      rw [bytesOf_append, bytesOf_singleton, Entry.bytes, hdata]
      simp [sizeTag, seqTag, e]
    refine ⟨hlen4, h.start_lt, ?_, ?_⟩
    · show buf.bufferUsed + totalSize size = _
      rw [bytesOf_append, bytesOf_singleton, length_append, e.length_bytes, hused, hdata]
    · show _ <+: data4.rotate buf.bufferStartPtr
      rw [show data4.rotate buf.bufferStartPtr = _ from hrot4, hbytes]
      refine ⟨rest, ?_⟩
      simp

theorem writeTags_spec (h : Holds buf es) (e : Entry) (hseq : buf.seqCounter = e.seqNumber)
    (hroom : totalSize e.data.length ≤ buf.bufferSize - buf.bufferUsed)
    (hpieces : pieces.flatten = e.data) :
    ∃ buf1 ptr, writeTags e.data.length buf = some (buf1, ptr) ∧
      ∃ buf', pushPieces pieces ptr buf1 = some buf' ∧ Holds buf' (es ++ [e]) ∧
        buf'.bufferSize = buf.bufferSize ∧ buf'.seqCounter = buf.seqCounter := by
  obtain ⟨buf1, ptr, hwrite, buf', f, hpush, hholds, hfseq, hflen, hprefix, hsame⟩ :=
    writeTags_prefix h e.length_lt (by rw [hseq]; exact e.seqNumber_lt) hroom
      (show pieces.flatten.length ≤ e.data.length by rw [hpieces])
  have hdata : e.data = f.data := by
    rw [← hpieces] at hflen ⊢
    exact hprefix.eq_of_length hflen.symm
  have hf : f = e := by
    cases e
    cases f
    simp only [Entry.mk.injEq]
    exact ⟨hfseq.trans hseq, hdata.symm⟩
  rw [hf] at hholds
  exact ⟨buf1, ptr, hwrite, buf', hpush, hholds, hsame⟩

/-- The buffer holds the entries of the queue. -/
structure Refines (buf : LogBuffer) (q : Fifo) : Prop where
  holds : Holds buf q.entries
  seqCounter : buf.seqCounter = q.seqCounter

theorem push_refines {q : Fifo} (h : Refines buf q) (msg : Message) (canPop : Bool) :
    ∃ buf', push msg canPop buf = some (buf', (q.push buf.bufferSize msg canPop).2) ∧
      Refines buf' (q.push buf.bufferSize msg canPop).1 ∧ buf'.bufferSize = buf.bufferSize := by
  let size := msg.pieces.flatten.length
  rw [push, logBufferPushEntry, Fifo.push]
  by_cases htotal : buf.bufferSize < totalSize size
  · rw [if_pos htotal, if_pos htotal]
    exact ⟨buf, rfl, h, rfl⟩
  rw [if_neg htotal, if_neg htotal]
  let buf1 : LogBuffer := { buf with seqCounter := (buf.seqCounter + 1) % 2 ^ 32 }
  have hholds1 : Holds buf1 q.entries :=
    ⟨h.holds.length_data, h.holds.start_lt, h.holds.used, h.holds.held⟩
  have hseq1 : buf1.seqCounter = q.nextSeq := by
    show (buf.seqCounter + 1) % 2 ^ 32 = _
    rw [h.seqCounter]
    rfl
  have hused : buf.bufferUsed = usedBy q.entries := by rw [h.holds.used, length_bytesOf]
  by_cases hrefuse : Fifo.Refuses buf.bufferSize msg canPop q
  · rw [if_pos hrefuse]
    have hmake : makeRoom (totalSize size) canPop (buf1.bufferUsed + 1) buf1 =
        some (buf1, false) := by
      rw [makeRoom, if_pos, if_pos hrefuse.1]
      show buf.bufferSize - buf.bufferUsed < _
      rw [hused]
      exact hrefuse.2
    refine ⟨buf1, ?_, ⟨hholds1, hseq1⟩, rfl⟩
    dsimp only
    rw [hmake]
  · rw [if_neg hrefuse]
    obtain ⟨buf2, hmake, hholds2, hsize2, hseq2, hroom⟩ :
        ∃ buf2, makeRoom (totalSize size) canPop (buf1.bufferUsed + 1) buf1 =
            some (buf2, true) ∧
          Holds buf2 (q.entries.drop (popsFor buf.bufferSize (totalSize size) q.entries)) ∧
          buf2.bufferSize = buf.bufferSize ∧ buf2.seqCounter = buf1.seqCounter ∧
          totalSize size ≤ buf2.bufferSize - buf2.bufferUsed := by
      cases canPop with
      | true => exact makeRoom_spec hholds1 (Nat.lt_succ_self _) (not_lt.mp htotal)
      | false =>
        have hroom : totalSize size ≤ buf.bufferSize - usedBy q.entries :=
          not_lt.mp fun hlt => hrefuse ⟨rfl, hlt⟩
        have hpops : popsFor buf.bufferSize (totalSize size) q.entries = 0 := by
          cases hes : q.entries with
          | nil => rfl
          | cons e es =>
            rw [popsFor, if_neg]
            rw [hes] at hroom
            exact not_lt.mpr hroom
        rw [← hused] at hroom
        rw [hpops]
        refine ⟨buf1, ?_, hholds1, rfl, rfl, hroom⟩
        rw [makeRoom, if_neg]
        exact not_lt.mpr hroom
    obtain ⟨buf3, ptr, hwrite, buf4, hpieces, hholds4, hsize4, hseq4⟩ :=
      writeTags_spec hholds2 (q.entryOf msg) (hseq2.trans hseq1) hroom
        (show msg.pieces.flatten = (q.entryOf msg).data from rfl)
    refine ⟨buf4, ?_, ⟨?_, ?_⟩, hsize4.trans hsize2⟩
    · dsimp only
      rw [hmake]
      dsimp only
      rw [show writeTags size buf2 = some (buf3, ptr) from hwrite]
      show (pushPieces msg.pieces ptr buf3).map _ = _
      rw [hpieces]
      rfl
    · rw [Fifo.entries]
      show Holds buf4 ((q.pushed ++ [q.entryOf msg]).drop
        (q.popped + popsFor buf.bufferSize (totalSize size) q.entries))
      have hle := popsFor_le buf.bufferSize (totalSize size) q.entries
      have hq := q.popped_le
      rw [Fifo.length_entries] at hle
      rw [drop_append_of_le_length (by omega), ← drop_drop]
      exact hholds4
    · exact hseq4.trans (hseq2.trans hseq1)

theorem pop_refines {q : Fifo} (h : Refines buf q) :
    ∃ buf', logBufferPopEntry buf = some buf' ∧ Refines buf' q.pop ∧
      buf'.bufferSize = buf.bufferSize := by
  cases hes : q.entries with
  | nil =>
    have hzero := h.holds.used_eq_zero_iff.mpr hes
    refine ⟨buf, ?_, ⟨?_, h.seqCounter⟩, rfl⟩
    · rw [logBufferPopEntry, if_pos hzero]
    · rw [Fifo.entries_pop, hes, tail_nil, ← hes]
      exact h.holds
  | cons e es =>
    have hholds := h.holds
    rw [hes] at hholds
    obtain ⟨buf', hpop, hholds', hsize, hseq, _⟩ := logBufferPopEntry_spec hholds
    refine ⟨buf', hpop, ⟨?_, hseq.trans h.seqCounter⟩, hsize⟩
    rw [Fifo.entries_pop, hes]
    exact hholds'

theorem step_refines {q : Fifo} (h : Refines buf q) (op : Op) :
    ∃ buf', step op buf = some (buf', (Fifo.step buf.bufferSize op q).2) ∧
      Refines buf' (Fifo.step buf.bufferSize op q).1 ∧ buf'.bufferSize = buf.bufferSize := by
  cases op with
  | push msg canPop => exact push_refines h msg canPop
  | pop =>
    obtain ⟨buf', hpop, hrefines, hsize⟩ := pop_refines h
    refine ⟨buf', ?_, hrefines, hsize⟩
    rw [step, hpop]
    rfl

theorem run_refines {ops : List Op} : ∀ {buf : LogBuffer} {q : Fifo}, Refines buf q →
    ∃ buf', run ops buf = some (buf', (Fifo.run buf.bufferSize ops q).2) ∧
      Refines buf' (Fifo.run buf.bufferSize ops q).1 := by
  induction ops with
  | nil => intro buf q h; exact ⟨buf, rfl, h⟩
  | cons op ops ih =>
    intro buf q h
    obtain ⟨buf1, hstep, hrefines, hsize⟩ := step_refines h op
    obtain ⟨buf', hrun, hrefines'⟩ := ih hrefines
    rw [hsize] at hrun hrefines'
    refine ⟨buf', ?_, hrefines'⟩
    rw [run, hstep]
    dsimp only
    rw [hrun]
    rfl

theorem refines_init (memory : List UInt8) : Refines (logBufferInit memory) Fifo.empty :=
  ⟨holds_init memory, rfl⟩

/-! ### Reading back -/

/-- A caller that reads and pops the oldest entry until there is none, as
`Session_Api_MonitorGet2` does.  `fuel` is a number that is above the bytes in use. -/
def readForward : Nat → LogBuffer → Option (List (Nat × List UInt8))
  | 0, _ => none
  | fuel + 1, buf =>
    if buf.bufferUsed = 0 then some []
    else
      match readEntry buf.bufferStartPtr buf with
      | none => none
      | some c =>
        match logBufferPopEntry buf with
        | none => none
        | some buf => (readForward fuel buf).map fun cs => c :: cs

/-- The walk of `log_buffer_get_next` to the very end, with each entry read on the way. -/
def readBackward (buf : LogBuffer) : Nat → Nat → Option (List (Nat × List UInt8))
  | 0, _ => none
  | fuel + 1, sizeLeft =>
    if sizeLeft = 0 then some []
    else
      match entryBefore sizeLeft buf with
      | none => none
      | some (readPtr, total, _) =>
        match readEntry readPtr buf with
        | none => none
        | some c =>
          if sizeLeft < total then none
          else (readBackward buf fuel (sizeLeft - total)).map fun cs => c :: cs

theorem readForward_spec : ∀ {fuel : Nat} {buf : LogBuffer} {es : List Entry}, Holds buf es →
    buf.bufferUsed < fuel → readForward fuel buf = some (es.map Entry.content) := by
  intro fuel
  induction fuel with
  | zero => intro buf es _ hfuel; omega
  | succ fuel ih =>
    intro buf es h hfuel
    rw [readForward]
    cases es with
    | nil => rw [if_pos (h.used_eq_zero_iff.mpr rfl)]; rfl
    | cons e es =>
      have hused := h.used_cons
      have hle := h.used_le
      have hpos : 12 ≤ totalSize e.data.length := by rw [totalSize]; omega
      obtain ⟨rest, hview⟩ := (show Holds buf ([] ++ e :: es) from h).view_eq
      have hat : IsAt buf buf.bufferStartPtr (bytesOf []).length := by
        simpa [bytesOf] using h.isAt (by omega) (Nat.zero_le _)
      obtain ⟨buf', hpop, hholds, _, _, hused'⟩ := logBufferPopEntry_spec h
      rw [if_neg (by omega), readEntry_spec h.length_data hview hat, hpop]
      dsimp only
      rw [ih hholds (by omega)]
      rfl

theorem entryBefore_spec {e : Entry} {es fs : List Entry} (h : Holds buf (es ++ e :: fs)) :
    ∃ ptr, entryBefore (bytesOf (es ++ [e])).length buf =
        some (ptr, totalSize e.data.length, e.seqNumber) ∧ IsAt buf ptr (bytesOf es).length := by
  have hlen := h.length_data
  have htotal : totalSize e.data.length = 4 + 4 + e.data.length + 4 := by rw [totalSize]; omega
  obtain ⟨rest, hview⟩ := h.view_eq
  have hsize : (bytesOf es).length + totalSize e.data.length + rest.length = buf.bufferSize := by
    rw [← hlen, ← length_view, hview, length_append, length_append, e.length_bytes]
  have hlength : (bytesOf (es ++ [e])).length = (bytesOf es).length + totalSize e.data.length := by
    rw [bytesOf_append, bytesOf_singleton, length_append, e.length_bytes]
  let front := bytesOf es ++ Bytes.ofU32 e.data.length ++ Bytes.ofU32 e.seqNumber ++ e.data
  have hfront : front.length + 4 = (bytesOf es).length + totalSize e.data.length := by
    simp only [front, length_append, Bytes.length_ofU32]
    omega
  have hview1 : view buf = front ++ Bytes.ofU32 e.data.length ++ rest := by
    rw [hview, Entry.bytes]
    simp [front]
  have hat1 : IsAt buf ((buf.bufferStartPtr : Int) + (bytesOf (es ++ [e])).length - 4)
      front.length := by
    have hstart := h.isAt (by omega) (show front.length ≤ buf.bufferSize by omega)
    have hptr : (buf.bufferStartPtr : Int) + (bytesOf (es ++ [e])).length - 4 =
        buf.bufferStartPtr + front.length := by omega
    rw [hptr]
    exact hstart
  obtain ⟨endPtr, hget1, hat2, hin⟩ := logBufferGetSize_spec hlen e.length_lt hview1 hat1
  have hinLow : 1 ≤ endPtr := hin.1
  have hinHigh : endPtr ≤ buf.bufferSize := hin.2
  have hat3 : IsAt buf (endPtr - (totalSize e.data.length : Nat)) (bytesOf es).length :=
    hat2.move _ (by omega) (by omega) (by omega)
  have hview2 : view buf = (bytesOf es ++ Bytes.ofU32 e.data.length) ++ Bytes.ofU32 e.seqNumber ++
      (e.data ++ Bytes.ofU32 e.data.length ++ rest) := by
    rw [hview, Entry.bytes]
    simp
  have hat4 : IsAt buf (endPtr - (totalSize e.data.length : Nat) + 4)
      (bytesOf es ++ Bytes.ofU32 e.data.length).length := by
    refine hat3.move 4 (by omega) (by omega) ?_
    rw [length_append, Bytes.length_ofU32]
    rfl
  obtain ⟨seqPtr, hget2, _, _⟩ := logBufferGetSize_spec hlen e.seqNumber_lt hview2 hat4
  have hget2 : logBufferGetSeqNum (endPtr - (totalSize e.data.length : Nat) + 4) buf =
      some (e.seqNumber, seqPtr) := hget2
  refine ⟨endPtr - (totalSize e.data.length : Nat), ?_, hat3⟩
  rw [entryBefore, hget1]
  dsimp only
  rw [hget2]
  rfl

theorem readBackward_spec : ∀ {fs : List Entry} {fuel : Nat},
    Holds buf (es ++ fs) → (bytesOf es).length < fuel →
      readBackward buf fuel (bytesOf es).length = some (es.reverse.map Entry.content) := by
  induction es using List.reverseRecOn with
  | nil =>
    intro fs fuel _ hfuel
    obtain ⟨fuel, rfl⟩ : ∃ n, fuel = n + 1 := ⟨fuel - 1, by omega⟩
    rfl
  | append_singleton es e ih =>
    intro fs fuel h hfuel
    obtain ⟨fuel, rfl⟩ : ∃ n, fuel = n + 1 := ⟨fuel - 1, by omega⟩
    rw [append_assoc] at h
    have hpos := e.length_pos
    have hlength : (bytesOf (es ++ [e])).length = (bytesOf es).length + e.bytes.length := by
      rw [bytesOf_append, bytesOf_singleton, length_append]
    obtain ⟨ptr, hbefore, hat⟩ := entryBefore_spec h
    obtain ⟨rest, hview⟩ := h.view_eq
    rw [readBackward, if_neg (by omega), hbefore]
    dsimp only
    rw [readEntry_spec h.length_data hview hat]
    dsimp only
    rw [← e.length_bytes, if_neg (by omega), hlength, Nat.add_sub_cancel, ih h (by omega)]
    simp

/-- **The log buffer is a queue.**  After any run, in which no access leaves the buffer,
reading forwards gives what was pushed with success and not yet popped, the oldest first,
and walking back from the newest gives the same in reverse. -/
theorem run_fifo (memory : List UInt8) (ops : List Op) :
    ∃ buf, run ops (logBufferInit memory) =
        some (buf, (Fifo.run memory.length ops Fifo.empty).2) ∧
      readForward (buf.bufferUsed + 1) buf =
        some ((Fifo.run memory.length ops Fifo.empty).1.entries.map Entry.content) ∧
      readBackward buf (buf.bufferUsed + 1) buf.bufferUsed =
        some ((Fifo.run memory.length ops Fifo.empty).1.entries.reverse.map Entry.content) := by
  obtain ⟨buf, hrun, hrefines⟩ := @run_refines ops _ _ (refines_init memory)
  have hholds : Holds buf ((Fifo.run memory.length ops Fifo.empty).1.entries ++ []) := by
    rw [append_nil]
    exact hrefines.holds
  refine ⟨buf, hrun, readForward_spec hrefines.holds (Nat.lt_succ_self _), ?_⟩
  rw [hrefines.holds.used]
  exact readBackward_spec hholds (Nat.lt_succ_self _)

end Sandboxie.LogBuff
