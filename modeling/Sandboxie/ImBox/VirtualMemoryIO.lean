import Mathlib.Tactic.ByContra
import Sandboxie.Lib.Bytes

/-!
# The RAM disk

`SandboxieTools/ImBox/VirtualMemoryIO.cpp`: a disk in memory, whose blocks are allocated
when something other than zeros is written to them and freed when nothing else is left.

`ptr_table` is a list, a pointer is `none` or the block it points to, and an operation is
`none` when it uses an index that is not in the table, or leaves a block.  Offsets and
lengths have no width: the requests come from a buffer of one megabyte, and the sums of
them do not overflow.
-/

namespace Sandboxie.ImBox

open Bytes List

/-! ### `data_search` -/

/-- A vector of `data_search` has something in it. -/
def laneHasData (lane : Nat) (ptr : List UInt8) (pos : Nat) : Bool :=
  ((ptr.drop pos).take lane).any (· ≠ 0)

/-- The loop of `data_search`: the first vector from `pos` on with something in it. -/
def scanLanes (lane : Nat) (ptr : List UInt8) : Nat → Nat → Nat
  | 0, pos => pos
  | fuel + 1, pos =>
    if laneHasData lane ptr pos then pos else scanLanes lane ptr fuel (pos + lane)

/-- `data_search` with vectors of `lane` bytes: 4 in `data_search_std`, 16 in
`data_search_sse2`, 32 in `data_search_avx`. -/
def dataSearch (lane : Nat) (ptr : List UInt8) : Bool :=
  if ptr.length = 0 then false
  else
    let endPtr := ptr.length - lane
    if laneHasData lane ptr endPtr then true
    else scanLanes lane (ptr.set endPtr 1) ptr.length 0 ≠ endPtr

def Lanes (lane : Nat) : Prop := lane = 4 ∨ lane = 16 ∨ lane = 32

theorem any_iff (b : List UInt8) : b.any (· ≠ 0) = true ↔ ∃ i, byteAt b i ≠ 0 := by
  rw [any_eq_true]
  refine ⟨?_, ?_⟩
  · intro h
    obtain ⟨x, hx, hne⟩ := h
    obtain ⟨i, hi, rfl⟩ := mem_iff_getElem.mp hx
    refine ⟨i, ?_⟩
    rw [byteAt, getD_eq_getElem _ _ hi]
    exact of_decide_eq_true hne
  · intro h
    obtain ⟨i, hne⟩ := h
    have hi : i < b.length := by
      by_cases hi : i < b.length
      · exact hi
      · exact absurd (getD_eq_default _ _ (by omega)) hne
    rw [byteAt, getD_eq_getElem _ _ hi] at hne
    exact ⟨b[i], getElem_mem hi, decide_eq_true hne⟩

theorem laneHasData_iff {lane : Nat} {ptr : List UInt8} {pos : Nat} :
    laneHasData lane ptr pos = true ↔ ∃ i, pos ≤ i ∧ i < pos + lane ∧ byteAt ptr i ≠ 0 := by
  rw [laneHasData, any_iff]
  refine ⟨?_, ?_⟩
  · intro h
    obtain ⟨i, hi⟩ := h
    by_cases hlt : i < lane
    · rw [byteAt_take hlt, byteAt_drop] at hi
      exact ⟨pos + i, by omega, by omega, hi⟩
    · exact absurd (getD_eq_default _ _ (by rw [length_take]; omega)) hi
  · intro h
    obtain ⟨i, hge, hlt, hi⟩ := h
    refine ⟨i - pos, ?_⟩
    rw [byteAt_take (by omega), byteAt_drop, Nat.add_sub_cancel' hge]
    exact hi

theorem scanLanes_eq_iff {lane : Nat} {ptr : List UInt8} {endPtr : Nat} (hlane : 0 < lane)
    (hend : laneHasData lane ptr endPtr = true) :
    ∀ (fuel pos : Nat), pos ≤ endPtr → lane ∣ endPtr - pos → endPtr - pos ≤ fuel →
      (scanLanes lane ptr fuel pos = endPtr ↔
        ∀ i, pos ≤ i → i < endPtr → byteAt ptr i = 0) := by
  intro fuel
  induction fuel with
  | zero =>
    intro pos hle _ hfuel
    rw [scanLanes]
    exact ⟨fun _ i hge hlt => by omega, fun _ => by omega⟩
  | succ fuel ih =>
    intro pos hle hdvd hfuel
    rw [scanLanes]
    by_cases hdata : laneHasData lane ptr pos = true
    · rw [if_pos hdata]
      refine ⟨fun h i hge hlt => by omega, fun h => ?_⟩
      by_cases heq : pos = endPtr
      · exact heq
      · have hfar := Nat.le_of_dvd (by omega) hdvd
        obtain ⟨i, hge, hlt, hne⟩ := laneHasData_iff.mp hdata
        exact absurd (h i hge (by omega)) hne
    · rw [if_neg hdata]
      have hne : pos ≠ endPtr := by
        intro heq
        rw [heq] at hdata
        exact hdata hend
      have hfar := Nat.le_of_dvd (by omega) hdvd
      have hdvd' : lane ∣ endPtr - (pos + lane) := by
        rw [Nat.sub_add_eq]
        exact Nat.dvd_sub hdvd (Nat.dvd_refl lane)
      rw [ih (pos + lane) (by omega) hdvd' (by omega)]
      refine ⟨fun h i hge hlt => ?_, fun h i hge hlt => h i (by omega) hlt⟩
      by_cases hlane' : i < pos + lane
      · by_contra hi
        exact hdata (laneHasData_iff.mpr ⟨i, hge, hlane', hi⟩)
      · exact h i (by omega) hlt

/-- **`data_search`** of whole vectors finds something that is not zero. -/
theorem dataSearch_eq {lane : Nat} {ptr : List UInt8} (hlane : 0 < lane)
    (hdvd : lane ∣ ptr.length) : dataSearch lane ptr = ptr.any (· ≠ 0) := by
  rw [Bool.eq_iff_iff, any_iff]
  unfold dataSearch
  by_cases hzero : ptr.length = 0
  · rw [if_pos hzero, length_eq_zero_iff.mp hzero]
    refine ⟨fun h => (by cases h), fun h => ?_⟩
    obtain ⟨i, hi⟩ := h
    exact absurd (getD_nil) hi
  · rw [if_neg hzero]
    have hle := Nat.le_of_dvd (by omega) hdvd
    by_cases hlast : laneHasData lane ptr (ptr.length - lane) = true
    · rw [if_pos hlast]
      obtain ⟨i, _, _, hi⟩ := laneHasData_iff.mp hlast
      exact ⟨fun _ => ⟨i, hi⟩, fun _ => rfl⟩
    rw [if_neg hlast]
    have hsentinel : laneHasData lane (ptr.set (ptr.length - lane) 1) (ptr.length - lane)
        = true := by
      refine laneHasData_iff.mpr ⟨ptr.length - lane, by omega, by omega, ?_⟩
      rw [byteAt_set _ (by omega)]
      decide
    have hscan := scanLanes_eq_iff hlane hsentinel ptr.length 0 (Nat.zero_le _)
      (by rw [Nat.sub_zero]; exact Nat.dvd_sub hdvd (Nat.dvd_refl lane)) (by omega)
    rw [decide_eq_true_iff, ne_eq, hscan]
    refine ⟨fun h => ?_, fun h hall => ?_⟩
    · by_contra hnone
      refine h fun i _ hi => ?_
      by_contra hne
      refine hnone ⟨i, ?_⟩
      rwa [byteAt_set_of_ne (by omega)] at hne
    · obtain ⟨i, hi⟩ := h
      by_cases hlt : i < ptr.length - lane
      · have := hall i (Nat.zero_le _) hlt
        rw [byteAt_set_of_ne (by omega)] at this
        exact hi this
      · by_cases hin : i < ptr.length
        · exact hlast (laneHasData_iff.mpr ⟨i, by omega, by omega, hi⟩)
        · exact hi (getD_eq_default _ _ (by omega))

/-! ### The disk -/

/-- `mem_block_size_shift`, as the constructor leaves it. -/
structure Geometry where
  shift : Nat
  shift_ge : 12 ≤ shift
  shift_le : shift ≤ 30

/-- The constructor: the shift is put between 12 and 30. -/
def geometry (blockSize : Nat) : Geometry where
  shift := min (max blockSize 12) 30
  shift_ge := by omega
  shift_le := by omega

/-- `mem_block_size` -/
def Geometry.blockSize (g : Geometry) : Nat := 2 ^ g.shift

abbrev Block (g : Geometry) := { b : List UInt8 // b.length = g.blockSize }

/-- A block as `NtAllocateVirtualMemory` gives it. -/
def Block.zero (g : Geometry) : Block g := ⟨List.replicate g.blockSize 0, List.length_replicate⟩

/-- `memcpy` into a block; `none` when it leaves the block. -/
def Block.put {g : Geometry} (b : Block g) (off : Nat) (d : List UInt8) : Option (Block g) :=
  if h : off + d.length ≤ b.1.length then some ⟨splice b.1 off d, (length_splice h).trans b.2⟩
  else none

/-- `SVirtualMemory` -/
structure VirtualMemory (g : Geometry) where
  uSize : Nat
  table : List (Option (Block g))
  nBlock : Nat
  table_length : table.length = (uSize + (g.blockSize - 1)) / g.blockSize

def init (g : Geometry) (uSize : Nat) : VirtualMemory g where
  uSize := uSize
  table := List.replicate ((uSize + (g.blockSize - 1)) / g.blockSize) none
  nBlock := 0
  table_length := List.length_replicate

def expand {g : Geometry} (m : VirtualMemory g) (uSize : Nat) : VirtualMemory g :=
  if h : uSize ≤ m.uSize then m
  else
    { m with
      uSize := uSize
      table := m.table ++ List.replicate
        ((uSize + (g.blockSize - 1)) / g.blockSize - m.table.length) none
      table_length := by
        have hle : m.table.length ≤ (uSize + (g.blockSize - 1)) / g.blockSize := by
          rw [m.table_length]
          exact Nat.div_le_div_right (by omega)
        rw [List.length_append, List.length_replicate]
        omega }

/-- A pointer of the table is replaced. -/
def VirtualMemory.setBlock {g : Geometry} (m : VirtualMemory g) (index : Nat)
    (ptr : Option (Block g)) (nBlock : Nat) : VirtualMemory g :=
  { m with
    table := m.table.set index ptr
    nBlock := nBlock
    table_length := by rw [List.length_set, m.table_length] }

/-- Zeros in an allocated block, which is freed when there is nothing else in it. -/
def clearBlock {g : Geometry} (lane : Nat) (m : VirtualMemory g) (index : Nat) (ptr : Block g)
    (blockOffset currentSize : Nat) : Option (VirtualMemory g) :=
  if dataSearch lane (ptr.1.take blockOffset) ||
      dataSearch lane (ptr.1.drop (blockOffset + currentSize)) then
    (ptr.put blockOffset (List.replicate currentSize 0)).map fun ptr =>
      m.setBlock index (some ptr) m.nBlock
  else some (m.setBlock index none (m.nBlock - 1))

/-- The block that `DiskWrite` is at, with the part of the data for it: the disk, and
whether there was memory. -/
def writeBlock {g : Geometry} (lane : Nat) (available : Bool) (m : VirtualMemory g)
    (index : Nat) (entry : Option (Block g)) (blockOffset : Nat) (buf : List UInt8) :
    Option (VirtualMemory g × Bool) :=
  let data := dataSearch lane buf
  match entry with
  | some ptr =>
    if data then
      (ptr.put blockOffset buf).map fun ptr => (m.setBlock index (some ptr) m.nBlock, true)
    else (clearBlock lane m index ptr blockOffset buf.length).map fun m => (m, true)
  | none =>
    if data then
      if available then
        ((Block.zero g).put blockOffset buf).map fun ptr =>
          (m.setBlock index (some ptr) (m.nBlock + 1), true)
      else some (m, false)
    else some (m, true)

def currentSize (g : Geometry) (size blockOffset : Nat) : Nat :=
  min (size + blockOffset) g.blockSize - blockOffset

def reach {g : Geometry} (m : VirtualMemory g) (index offset size : Nat) : VirtualMemory g :=
  if m.table.length ≤ index then expand m (offset + size) else m

/-- The loop of `CVirtualMemoryIO::DiskWrite`; `fuel` lasts for one byte in each round and
for the last round. -/
def diskWriteLoop {g : Geometry} (lane : Nat) (available : Nat → Bool) (offset : Nat) :
    Nat → VirtualMemory g → Bool → List UInt8 → Nat → Nat → Option (VirtualMemory g × Bool)
  | 0, _, _, _, _, _ => none
  | fuel + 1, m, ret, buf, index, blockOffset =>
    let m := reach m index offset buf.length
    match m.table[index]? with
    | none => none
    | some entry =>
      let size := currentSize g buf.length blockOffset
      match writeBlock lane (available index) m index entry blockOffset (buf.take size) with
      | none => none
      | some (m, ok) =>
        let rest := buf.drop size
        if rest.length > 0 then
          diskWriteLoop lane available offset fuel m (ret && ok) rest (index + 1) 0
        else some (m, ret && ok)

def diskWrite {g : Geometry} (lane : Nat) (available : Nat → Bool) (m : VirtualMemory g)
    (buf : List UInt8) (offset : Nat) : Option (VirtualMemory g × Bool) :=
  diskWriteLoop lane available offset (buf.length + 1) m true buf (offset / g.blockSize)
    (offset % g.blockSize)

/-- What `DiskRead` copies from the block it is at. -/
def readBlock {g : Geometry} (entry : Option (Block g)) (blockOffset currentSize : Nat) :
    List UInt8 :=
  match entry with
  | some ptr => (ptr.1.drop blockOffset).take currentSize
  | none => List.replicate currentSize 0

/-- The loop of `CVirtualMemoryIO::DiskRead`. -/
def diskReadLoop {g : Geometry} (offset : Nat) :
    Nat → VirtualMemory g → Nat → Nat → Nat → Option (VirtualMemory g × List UInt8)
  | 0, _, _, _, _ => none
  | fuel + 1, m, size, index, blockOffset =>
    let m := reach m index offset size
    match m.table[index]? with
    | none => none
    | some entry =>
      let current := currentSize g size blockOffset
      let buf := readBlock entry blockOffset current
      if size - current > 0 then
        (diskReadLoop offset fuel m (size - current) (index + 1) 0).map fun r =>
          (r.1, buf ++ r.2)
      else some (m, buf)

def diskRead {g : Geometry} (m : VirtualMemory g) (size offset : Nat) :
    Option (VirtualMemory g × List UInt8) :=
  diskReadLoop offset (size + 1) m size (offset / g.blockSize) (offset % g.blockSize)

/-- `DEVICE_DATA_SET_RANGE` -/
structure Range where
  startingOffset : Nat
  lengthInBytes : Nat

/-- What `TrimProcess` does to the block it is at. -/
def trimBlock {g : Geometry} (lane : Nat) (m : VirtualMemory g) (index : Nat)
    (entry : Option (Block g)) (blockOffset currentSize : Nat) : Option (VirtualMemory g) :=
  match entry with
  | some ptr => clearBlock lane m index ptr blockOffset currentSize
  | none => some m

/-- The inner loop of `CVirtualMemoryIO::TrimProcess`. -/
def trimLoop {g : Geometry} (lane : Nat) :
    Nat → VirtualMemory g → Nat → Nat → Nat → Option (VirtualMemory g)
  | 0, m, _, _, _ => some m
  | fuel + 1, m, size, index, blockOffset =>
    if size = 0 then some m
    else
      match m.table[index]? with
      | none => some m
      | some entry =>
        let current := currentSize g size blockOffset
        match trimBlock lane m index entry blockOffset current with
        | none => none
        | some m => trimLoop lane fuel m (size - current) (index + 1) 0

def trimProcess {g : Geometry} (lane : Nat) (m : VirtualMemory g) :
    List Range → Option (VirtualMemory g)
  | [] => some m
  | range :: rest =>
    match trimLoop lane range.lengthInBytes m range.lengthInBytes
        (range.startingOffset / g.blockSize) (range.startingOffset % g.blockSize) with
    | none => none
    | some m => trimProcess lane m rest

/-! ### Requests -/

abbrev sectorSize : Nat := 512

inductive Request
  | write (buf : List UInt8) (offset : Nat)
      (whole : sectorSize ∣ buf.length ∧ sectorSize ∣ offset)
  | read (size offset : Nat) (whole : sectorSize ∣ size ∧ sectorSize ∣ offset)
  | trim (ranges : List Range)
      (whole : ∀ r ∈ ranges, sectorSize ∣ r.lengthInBytes ∧ sectorSize ∣ r.startingOffset)

/-- One request: the disk after it, and the data of a read.  All memory is there. -/
def request {g : Geometry} (lane : Nat) (m : VirtualMemory g) :
    Request → Option (VirtualMemory g × List UInt8)
  | .write buf offset _ => (diskWrite lane (fun _ => true) m buf offset).map fun r => (r.1, [])
  | .read size offset _ => diskRead m size offset
  | .trim ranges _ => (trimProcess lane m ranges).map fun m => (m, [])

end Sandboxie.ImBox
