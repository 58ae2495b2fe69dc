import Sandboxie.Lib.Bitmap

/-!
# The pool allocator

`common/pool.c`: pages of cells with a bitmap each, two lists of pages, and chunks of whole
pages for large requests.

Addresses are numbers.  What the pages hold is a function of their address, and the lists
hold addresses, a list's head first.  The memory that the system gives to a call is an
argument of the call, `none` for a request that it refuses.  One call runs at a time, as
the pool's lock has it.
-/

namespace Sandboxie.PoolAlloc

/-! ### Sizes -/

/-- The sizes that the build's parameters and structures have. -/
structure Sizes where
  /-- `POOL_PAGE_SIZE` -/
  pageSize : Nat
  /-- `POOL_CELL_SIZE`, a power of two -/
  cellSize : Nat
  sizeofPage : Nat
  sizeofPool : Nat
  sizeofLargeChunk : Nat
deriving DecidableEq, Repr

namespace Sizes

variable (z : Sizes)

def padCell (n : Nat) : Nat := (n + z.cellSize - 1) / z.cellSize * z.cellSize

def numCells (n : Nat) : Nat := z.padCell n / z.cellSize

def pageHeaderSize : Nat := z.padCell z.sizeofPage

def pageBitmapSize : Nat :=
  z.padCell (((z.pageSize - z.pageHeaderSize) / z.cellSize + 7) / 8)

def numPageCells : Nat :=
  (z.pageSize - z.pageHeaderSize - z.pageBitmapSize) / z.cellSize

/-- The cells of the `POOL` structure: `NUM_CELLS(sizeof(POOL))`. -/
def poolCells : Nat := z.numCells z.sizeofPool

def cellsOffset : Nat := z.pageHeaderSize + z.pageBitmapSize

def largeChunkMinimum : Nat := z.pageSize * 3 / 4

def largeChunkSize : Nat := (z.sizeofLargeChunk + 7) / 8 * 8

def largeChunkMaximum : Nat := 0xFFFFFFFF - (z.largeChunkSize + z.pageSize)

/-- The padded `large_chunk_size` of a request. -/
def paddedChunk (size : Nat) : Nat :=
  (size + z.largeChunkSize + z.pageSize - 1) / z.pageSize * z.pageSize

end Sizes

def fullPageThreshold : Nat := 4

/-- Sizes that fit together. -/
structure Layout extends Sizes where
  cell_pos : 0 < cellSize
  sizeofPage_pos : 0 < sizeofPage
  page_le : pageSize ≤ 2 ^ 32
  pool_fits : toSizes.poolCells ≤ toSizes.numPageCells
  small_fits : toSizes.numCells toSizes.largeChunkMinimum ≤ toSizes.numPageCells
  maximum_pos : toSizes.largeChunkMinimum < toSizes.largeChunkMaximum
  threshold_le : fullPageThreshold ≤ toSizes.numPageCells
  numPageCells_lt : toSizes.numPageCells < 2 ^ 16

def kernel64 : Layout where
  pageSize := 4096
  cellSize := 16
  sizeofPage := 38
  sizeofPool := 116
  sizeofLargeChunk := 40
  cell_pos := by decide
  sizeofPage_pos := by decide
  page_le := by decide
  pool_fits := by decide
  small_fits := by decide
  maximum_pos := by decide
  threshold_le := by decide
  numPageCells_lt := by decide

def kernel32 : Layout where
  pageSize := 4096
  cellSize := 16
  sizeofPage := 22
  sizeofPool := 76
  sizeofLargeChunk := 24
  cell_pos := by decide
  sizeofPage_pos := by decide
  page_le := by decide
  pool_fits := by decide
  small_fits := by decide
  maximum_pos := by decide
  threshold_le := by decide
  numPageCells_lt := by decide

def user64 : Layout where
  pageSize := 65536
  cellSize := 128
  sizeofPage := 38
  sizeofPool := 248
  sizeofLargeChunk := 40
  cell_pos := by decide
  sizeofPage_pos := by decide
  page_le := by decide
  pool_fits := by decide
  small_fits := by decide
  maximum_pos := by decide
  threshold_le := by decide
  numPageCells_lt := by decide

def user32 : Layout where
  pageSize := 65536
  cellSize := 128
  sizeofPage := 22
  sizeofPool := 196
  sizeofLargeChunk := 24
  cell_pos := by decide
  sizeofPage_pos := by decide
  page_le := by decide
  pool_fits := by decide
  small_fits := by decide
  maximum_pos := by decide
  threshold_le := by decide
  numPageCells_lt := by decide

/-! ### Structures -/

/-- `PAGE`, with the bitmap behind it. -/
structure Page where
  eyecatcher : BitVec 32
  /-- estimated, not accurate -/
  numFree : BitVec 16
  bitmap : List (BitVec 8)
deriving DecidableEq, Repr

structure LargeChunk where
  eyecatcher : BitVec 32
  ptr : Nat
  size : Nat
deriving DecidableEq, Repr

/-- `POOL`, with the memory of its pages. -/
structure Pool where
  /-- The address of the page that the structure is in. -/
  home : Nat
  eyecatcher : BitVec 32
  pages : List Nat
  fullPages : List Nat
  largeChunks : List LargeChunk
  initialBitmap : List (BitVec 8)
  /-- What is at the address of a page. -/
  page : Nat → Page

/-- The causes of `ABEND`.  The last one stands for a pointer to memory of no pool, where
the code reads what it finds. -/
inductive Abend
  | freeNullPtrOrZeroSize
  | freeLargeChunkSecondEyecatcherMismatch
  | getCellsEyecatcherMismatch
  | freeCellsEyecatcherMismatch
  | wildPointer
deriving DecidableEq, Repr

namespace Pool

def setPage (pool : Pool) (base : Nat) (page : Page) : Pool :=
  { pool with page := Function.update pool.page base page }

/-- Writing `num_free` of a page. -/
def setNumFree (pool : Pool) (base : Nat) (n : BitVec 16) : Pool :=
  pool.setPage base { pool.page base with numFree := n }

def setBitmap (pool : Pool) (base : Nat) (bitmap : List (BitVec 8)) : Pool :=
  pool.setPage base { pool.page base with bitmap := bitmap }

def moveToFull (pool : Pool) (base : Nat) : Pool :=
  { pool with pages := pool.pages.erase base, fullPages := base :: pool.fullPages }

def moveToPages (pool : Pool) (base : Nat) : Pool :=
  { pool with fullPages := pool.fullPages.erase base, pages := base :: pool.pages }

/-- The move of a page whose `num_free` went below the threshold. -/
def retire (pool : Pool) (base : Nat) : Pool :=
  if (pool.page base).numFree.toNat < fullPageThreshold then pool.moveToFull base else pool

end Pool

/-! ### Bitmaps -/

/-- The variables `bitmap` and `mask` of the loops. -/
structure Cursor where
  ofs : Nat
  mask : BitVec 32
deriving DecidableEq, Repr

/-- The cursor at a cell: `bitmap + i / 8` and `1 << (i & 7)`. -/
def cursorAt (i : Nat) : Cursor := ⟨i / 8, 1#32 <<< (i % 8)⟩

/-- The next cell: the mask moves on, and comes back at the next byte. -/
def Cursor.next (c : Cursor) : Cursor :=
  let mask := c.mask <<< 1
  let mask := (mask &&& 0xFF#32) ||| (mask >>> 8)
  ⟨c.ofs + (mask &&& 1#32).toNat, mask⟩

/-- `*bitmap` -/
def byteAt (bm : List (BitVec 8)) (c : Cursor) : BitVec 8 := bm.getD c.ofs 0

/-- `*bitmap & mask` -/
def bitAt (bm : List (BitVec 8)) (c : Cursor) : BitVec 32 :=
  (byteAt bm c).setWidth 32 &&& c.mask

/-- `*bitmap |= mask` -/
def setBit (bm : List (BitVec 8)) (c : Cursor) : List (BitVec 8) :=
  bm.set c.ofs (((byteAt bm c).setWidth 32 ||| c.mask).setWidth 8)

/-- `*bitmap &= ~mask` -/
def clearBit (bm : List (BitVec 8)) (c : Cursor) : List (BitVec 8) :=
  bm.set c.ofs (((byteAt bm c).setWidth 32 &&& ~~~c.mask).setWidth 8)

/-- The loop of `Pool_Find_Cells` over the cells in use.  Each turn goes on, so `fuel` is
the number of cells. -/
def skipUsed (cells : Nat) (bm : List (BitVec 8)) : Nat → Nat → Cursor → Nat × Cursor
  | 0, j, c => (j, c)
  | fuel + 1, j, c =>
    if j < cells then
      if c.mask = 1 ∧ byteAt bm c = 0xFF then skipUsed cells bm fuel (j + 8) ⟨c.ofs + 1, c.mask⟩
      else if bitAt bm c = 0 then (j, c)
      else skipUsed cells bm fuel (j + 1) c.next
    else (j, c)

/-- The loop of `Pool_Find_Cells` over the free cells from `i` on. -/
def skipFree (cells : Nat) (bm : List (BitVec 8)) (size i : Nat) :
    Nat → Nat → Cursor → Nat × Cursor
  | 0, j, c => (j, c)
  | fuel + 1, j, c =>
    if j < cells ∧ j - i < size then
      if c.mask = 1 ∧ byteAt bm c = 0 then
        skipFree cells bm size i fuel (j + 8) ⟨c.ofs + 1, c.mask⟩
      else if bitAt bm c ≠ 0 then (j, c)
      else skipFree cells bm size i fuel (j + 1) c.next
    else (j, c)

/-- The loop of `Pool_Find_Cells`. -/
def findFrom (cells : Nat) (bm : List (BitVec 8)) (size : Nat) :
    Nat → Nat → Cursor → Option Nat
  | 0, _, _ => none
  | fuel + 1, i, c =>
    if i < cells then
      if bitAt bm c ≠ 0 then
        match skipUsed cells bm cells (i + 1) c.next with
        | (j, c) => findFrom cells bm size fuel j c
      else
        match skipFree cells bm size i cells (i + 1) c.next with
        | (j, c) => if size ≤ j - i then some i else findFrom cells bm size fuel j c
    else none

/-- `Pool_Find_Cells`, `none` for `-1`. -/
def findCells (L : Layout) (page : Page) (size : Nat) : Option Nat :=
  findFrom L.numPageCells page.bitmap size L.numPageCells 0 ⟨0, 1⟩

/-- The loops of `Pool_Get_Cells` and `Pool_Free_Cells` over the cells of a block: whole
bytes become `full`, and single bits are written by `one`.  Each turn writes a cell, so
`fuel` is `size`. -/
def writeCells (full : BitVec 8) (one : List (BitVec 8) → Cursor → List (BitVec 8)) :
    Nat → Nat → Cursor → List (BitVec 8) → List (BitVec 8)
  | 0, _, _, bm => bm
  | fuel + 1, size, c, bm =>
    if size = 0 then bm
    else if c.mask = 1 ∧ 8 < size then
      writeCells full one fuel (size - 8) ⟨c.ofs + 1, c.mask⟩ (bm.set c.ofs full)
    else writeCells full one fuel (size - 1) c.next (one bm c)

/-- The loop of `Pool_Get_Cells` that marks cells in use. -/
def markUsed (size : Nat) (c : Cursor) (bm : List (BitVec 8)) : List (BitVec 8) :=
  writeCells 0xFF setBit size size c bm

/-- The loop of `Pool_Free_Cells` that marks cells free. -/
def markFree (size : Nat) (c : Cursor) (bm : List (BitVec 8)) : List (BitVec 8) :=
  writeCells 0 clearBit size size c bm

/-! ### Pages -/

/-- The loop of `Pool_CreateTagged` that sets the bits behind the last cell.  Each turn
goes on, so `fuel` is the number of bits. -/
def padBitmap (bytes : Nat) : Nat → Nat → List (BitVec 8) → List (BitVec 8)
  | 0, _, bm => bm
  | fuel + 1, i, bm =>
    if bytes ≤ i / 8 then bm
    else if 1#32 <<< (i % 8) = 1 then padBitmap bytes fuel (i + 8) (bm.set (i / 8) 0xFF)
    else padBitmap bytes fuel (i + 1) (setBit bm (cursorAt i))

/-- The loop of `Pool_CreateTagged` that sets the bits of the `POOL` structure. -/
def markPool : Nat → Nat → List (BitVec 8) → List (BitVec 8)
  | 0, _, bm => bm
  | count + 1, i, bm => markPool count (i + 1) (setBit bm (cursorAt i))

/-- `Pool_Alloc_Page` for a pool: the pool and the page. -/
def allocPage (L : Layout) (pool : Pool) (memory : Option Nat) : Option (Pool × Nat) :=
  memory.map fun base =>
    let page : Page :=
      { eyecatcher := pool.eyecatcher
        numFree := BitVec.ofNat 16 L.numPageCells
        bitmap := pool.initialBitmap }
    ({ pool.setPage base page with pages := base :: pool.pages }, base)

/-- `Pool_CreateTagged`.  `lock` says whether the memory for the lock was given. -/
def createTagged (L : Layout) (tag : BitVec 32) (memory : Option Nat) (lock : Bool) :
    Option Pool :=
  match memory with
  | none => none
  | some base =>
    if lock = false then none
    else
      let initial := padBitmap L.pageBitmapSize (8 * L.pageBitmapSize) L.numPageCells
        (List.replicate L.pageBitmapSize 0)
      let page : Page :=
        { eyecatcher := tag
          numFree := BitVec.ofNat 16 L.numPageCells
          bitmap := markPool L.poolCells 0 initial }
      some
        { home := base
          eyecatcher := tag
          pages := [base]
          fullPages := []
          largeChunks := []
          initialBitmap := initial
          page := fun _ => page }

/-! ### Cells -/

/-- The loop of `Pool_Get_Cells` over the pages: the page and the index of the cells that
it finds. -/
def searchPages (L : Layout) (size : Nat) :
    List Nat → Pool → Except Abend (Pool × Option (Nat × Nat))
  | [], pool => .ok (pool, none)
  | base :: rest, pool =>
    if (pool.page base).eyecatcher ≠ pool.eyecatcher then .error .getCellsEyecatcherMismatch
    else if size ≤ (pool.page base).numFree.toNat then
      match findCells L (pool.page base) size with
      | some index => .ok (pool, some (base, index))
      | none =>
        searchPages L size rest
          ((pool.setNumFree base (BitVec.ofNat 16 (size - 1))).retire base)
    else searchPages L size rest pool

/-- The end of `Pool_Get_Cells`: the cells are taken from the page. -/
def takeCells (L : Layout) (size : Nat) (pool : Pool) (base index : Nat) : Pool × Nat :=
  let pool := pool.setNumFree base ((pool.page base).numFree - BitVec.ofNat 16 size)
  let pool := pool.retire base
  let pool := pool.setBitmap base (markUsed size (cursorAt index) (pool.page base).bitmap)
  (pool, base + L.cellsOffset + index * L.cellSize)

/-- `Pool_Get_Cells`: the pool and the pointer, `none` for `NULL`. -/
def getCells (L : Layout) (pool : Pool) (size : Nat) (memory : Option Nat) :
    Except Abend (Pool × Option Nat) :=
  match searchPages L size pool.pages pool with
  | .error e => .error e
  | .ok (pool, some (base, index)) =>
    match takeCells L size pool base index with
    | (pool, ptr) => .ok (pool, some ptr)
  | .ok (pool, none) =>
    match allocPage L pool memory with
    | none => .ok (pool, none)
    | some (pool, base) =>
      match takeCells L size pool base 0 with
      | (pool, ptr) => .ok (pool, some ptr)

/-- The page of a pointer: `ptr & POOL_MASK_LEFT`. -/
def pageOf (L : Layout) (ptr : Nat) : Nat := ptr / L.pageSize * L.pageSize

/-- The index of a pointer's cell, computed in `ULONG`. -/
def indexOf (L : Layout) (ptr : Nat) : Nat :=
  ((ptr % L.pageSize : Nat) + (2 ^ 32 - L.cellsOffset)) % 2 ^ 32 / L.cellSize

/-- `Pool_Free_Cells` -/
def freeCells (L : Layout) (pool : Pool) (ptr size : Nat) : Except Abend Pool :=
  let base := pageOf L ptr
  if base ∉ pool.pages ++ pool.fullPages then .error .wildPointer
  else if (pool.page base).eyecatcher ≠ pool.eyecatcher then
    .error .freeCellsEyecatcherMismatch
  else
    let numFree := (pool.page base).numFree
    let pool :=
      if numFree.toNat < fullPageThreshold ∧ fullPageThreshold ≤ numFree.toNat + size then
        pool.moveToPages base
      else pool
    let pool := pool.setNumFree base (numFree + BitVec.ofNat 16 size)
    .ok (pool.setBitmap base
      (markFree size (cursorAt (indexOf L ptr)) (pool.page base).bitmap))

/-! ### Large chunks -/

/-- `Pool_Get_Large_Chunk`: the pool and the pointer, `none` for `NULL`. -/
def getLargeChunk (L : Layout) (pool : Pool) (size : Nat) (memory : Option Nat) :
    Pool × Option Nat :=
  match memory with
  | none => (pool, none)
  | some ptr =>
    let chunk : LargeChunk :=
      { eyecatcher := pool.eyecatcher, ptr := ptr, size := L.paddedChunk size }
    ({ pool with largeChunks := chunk :: pool.largeChunks }, some ptr)

def LargeChunk.addr (L : Layout) (chunk : LargeChunk) : Nat :=
  chunk.ptr + chunk.size - L.largeChunkSize

/-- `Pool_Free_Large_Chunk` -/
def freeLargeChunk (L : Layout) (pool : Pool) (ptr size : Nat) : Except Abend Pool :=
  let addr := ptr + L.paddedChunk size - L.largeChunkSize
  match pool.largeChunks.find? fun chunk => chunk.addr L = addr with
  | none => .error .wildPointer
  | some chunk =>
    if chunk.eyecatcher ≠ pool.eyecatcher then
      .error .freeLargeChunkSecondEyecatcherMismatch
    else .ok { pool with largeChunks := pool.largeChunks.erase chunk }

/-! ### The interface -/

/-- `Pool_Alloc`: the pool and the pointer, `none` for `NULL`. -/
def alloc (L : Layout) (pool : Pool) (size : Nat) (memory : Option Nat) :
    Except Abend (Pool × Option Nat) :=
  if L.largeChunkMaximum ≤ size then .ok (pool, none)
  else if size = 0 then .ok (pool, none)
  else if L.largeChunkMinimum < size then .ok (getLargeChunk L pool size memory)
  else getCells L pool (L.numCells size) memory

/-- `Pool_Free`, with a pointer of zero for `NULL`. -/
def free (L : Layout) (pool : Pool) (ptr size : Nat) : Except Abend Pool :=
  if ptr = 0 ∨ size = 0 then .error .freeNullPtrOrZeroSize
  else if ptr % L.pageSize = 0 then freeLargeChunk L pool ptr size
  else freeCells L pool ptr (L.numCells size)

end Sandboxie.PoolAlloc
