import Sandboxie.Common.PoolCells

/-!
# The invariant of a pool

The pages of a pool are aligned and listed once, a page is on the list of its `num_free`,
and `num_free` is not above the clear cells of its page and the cells of the `POOL`
structure.  The large chunks and the pages do not meet.
-/

namespace Sandboxie.PoolAlloc

open Bitmap

/-! ### Sizes -/

namespace Layout

variable (L : Layout) {n m : Nat}

theorem numCells_eq (n : Nat) : L.numCells n = (n + L.cellSize - 1) / L.cellSize :=
  Nat.mul_div_cancel _ L.cell_pos

theorem numCells_pos (hn : 0 < n) : 0 < L.numCells n := by
  have hcell := L.cell_pos
  rw [numCells_eq]
  exact Nat.div_pos (by omega) hcell

theorem numCells_mono (h : n ≤ m) : L.numCells n ≤ L.numCells m := by
  rw [numCells_eq, numCells_eq]
  exact Nat.div_le_div_right (by omega)

theorem le_numCells_mul (n : Nat) : n ≤ L.numCells n * L.cellSize := by
  have hcell := L.cell_pos
  have hmod := Nat.mod_lt (n + L.cellSize - 1) hcell
  have hdiv := Nat.div_add_mod (n + L.cellSize - 1) L.cellSize
  rw [numCells_eq, Nat.mul_comm]
  omega

theorem numCells_le (h : ¬ L.largeChunkMinimum < n) : L.numCells n ≤ L.numPageCells :=
  (L.numCells_mono (Nat.le_of_not_lt h)).trans L.small_fits

theorem cellsOffset_pos : 0 < L.cellsOffset := by
  have hheader := L.numCells_pos L.sizeofPage_pos
  have hcells := Nat.mul_pos hheader L.cell_pos
  rw [numCells_eq] at hcells
  show 0 < L.pageHeaderSize + L.pageBitmapSize
  exact Nat.add_pos_left hcells _

theorem cells_end : L.cellsOffset + L.numPageCells * L.cellSize ≤ L.pageSize := by
  have hle : L.numPageCells * L.cellSize ≤ L.pageSize - L.pageHeaderSize - L.pageBitmapSize :=
    Nat.div_mul_le_self _ _
  have hpos : 0 < L.numPageCells * L.cellSize :=
    Nat.mul_pos (Nat.lt_of_lt_of_le (by decide) L.threshold_le) L.cell_pos
  unfold Sizes.cellsOffset
  omega

theorem pageSize_pos : 0 < L.pageSize := by
  have hoffset := L.cellsOffset_pos
  have hend := L.cells_end
  omega

theorem numPageCells_le_bits : L.numPageCells ≤ 8 * L.pageBitmapSize := by
  have hcells : L.numPageCells ≤ (L.pageSize - L.pageHeaderSize) / L.cellSize :=
    Nat.div_le_div_right (Nat.sub_le _ _)
  have hpad := L.le_numCells_mul (((L.pageSize - L.pageHeaderSize) / L.cellSize + 7) / 8)
  rw [numCells_eq] at hpad
  have hbytes : ((L.pageSize - L.pageHeaderSize) / L.cellSize + 7) / 8 ≤ L.pageBitmapSize := hpad
  omega

def cellPtr (base index : Nat) : Nat := base + L.cellsOffset + index * L.cellSize

variable {base index : Nat}

theorem cellPtr_le (h : index + n ≤ L.numPageCells) :
    L.cellPtr base index + n * L.cellSize ≤ base + L.pageSize := by
  have hend := L.cells_end
  have hmul := Nat.mul_le_mul_right L.cellSize h
  rw [Nat.add_mul] at hmul
  unfold cellPtr
  omega

theorem cellPtr_split (hbase : L.pageSize ∣ base) (h : index < L.numPageCells) :
    pageOf L (L.cellPtr base index) = base ∧
      L.cellPtr base index % L.pageSize = L.cellsOffset + index * L.cellSize := by
  obtain ⟨k, rfl⟩ := hbase
  have hcell := L.cell_pos
  have hle : L.cellPtr (L.pageSize * k) index + 1 * L.cellSize ≤ L.pageSize * k + L.pageSize :=
    L.cellPtr_le (by omega)
  have hlt : L.cellsOffset + index * L.cellSize < L.pageSize := by
    unfold cellPtr at hle
    omega
  unfold pageOf cellPtr
  rw [Nat.add_assoc, Nat.mul_add_div L.pageSize_pos, Nat.div_eq_of_lt hlt, Nat.mul_add_mod,
    Nat.mod_eq_of_lt hlt, Nat.add_zero]
  exact ⟨Nat.mul_comm _ _, rfl⟩

theorem indexOf_cellPtr (hbase : L.pageSize ∣ base) (h : index < L.numPageCells) :
    indexOf L (L.cellPtr base index) = index := by
  have hend := L.cells_end
  have hpage := L.page_le
  have hmul : index * L.cellSize < L.numPageCells * L.cellSize :=
    Nat.mul_lt_mul_of_pos_right h L.cell_pos
  unfold indexOf
  rw [(L.cellPtr_split hbase h).2]
  have hsum : L.cellsOffset + index * L.cellSize + (2 ^ 32 - L.cellsOffset)
      = 2 ^ 32 + index * L.cellSize := by omega
  rw [hsum, Nat.add_mod_left, Nat.mod_eq_of_lt (by omega)]
  exact Nat.mul_div_cancel _ L.cell_pos

theorem cellPtr_mod_ne (hbase : L.pageSize ∣ base) (h : index < L.numPageCells) :
    L.cellPtr base index % L.pageSize ≠ 0 := by
  have hoffset := L.cellsOffset_pos
  rw [(L.cellPtr_split hbase h).2]
  omega

theorem le_paddedChunk (n : Nat) : n + L.largeChunkSize ≤ L.paddedChunk n := by
  have hpos := L.pageSize_pos
  have hmod := Nat.mod_lt (n + L.largeChunkSize + L.pageSize - 1) hpos
  have hdiv := Nat.div_add_mod (n + L.largeChunkSize + L.pageSize - 1) L.pageSize
  unfold Sizes.paddedChunk
  rw [Nat.mul_comm]
  omega

end Layout

/-! ### Ranges -/

def Apart (a n b m : Nat) : Prop := a + n ≤ b ∨ b + m ≤ a

theorem Apart.symm {a n b m : Nat} (h : Apart a n b m) : Apart b m a n := Or.symm h

theorem Apart.mono {a n b m a' n' b' m' : Nat} (h : Apart a n b m) (ha : a ≤ a')
    (han : a' + n' ≤ a + n) (hb : b ≤ b') (hbm : b' + m' ≤ b + m) : Apart a' n' b' m' := by
  unfold Apart at h ⊢
  omega

theorem apart_pages {z a b : Nat} (ha : z ∣ a) (hb : z ∣ b) (hne : a ≠ b) : Apart a z b z := by
  obtain ⟨i, rfl⟩ := ha
  obtain ⟨j, rfl⟩ := hb
  rcases Nat.lt_or_ge i j with hij | hij
  · refine Or.inl ?_
    calc z * i + z = z * (i + 1) := (Nat.mul_succ z i).symm
      _ ≤ z * j := Nat.mul_le_mul_left z hij
  · have hji : j < i := lt_of_le_of_ne hij fun h => hne (by rw [h])
    refine Or.inr ?_
    calc z * j + z = z * (j + 1) := (Nat.mul_succ z j).symm
      _ ≤ z * i := Nat.mul_le_mul_left z hji

theorem apart_cells (L : Layout) {base i n j m : Nat} (h : Apart i n j m) :
    Apart (L.cellPtr base i) (n * L.cellSize) (L.cellPtr base j) (m * L.cellSize) := by
  have hmono : ∀ {i n j : Nat}, i + n ≤ j →
      L.cellPtr base i + n * L.cellSize ≤ L.cellPtr base j := by
    intro i n j hij
    have hmul := Nat.mul_le_mul_right L.cellSize hij
    rw [Nat.add_mul] at hmul
    unfold Layout.cellPtr
    omega
  exact h.imp hmono hmono

/-! ### The invariant -/

/-- The cells of a page that the `POOL` structure takes. -/
def ownCells (L : Layout) (home base : Nat) : Nat := if base = home then L.poolCells else 0

/-- A page of a pool. -/
structure Page.Inv (L : Layout) (pool : Pool) (base : Nat) (page : Page) : Prop where
  aligned : L.pageSize ∣ base
  eyecatcher_eq : page.eyecatcher = pool.eyecatcher
  length_eq : page.bitmap.length = L.pageBitmapSize
  padded : ∀ p, L.numPageCells ≤ p → p < 8 * L.pageBitmapSize → bit page.bitmap p = true
  own : ∀ p, p < ownCells L pool.home base → bit page.bitmap p = true
  numFree_le : page.numFree.toNat ≤
    numClear L.numPageCells page.bitmap + ownCells L pool.home base

def Pool.all (pool : Pool) : List Nat := pool.pages ++ pool.fullPages

/-- The two lists hold the pages by the threshold. -/
structure Pool.Sorted (pool : Pool) : Prop where
  pages : ∀ base ∈ pool.pages, fullPageThreshold ≤ (pool.page base).numFree.toNat
  fullPages : ∀ base ∈ pool.fullPages, (pool.page base).numFree.toNat < fullPageThreshold

/-- The large chunks of a pool. -/
structure Pool.Chunks (L : Layout) (pool : Pool) : Prop where
  eyecatcher_eq : ∀ c ∈ pool.largeChunks, c.eyecatcher = pool.eyecatcher
  aligned : ∀ c ∈ pool.largeChunks, L.pageSize ∣ c.ptr
  size_lt : ∀ c ∈ pool.largeChunks, L.largeChunkSize < c.size
  apart : pool.largeChunks.Pairwise fun c d => Apart c.ptr c.size d.ptr d.size
  pages : ∀ c ∈ pool.largeChunks, ∀ base ∈ pool.all, Apart c.ptr c.size base L.pageSize

/-- The state of a pool between two calls. -/
structure Pool.Inv (L : Layout) (pool : Pool) : Prop where
  nodup : pool.all.Nodup
  home_mem : pool.home ∈ pool.all
  page : ∀ base ∈ pool.all, (pool.page base).Inv L pool base
  sorted : pool.Sorted
  chunks : pool.Chunks L
  initial_length : pool.initialBitmap.length = L.pageBitmapSize
  initial_bit : ∀ p, p < 8 * L.pageBitmapSize →
    bit pool.initialBitmap p = decide (L.numPageCells ≤ p)

variable {L : Layout} {pool pool' : Pool} {base : Nat}

theorem Page.Inv.isPadded {page : Page} (h : page.Inv L pool base) :
    Padded L.numPageCells page.bitmap := by
  refine ⟨?_, ?_⟩
  · rw [h.length_eq]
    exact L.numPageCells_le_bits
  · rw [h.length_eq]
    exact h.padded

theorem Page.Inv.cells_le {page : Page} (h : page.Inv L pool base) :
    numClear L.numPageCells page.bitmap + ownCells L pool.home base ≤ L.numPageCells := by
  have hfits : ownCells L pool.home base ≤ L.numPageCells := by
    unfold ownCells
    split
    · exact L.pool_fits
    · exact Nat.zero_le _
  have hdisjoint : Disjoint (clearBits L.numPageCells page.bitmap)
      (Finset.range (ownCells L pool.home base)) := by
    rw [Finset.disjoint_left]
    intro p hp hmem
    rw [mem_clearBits, h.own p (Finset.mem_range.mp hmem)] at hp
    exact Bool.noConfusion hp.2
  have hsubset : clearBits L.numPageCells page.bitmap ∪
      Finset.range (ownCells L pool.home base) ⊆ Finset.range L.numPageCells := by
    intro p hp
    rw [Finset.mem_range]
    rcases Finset.mem_union.mp hp with hp | hp
    · exact (mem_clearBits.mp hp).1
    · exact Nat.lt_of_lt_of_le (Finset.mem_range.mp hp) hfits
  have hcard := Finset.card_le_card hsubset
  rwa [Finset.card_union_of_disjoint hdisjoint, Finset.card_range, Finset.card_range] at hcard

/-! ### The lists -/

@[simp] theorem setPage_page_self (base : Nat) (page : Page) :
    (pool.setPage base page).page base = page :=
  Function.update_self ..

theorem setPage_page_of_ne {b : Nat} (h : b ≠ base) (page : Page) :
    (pool.setPage base page).page b = pool.page b :=
  Function.update_of_ne h ..

theorem moveToFull_perm (h : base ∈ pool.pages) : (pool.moveToFull base).all.Perm pool.all := by
  show (pool.pages.erase base ++ base :: pool.fullPages).Perm (pool.pages ++ pool.fullPages)
  exact List.perm_middle.trans ((List.perm_cons_erase h).symm.append_right pool.fullPages)

theorem moveToPages_perm (h : base ∈ pool.fullPages) :
    (pool.moveToPages base).all.Perm pool.all := by
  show (base :: (pool.pages ++ pool.fullPages.erase base)).Perm (pool.pages ++ pool.fullPages)
  exact List.perm_middle.symm.trans ((List.perm_cons_erase h).symm.append_left pool.pages)

end Sandboxie.PoolAlloc
