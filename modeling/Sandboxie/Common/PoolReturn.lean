import Sandboxie.Common.PoolRun

/-!
# Blocks that come back with a size

`Pool_Free` trusts the size that it is given.  It tells a large chunk by its address, and takes
the number of cells, or the place of the chunk's structure, from the size.  So a block comes back
as it was taken exactly when the two sizes are padded to the same.

`map_alloc` asks for a word more than its caller and writes the caller's size into it; `map_free`
gives the block back with that size.  `Roomy` says for which sizes the word makes no difference.
-/

namespace Sandboxie.PoolAlloc

/-- A block that comes back: the size it was taken with and the size it is given back with. -/
structure Return where
  taken : Nat
  given : Nat
deriving DecidableEq, Repr

/-- What `Pool_Free` gives back of a block. -/
def Return.extent (L : Layout) (r : Return) : Nat :=
  if L.largeChunkMinimum < r.taken then L.paddedChunk r.given
  else L.numCells r.given * L.cellSize

def Return.Exact (L : Layout) (r : Return) : Prop :=
  0 < r.given ∧ r.extent L = PoolAlloc.extent L r.taken

variable {L : Layout} {s : State} {b : Block}

/-- **A block that comes back exactly** has the same effect on the pool as with its own size. -/
theorem free_of_exact (hs : s.Inv L) (hb : b ∈ s.live) {given : Nat}
    (hexact : Return.Exact L ⟨b.size, given⟩) :
    free L s.pool b.ptr given = free L s.pool b.ptr b.size := by
  obtain ⟨hpos, hextent⟩ := hexact
  have hptr := hs.ptr_ne b hb
  have hsize := hs.size_pos b hb
  unfold free
  rw [if_neg (not_or.mpr ⟨hptr, Nat.ne_of_gt hpos⟩),
    if_neg (not_or.mpr ⟨hptr, Nat.ne_of_gt hsize⟩)]
  unfold Return.extent at hextent
  by_cases hlarge : L.largeChunkMinimum < b.size
  · obtain ⟨c, hc, hcptr, -⟩ := hs.large b hb hlarge
    have haligned : b.ptr % L.pageSize = 0 := by
      rw [← hcptr]
      exact Nat.mod_eq_zero_of_dvd (hs.pool.chunks.aligned c hc)
    rw [if_pos hlarge, extent_large hlarge] at hextent
    rw [if_pos haligned, if_pos haligned]
    unfold freeLargeChunk
    rw [hextent]
  · obtain ⟨base, index, hplaced⟩ := hs.small b hb hlarge
    have hindex : index < L.numPageCells := by
      have hcells := L.numCells_pos hsize
      have hfit := hplaced.fit
      omega
    have hinside : b.ptr % L.pageSize ≠ 0 := by
      rw [hplaced.ptr_eq]
      exact L.cellPtr_mod_ne (hs.pool.page base hplaced.mem).aligned hindex
    rw [if_neg hlarge, extent_small hlarge] at hextent
    rw [if_neg hinside, if_neg hinside, Nat.eq_of_mul_eq_mul_right L.cell_pos hextent]

/-! ### A word more -/

theorem ceilDiv_add_eq {n w c : Nat} (hn : 0 < n) (hc : 0 < c) :
    (n + w + c - 1) / c = (n + c - 1) / c ↔ (n - 1) % c + w < c := by
  have hdiv := Nat.div_add_mod (n - 1) c
  have hmod := Nat.mod_lt (n - 1) hc
  have hleft : (n + c - 1) / c = (n - 1) / c + 1 := by
    rw [show n + c - 1 = n - 1 + c by omega, Nat.add_div_right _ hc]
  have hright : (n + w + c - 1) / c = (n - 1) / c + 1 + ((n - 1) % c + w) / c := by
    have hsplit : n + w + c - 1 = ((n - 1) % c + w) + c * ((n - 1) / c + 1) := by
      rw [Nat.mul_add, Nat.mul_one]
      omega
    rw [hsplit, Nat.add_mul_div_left _ _ hc]
    omega
  rw [hleft, hright, ← Nat.div_eq_zero_iff_lt hc]
  omega

/-- The sizes that a word in front does not take to another cell, or another page. -/
def Roomy (L : Layout) (word size : Nat) : Prop :=
  0 < size ∧
    if L.largeChunkMinimum < word + size then
      (size + L.largeChunkSize - 1) % L.pageSize + word < L.pageSize
    else (size - 1) % L.cellSize + word < L.cellSize

instance (L : Layout) (word size : Nat) : Decidable (Roomy L word size) := by
  unfold Roomy
  infer_instance

/-- **A block with a word in front comes back exactly** when its size is roomy. -/
theorem exact_iff_roomy (word size : Nat) :
    Return.Exact L ⟨word + size, size⟩ ↔ Roomy L word size := by
  unfold Return.Exact Return.extent Roomy
  refine and_congr_right fun hsize => ?_
  change 0 < size at hsize
  by_cases hlarge : L.largeChunkMinimum < word + size
  · have hpages := L.pageSize_pos
    rw [if_pos hlarge, if_pos hlarge, extent_large hlarge, eq_comm]
    unfold Sizes.paddedChunk
    rw [Nat.mul_left_inj (Nat.ne_of_gt hpages),
      show word + size + L.largeChunkSize = size + L.largeChunkSize + word by omega]
    exact ceilDiv_add_eq (by omega) hpages
  · rw [if_neg hlarge, if_neg hlarge, extent_small hlarge, eq_comm,
      Nat.mul_left_inj (Nat.ne_of_gt L.cell_pos), L.numCells_eq, L.numCells_eq,
      Nat.add_comm word size]
    exact ceilDiv_add_eq hsize L.cell_pos

end Sandboxie.PoolAlloc
