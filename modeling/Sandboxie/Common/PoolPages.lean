import Sandboxie.Common.PoolInv

/-!
# What the operations do to the pages

Each operation keeps the invariant of the pool, and says which cells it wrote.
-/

namespace Sandboxie.PoolAlloc

open Bitmap List

variable {L : Layout} {pool pool' pool'' : Pool} {base : Nat} {page : Page}

/-! ### Pages -/

theorem Page.Inv.lower (h : page.Inv L pool base) {n : BitVec 16}
    (hn : n.toNat ≤ page.numFree.toNat) : ({ page with numFree := n } : Page).Inv L pool base where
  aligned := h.aligned
  eyecatcher_eq := h.eyecatcher_eq
  length_eq := h.length_eq
  padded := h.padded
  own := h.own
  numFree_le := hn.trans h.numFree_le

theorem Page.Inv.of_pool (h : page.Inv L pool base) (hhome : pool'.home = pool.home)
    (heye : pool'.eyecatcher = pool.eyecatcher) : page.Inv L pool' base where
  aligned := h.aligned
  eyecatcher_eq := h.eyecatcher_eq.trans heye.symm
  length_eq := h.length_eq
  padded := h.padded
  own := by
    rw [hhome]
    exact h.own
  numFree_le := by
    rw [hhome]
    exact h.numFree_le

variable {index n : Nat} {bm : List (BitVec 8)}

theorem Page.Inv.take (h : page.Inv L pool base)
    (hrun : FreeRun L.numPageCells page.bitmap n index) (hn : n ≤ page.numFree.toNat)
    (hbm : Filled true index n page.bitmap bm) :
    ({ page with numFree := page.numFree - BitVec.ofNat 16 n, bitmap := bm } : Page).Inv
      L pool base where
  aligned := h.aligned
  eyecatcher_eq := h.eyecatcher_eq
  length_eq := hbm.length_eq.trans h.length_eq
  padded := by
    intro p hlow hhigh
    rw [hbm.bit_eq]
    split
    · rfl
    · exact h.padded p hlow hhigh
  own := by
    intro p hp
    rw [hbm.bit_eq]
    split
    · rfl
    · exact h.own p hp
  numFree_le := by
    have hclear := hbm.numClear_sub hrun.1 hrun.2
    have hle := h.numFree_le
    have hlt := page.numFree.isLt
    have hsub : (page.numFree - BitVec.ofNat 16 n).toNat = page.numFree.toNat - n := by
      rw [BitVec.toNat_sub_of_le] <;> simp only [BitVec.le_def, BitVec.toNat_ofNat] <;>
        rw [Nat.mod_eq_of_lt (by omega)]
      exact hn
    show (page.numFree - BitVec.ofNat 16 n).toNat ≤
      numClear L.numPageCells bm + ownCells L pool.home base
    omega

theorem Page.Inv.give (h : page.Inv L pool base) (hown : ownCells L pool.home base ≤ index)
    (hfit : index + n ≤ L.numPageCells)
    (hset : ∀ p, index ≤ p → p < index + n → bit page.bitmap p = true)
    (hbm : Filled false index n page.bitmap bm) :
    (page.numFree + BitVec.ofNat 16 n).toNat = page.numFree.toNat + n ∧
      ({ page with numFree := page.numFree + BitVec.ofNat 16 n, bitmap := bm } : Page).Inv
        L pool base := by
  have hclear := hbm.numClear_add hfit hset
  have hle := h.numFree_le
  have hinside : ∀ p, p < ownCells L pool.home base → bit bm p = true := by
    intro p hp
    rw [hbm.outside (by omega)]
    exact h.own p hp
  have hbehind : ∀ p, L.numPageCells ≤ p → p < 8 * L.pageBitmapSize → bit bm p = true := by
    intro p hlow hhigh
    rw [hbm.outside (by omega)]
    exact h.padded p hlow hhigh
  -- the page with the count of before still has the invariant, so the sum does not overflow
  have hbefore : ({ page with bitmap := bm } : Page).Inv L pool base :=
    { aligned := h.aligned
      eyecatcher_eq := h.eyecatcher_eq
      length_eq := hbm.length_eq.trans h.length_eq
      padded := hbehind
      own := hinside
      numFree_le := by
        show page.numFree.toNat ≤ numClear L.numPageCells bm + ownCells L pool.home base
        omega }
  have hcells := hbefore.cells_le
  have hlt := L.numPageCells_lt
  have hsum : (page.numFree + BitVec.ofNat 16 n).toNat = page.numFree.toNat + n := by
    rw [BitVec.toNat_add, BitVec.toNat_ofNat, Nat.add_mod_mod, Nat.mod_eq_of_lt]
    have hcells' : numClear L.numPageCells bm + ownCells L pool.home base ≤ L.numPageCells :=
      hcells
    omega
  refine ⟨hsum, ?_⟩
  exact
    { aligned := h.aligned
      eyecatcher_eq := h.eyecatcher_eq
      length_eq := hbm.length_eq.trans h.length_eq
      padded := hbehind
      own := hinside
      numFree_le := by
        show (page.numFree + BitVec.ofNat 16 n).toNat ≤
          numClear L.numPageCells bm + ownCells L pool.home base
        omega }

/-! ### The lists -/

/-- The parts of a pool that the operations on cells leave alone. -/
structure Shape (pool pool' : Pool) : Prop where
  home_eq : pool'.home = pool.home
  eyecatcher_eq : pool'.eyecatcher = pool.eyecatcher
  chunks_eq : pool'.largeChunks = pool.largeChunks
  initial_eq : pool'.initialBitmap = pool.initialBitmap
  perm : pool'.all.Perm pool.all

theorem Shape.refl (pool : Pool) : Shape pool pool := ⟨rfl, rfl, rfl, rfl, List.Perm.refl _⟩

theorem Shape.trans (h : Shape pool pool') (h' : Shape pool' pool'') : Shape pool pool'' where
  home_eq := h'.home_eq.trans h.home_eq
  eyecatcher_eq := h'.eyecatcher_eq.trans h.eyecatcher_eq
  chunks_eq := h'.chunks_eq.trans h.chunks_eq
  initial_eq := h'.initial_eq.trans h.initial_eq
  perm := h'.perm.trans h.perm

theorem setPage_shape (pool : Pool) (base : Nat) (page : Page) :
    Shape pool (pool.setPage base page) :=
  ⟨rfl, rfl, rfl, rfl, List.Perm.refl _⟩

theorem retire_shape (h : base ∈ pool.pages) : Shape pool (pool.retire base) := by
  unfold Pool.retire
  split
  · exact ⟨rfl, rfl, rfl, rfl, moveToFull_perm h⟩
  · exact Shape.refl pool

@[simp] theorem retire_page (pool : Pool) (base : Nat) : (pool.retire base).page = pool.page := by
  unfold Pool.retire
  split <;> rfl

theorem mem_retire_pages {b : Nat} (hb : b ∈ pool.pages) (hne : b ≠ base) :
    b ∈ (pool.retire base).pages := by
  unfold Pool.retire
  split
  · exact (mem_erase_of_ne hne).mpr hb
  · exact hb

theorem Pool.Inv.of_shape (h : pool.Inv L) (hshape : Shape pool pool') (hsorted : pool'.Sorted)
    (hpage : ∀ b ∈ pool.all, (pool'.page b).Inv L pool b) : pool'.Inv L where
  nodup := hshape.perm.nodup_iff.mpr h.nodup
  home_mem := by
    rw [hshape.home_eq]
    exact hshape.perm.mem_iff.mpr h.home_mem
  page := fun b hb =>
    (hpage b (hshape.perm.mem_iff.mp hb)).of_pool hshape.home_eq hshape.eyecatcher_eq
  sorted := hsorted
  chunks :=
    { eyecatcher_eq := by
        rw [hshape.chunks_eq, hshape.eyecatcher_eq]
        exact h.chunks.eyecatcher_eq
      aligned := by
        rw [hshape.chunks_eq]
        exact h.chunks.aligned
      size_lt := by
        rw [hshape.chunks_eq]
        exact h.chunks.size_lt
      apart := by
        rw [hshape.chunks_eq]
        exact h.chunks.apart
      pages := by
        rw [hshape.chunks_eq]
        exact fun c hc b hb => h.chunks.pages c hc b (hshape.perm.mem_iff.mp hb) }
  initial_length := by
    rw [hshape.initial_eq]
    exact h.initial_length
  initial_bit := by
    rw [hshape.initial_eq]
    exact h.initial_bit

theorem Pool.Inv.not_full (h : pool.Inv L) (hbase : base ∈ pool.pages) :
    base ∉ pool.fullPages :=
  fun hfull => (nodup_append.mp h.nodup).2.2 base hbase base hfull rfl

theorem retire_sorted (h : pool.Inv L) (hbase : base ∈ pool.pages) (n : BitVec 16) :
    ((pool.setNumFree base n).retire base).Sorted := by
  have hnodup : pool.pages.Nodup := (nodup_append.mp h.nodup).1
  have hself : ((pool.setNumFree base n).page base).numFree = n := by
    unfold Pool.setNumFree
    rw [setPage_page_self]
  have hother : ∀ {b}, b ≠ base → (pool.setNumFree base n).page b = pool.page b :=
    fun hb => setPage_page_of_ne hb _
  have hfull : ∀ b ∈ pool.fullPages,
      ((pool.setNumFree base n).page b).numFree.toNat < fullPageThreshold := by
    intro b hb
    rw [hother fun heq => h.not_full hbase (heq ▸ hb)]
    exact h.sorted.fullPages b hb
  unfold Pool.retire
  rw [hself]
  by_cases hn : n.toNat < fullPageThreshold
  · rw [if_pos hn]
    refine ⟨fun b hb => ?_, fun b hb => ?_⟩
    · have hmem := hnodup.mem_erase_iff.mp hb
      show _ ≤ ((pool.setNumFree base n).page b).numFree.toNat
      rw [hother hmem.1]
      exact h.sorted.pages b hmem.2
    · show ((pool.setNumFree base n).page b).numFree.toNat < _
      rcases mem_cons.mp hb with rfl | hb
      · rw [hself]
        exact hn
      · exact hfull b hb
  · rw [if_neg hn]
    refine ⟨fun b hb => ?_, hfull⟩
    by_cases heq : b = base
    · rw [heq, hself]
      exact Nat.le_of_not_lt hn
    · rw [hother heq]
      exact h.sorted.pages b hb

theorem setBitmap_sorted (h : pool.Sorted) (base : Nat) (bm : List (BitVec 8)) :
    (pool.setBitmap base bm).Sorted := by
  have hsame : ∀ b, ((pool.setBitmap base bm).page b).numFree = (pool.page b).numFree := by
    intro b
    unfold Pool.setBitmap
    by_cases heq : b = base
    · rw [heq, setPage_page_self]
    · rw [setPage_page_of_ne heq]
  refine ⟨fun b hb => ?_, fun b hb => ?_⟩
  · rw [hsame]
    exact h.pages b hb
  · rw [hsame]
    exact h.fullPages b hb

/-! ### Searching -/

/-- The search leaves the bitmaps alone. -/
structure Searched (pool pool' : Pool) : Prop extends Shape pool pool' where
  bitmap_eq : ∀ b, (pool'.page b).bitmap = (pool.page b).bitmap

theorem Searched.refl (pool : Pool) : Searched pool pool := ⟨Shape.refl pool, fun _ => rfl⟩

theorem Searched.trans (h : Searched pool pool') (h' : Searched pool' pool'') :
    Searched pool pool'' :=
  ⟨h.toShape.trans h'.toShape, fun b => (h'.bitmap_eq b).trans (h.bitmap_eq b)⟩

theorem lower_spec (h : pool.Inv L) (hbase : base ∈ pool.pages) {n : BitVec 16}
    (hn : n.toNat ≤ (pool.page base).numFree.toNat) :
    ((pool.setNumFree base n).retire base).Inv L ∧
      Searched pool ((pool.setNumFree base n).retire base) ∧
      ∀ b, b ≠ base → ((pool.setNumFree base n).retire base).page b = pool.page b := by
  have hshape : Shape pool ((pool.setNumFree base n).retire base) :=
    (setPage_shape pool base _).trans (retire_shape hbase)
  have hother : ∀ b, b ≠ base →
      ((pool.setNumFree base n).retire base).page b = pool.page b := by
    intro b hb
    rw [retire_page]
    exact setPage_page_of_ne hb _
  have hself : ((pool.setNumFree base n).retire base).page base
      = { pool.page base with numFree := n } := by
    rw [retire_page]
    exact setPage_page_self base _
  refine ⟨h.of_shape hshape (retire_sorted h hbase n) fun b hb => ?_, ⟨hshape, fun b => ?_⟩,
    hother⟩
  · by_cases heq : b = base
    · subst heq
      rw [hself]
      exact (h.page b hb).lower hn
    · rw [hother b heq]
      exact h.page b hb
  · by_cases heq : b = base
    · rw [heq, hself]
    · rw [hother b heq]

/-- What the search over the pages finds. -/
structure Found (L : Layout) (size : Nat) (pool : Pool) (base index : Nat) : Prop where
  mem : base ∈ pool.pages
  numFree : size ≤ (pool.page base).numFree.toNat
  run : FreeRun L.numPageCells (pool.page base).bitmap size index

theorem searchPages_spec {size : Nat} (hsize : 0 < size) : ∀ (todo : List Nat) (pool : Pool),
    pool.Inv L → todo.Nodup → (∀ b ∈ todo, b ∈ pool.pages) → ∃ pool' found,
      searchPages L size todo pool = .ok (pool', found) ∧ pool'.Inv L ∧ Searched pool pool' ∧
      (∀ base index, found = some (base, index) → Found L size pool' base index) ∧
      (found = none → ∀ b ∈ todo, size ≤ (pool.page b).numFree.toNat →
        ∀ r, ¬ FreeRun L.numPageCells (pool.page b).bitmap size r) := by
  intro todo
  induction todo with
  | nil =>
    intro pool h _ _
    refine ⟨pool, none, rfl, h, Searched.refl pool, fun _ _ heq => (nomatch heq),
      fun _ b hb => ?_⟩
    exact absurd hb not_mem_nil
  | cons base rest ih =>
    intro pool h hnodup hsub
    have hbase : base ∈ pool.pages := hsub base mem_cons_self
    have hpage := h.page base (mem_append_left _ hbase)
    rw [nodup_cons] at hnodup
    rw [searchPages, if_neg (not_not.mpr hpage.eyecatcher_eq)]
    by_cases hfree : size ≤ (pool.page base).numFree.toNat
    · rw [if_pos hfree]
      cases hfind : findCells L (pool.page base) size with
      | some index =>
        refine ⟨pool, _, rfl, h, Searched.refl pool, fun b i heq => ?_,
          fun heq => (nomatch heq)⟩
        cases heq
        exact ⟨hbase, hfree, findCells_some hpage.isPadded hfind⟩
      | none =>
        have hlt := (pool.page base).numFree.isLt
        have hn : (BitVec.ofNat 16 (size - 1)).toNat ≤ (pool.page base).numFree.toNat := by
          rw [BitVec.toNat_ofNat, Nat.mod_eq_of_lt (by omega)]
          omega
        obtain ⟨hinv, hsearched, hother⟩ := lower_spec h hbase hn
        obtain ⟨pool', found, heq, hinv', hsearched', hfound, hnone⟩ :=
          ih _ hinv hnodup.2 fun b hb =>
            mem_retire_pages (hsub b (mem_cons_of_mem base hb))
              fun heq => hnodup.1 (heq ▸ hb)
        refine ⟨pool', found, heq, hinv', hsearched.trans hsearched', hfound,
          fun hf b hb => ?_⟩
        rcases mem_cons.mp hb with rfl | hb
        · exact fun _ => findCells_none hpage.isPadded hsize hfind
        · rw [← hother b fun heq => hnodup.1 (heq ▸ hb)]
          exact hnone hf b hb
    · rw [if_neg hfree]
      obtain ⟨pool', found, heq, hinv', hsearched, hfound, hnone⟩ :=
        ih pool h hnodup.2 fun b hb => hsub b (mem_cons_of_mem base hb)
      refine ⟨pool', found, heq, hinv', hsearched, hfound, fun hf b hb => ?_⟩
      rcases mem_cons.mp hb with rfl | hb
      · exact fun hle => absurd hle hfree
      · exact hnone hf b hb

/-! ### Taking and giving back -/

/-- Cells of one page were written. -/
structure Wrote (v : Bool) (base index n : Nat) (pool pool' : Pool) : Prop
    extends Shape pool pool' where
  filled : Filled v index n (pool.page base).bitmap (pool'.page base).bitmap
  other : ∀ b, b ≠ base → (pool'.page b).bitmap = (pool.page b).bitmap

theorem takeCells_spec (h : pool.Inv L) (hfound : Found L n pool base index) :
    ∃ pool', takeCells L n pool base index = (pool', L.cellPtr base index) ∧ pool'.Inv L ∧
      Wrote true base index n pool pool' := by
  have hbase := hfound.mem
  have hmem : base ∈ pool.all := mem_append_left _ hbase
  have hpage := h.page base hmem
  set count := (pool.page base).numFree - BitVec.ofNat 16 n with hcount
  set middle := (pool.setNumFree base count).retire base with hmiddle
  have hself : middle.page base = { pool.page base with numFree := count } := by
    rw [hmiddle, retire_page]
    exact setPage_page_self base _
  have hother : ∀ b, b ≠ base → middle.page b = pool.page b := by
    intro b hb
    rw [hmiddle, retire_page]
    exact setPage_page_of_ne hb _
  set bm := markUsed n (cursorAt index) (middle.page base).bitmap with hbm
  have hfilled : Filled true index n (pool.page base).bitmap bm := by
    rw [hbm, hself]
    refine markUsed_filled ?_
    have hcovers := hpage.isPadded.covers
    have hfit := hfound.run.1
    show index + n ≤ 8 * (pool.page base).bitmap.length
    omega
  have hshape : Shape pool (middle.setBitmap base bm) :=
    ((setPage_shape pool base _).trans (retire_shape hbase)).trans (setPage_shape middle base _)
  have hlast : (middle.setBitmap base bm).page base
      = { pool.page base with numFree := count, bitmap := bm } := by
    unfold Pool.setBitmap
    rw [setPage_page_self, hself]
  have hrest : ∀ b, b ≠ base → (middle.setBitmap base bm).page b = pool.page b := by
    intro b hb
    rw [← hother b hb]
    exact setPage_page_of_ne hb _
  refine ⟨middle.setBitmap base bm, rfl, ?_, ⟨hshape, ?_, fun b hb => ?_⟩⟩
  · refine h.of_shape hshape (setBitmap_sorted (retire_sorted h hbase count) base bm)
      fun b hb => ?_
    by_cases heq : b = base
    · subst heq
      rw [hlast]
      exact hpage.take hfound.run hfound.numFree hfilled
    · rw [hrest b heq]
      exact h.page b hb
  · rw [hlast]
    exact hfilled
  · rw [hrest b hb]

end Sandboxie.PoolAlloc
