import Sandboxie.Common.PoolPages

/-!
# Blocks of a pool

What `Pool_Get_Cells`, `Pool_Free_Cells` and the calls on large chunks do, for a pool with
the invariant and memory of the system that nobody else has.
-/

namespace Sandboxie.PoolAlloc

open Bitmap List

variable {L : Layout} {pool pool' pool'' : Pool} {base index n : Nat}

/-! ### Giving cells back -/

theorem give_sorted (h : pool.Inv L) (hmem : base ∈ pool.all) {m : BitVec 16}
    (hm : m.toNat = (pool.page base).numFree.toNat + n) :
    ((if (pool.page base).numFree.toNat < fullPageThreshold ∧
          fullPageThreshold ≤ (pool.page base).numFree.toNat + n then
        pool.moveToPages base
      else pool).setNumFree base m).Sorted := by
  have hfullnodup : pool.fullPages.Nodup := (nodup_append.mp h.nodup).2.1
  split
  · rename_i hcross
    have hnotpages : base ∉ pool.pages := fun hb =>
      absurd (h.sorted.pages base hb) (Nat.not_le_of_lt hcross.1)
    refine ⟨fun b hb => ?_, fun b hb => ?_⟩
    · rcases mem_cons.mp hb with rfl | hb
      · rw [Pool.setNumFree, setPage_page_self, hm]
        exact hcross.2
      · have hne : b ≠ base := fun heq => hnotpages (heq ▸ hb)
        rw [Pool.setNumFree, setPage_page_of_ne hne]
        exact h.sorted.pages b hb
    · have hb' := hfullnodup.mem_erase_iff.mp hb
      rw [Pool.setNumFree, setPage_page_of_ne hb'.1]
      exact h.sorted.fullPages b hb'.2
  · rename_i hstay
    refine ⟨fun b hb => ?_, fun b hb => ?_⟩
    · have hthreshold := h.sorted.pages b hb
      by_cases heq : b = base
      · subst heq
        rw [Pool.setNumFree, setPage_page_self, hm]
        exact Nat.le_add_right_of_le hthreshold
      · rw [Pool.setNumFree, setPage_page_of_ne heq]
        exact hthreshold
    · have hthreshold := h.sorted.fullPages b hb
      by_cases heq : b = base
      · subst heq
        rw [Pool.setNumFree, setPage_page_self, hm]
        exact Nat.lt_of_not_le fun hle => hstay ⟨hthreshold, hle⟩
      · rw [Pool.setNumFree, setPage_page_of_ne heq]
        exact hthreshold

theorem freeCells_spec (h : pool.Inv L) (hmem : base ∈ pool.all)
    (hown : ownCells L pool.home base ≤ index) (hn : 0 < n) (hfit : index + n ≤ L.numPageCells)
    (hset : ∀ p, index ≤ p → p < index + n → bit (pool.page base).bitmap p = true) :
    ∃ pool', freeCells L pool (L.cellPtr base index) n = .ok pool' ∧ pool'.Inv L ∧
      Wrote false base index n pool pool' ∧
      (pool'.page base).numFree.toNat = (pool.page base).numFree.toNat + n := by
  have hpage := h.page base hmem
  have hindex : index < L.numPageCells := by omega
  have hbits : index + n ≤ 8 * (pool.page base).bitmap.length :=
    hfit.trans hpage.isPadded.covers
  have hfilled := markFree_filled hbits
  obtain ⟨hsum, hgiven⟩ := hpage.give hown hfit hset hfilled
  have hsorted := give_sorted h hmem hsum
  have hmoved : Shape pool
      (if (pool.page base).numFree.toNat < fullPageThreshold ∧
          fullPageThreshold ≤ (pool.page base).numFree.toNat + n then
        pool.moveToPages base
      else pool) := by
    split
    · rename_i hcross
      refine ⟨rfl, rfl, rfl, rfl, moveToPages_perm ?_⟩
      rcases mem_append.mp hmem with hb | hb
      · exact absurd (h.sorted.pages base hb) (Nat.not_le_of_lt hcross.1)
      · exact hb
    · exact Shape.refl pool
  have hsame : (if (pool.page base).numFree.toNat < fullPageThreshold ∧
          fullPageThreshold ≤ (pool.page base).numFree.toNat + n then
        pool.moveToPages base
      else pool).page = pool.page := by
    split <;> rfl
  unfold freeCells
  rw [(L.cellPtr_split hpage.aligned hindex).1, L.indexOf_cellPtr hpage.aligned hindex]
  have hlisted : ¬ base ∉ pool.pages ++ pool.fullPages := not_not.mpr hmem
  simp only [if_neg hlisted, hpage.eyecatcher_eq, ne_eq, not_true, if_false]
  generalize (if (pool.page base).numFree.toNat < fullPageThreshold ∧
      fullPageThreshold ≤ (pool.page base).numFree.toNat + n then
        pool.moveToPages base
      else pool) = moved at hsorted hmoved hsame ⊢
  set count := (pool.page base).numFree + BitVec.ofNat 16 n with hcount
  set middle := moved.setNumFree base count with hmiddle
  have hself : middle.page base = { pool.page base with numFree := count } := by
    rw [hmiddle, Pool.setNumFree, setPage_page_self, hsame]
  set bm := markFree n (cursorAt index) (middle.page base).bitmap with hbm
  have hbm' : bm = markFree n (cursorAt index) (pool.page base).bitmap := by
    rw [hbm, hself]
  have hlast : (middle.setBitmap base bm).page base
      = { pool.page base with numFree := count, bitmap := bm } := by
    unfold Pool.setBitmap
    rw [setPage_page_self, hself]
  have hrest : ∀ b, b ≠ base → (middle.setBitmap base bm).page b = pool.page b := by
    intro b hb
    rw [Pool.setBitmap, setPage_page_of_ne hb, hmiddle, Pool.setNumFree, setPage_page_of_ne hb,
      hsame]
  have hshape : Shape pool (middle.setBitmap base bm) :=
    (hmoved.trans (setPage_shape moved base _)).trans (setPage_shape middle base _)
  refine ⟨middle.setBitmap base bm, rfl, ?_, ⟨hshape, ?_, fun b hb => ?_⟩, ?_⟩
  · refine h.of_shape hshape (setBitmap_sorted hsorted base bm) fun b hb => ?_
    by_cases heq : b = base
    · subst heq
      rw [hlast, hbm']
      exact hgiven
    · rw [hrest b heq]
      exact h.page b hb
  · rw [hlast, hbm']
    exact hfilled
  · rw [hrest b hb]
  · rw [hlast]
    exact hsum

/-! ### Memory of the system -/

/-- What the code relies on when the system gives memory: it is aligned to pages, and
nothing of the pool is in it. -/
structure Fresh (L : Layout) (pool : Pool) (ptr len : Nat) : Prop where
  ne_zero : ptr ≠ 0
  aligned : L.pageSize ∣ ptr
  pages : ∀ base ∈ pool.all, Apart ptr len base L.pageSize
  chunks : ∀ c ∈ pool.largeChunks, Apart ptr len c.ptr c.size

/-- Every page and every cell in use is still there. -/
structure Keeps (pool pool' : Pool) : Prop where
  home_eq : pool'.home = pool.home
  chunks_eq : pool'.largeChunks = pool.largeChunks
  mem : ∀ b ∈ pool.all, b ∈ pool'.all
  bit : ∀ b ∈ pool.all, ∀ p, bit (pool.page b).bitmap p = true →
    bit (pool'.page b).bitmap p = true

theorem Keeps.trans (h : Keeps pool pool') (h' : Keeps pool' pool'') : Keeps pool pool'' where
  home_eq := h'.home_eq.trans h.home_eq
  chunks_eq := h'.chunks_eq.trans h.chunks_eq
  mem := fun b hb => h'.mem b (h.mem b hb)
  bit := fun b hb p hp => h'.bit b (h.mem b hb) p (h.bit b hb p hp)

theorem Searched.keeps (h : Searched pool pool') : Keeps pool pool' where
  home_eq := h.home_eq
  chunks_eq := h.chunks_eq
  mem := fun _ hb => h.perm.mem_iff.mpr hb
  bit := fun b _ p hp => by rwa [h.bitmap_eq b]

theorem Wrote.keeps (h : Wrote true base index n pool pool') : Keeps pool pool' where
  home_eq := h.home_eq
  chunks_eq := h.chunks_eq
  mem := fun _ hb => h.perm.mem_iff.mpr hb
  bit := by
    intro b _ p hp
    by_cases heq : b = base
    · rw [heq, h.filled.bit_eq]
      split
      · rfl
      · rwa [← heq]
    · rwa [h.other b heq]

theorem Fresh.not_mem {ptr len : Nat} (h : Fresh L pool ptr len) (hlen : 0 < len) :
    ptr ∉ pool.all := by
  intro hmem
  have hpos := L.pageSize_pos
  have hapart := h.pages ptr hmem
  unfold Apart at hapart
  omega

theorem Found.own (h : pool.Inv L) (hfound : Found L n pool base index) (hn : 0 < n) :
    ownCells L pool.home base ≤ index := by
  by_contra hlt
  have hset := (h.page base (mem_append_left _ hfound.mem)).own index
    (Nat.lt_of_not_le hlt)
  rw [hfound.run.2 index le_rfl (by omega)] at hset
  exact Bool.noConfusion hset

theorem allocPage_spec (h : pool.Inv L) (hfresh : Fresh L pool base L.pageSize)
    (hn : n ≤ L.numPageCells) : ∃ pool', allocPage L pool (some base) = some (pool', base) ∧
      pool'.Inv L ∧ Keeps pool pool' ∧ Found L n pool' base 0 := by
  have hnotmem := hfresh.not_mem L.pageSize_pos
  have hlt := L.numPageCells_lt
  have hcount : (BitVec.ofNat 16 L.numPageCells).toNat = L.numPageCells := by
    rw [BitVec.toNat_ofNat, Nat.mod_eq_of_lt hlt]
  have hcovers := L.numPageCells_le_bits
  have hclear : ∀ p, p < L.numPageCells → bit pool.initialBitmap p = false := by
    intro p hp
    rw [h.initial_bit p (by omega)]
    exact decide_eq_false (Nat.not_le_of_lt hp)
  have hall : numClear L.numPageCells pool.initialBitmap = L.numPageCells :=
    numClear_of_clear hclear
  set page : Page :=
    { eyecatcher := pool.eyecatcher
      numFree := BitVec.ofNat 16 L.numPageCells
      bitmap := pool.initialBitmap } with hpage
  set pool' : Pool := { pool.setPage base page with pages := base :: pool.pages } with hpool'
  have hself : pool'.page base = page := setPage_page_self base page
  have hother : ∀ b ∈ pool.all, pool'.page b = pool.page b := by
    intro b hb
    have hne : b ≠ base := fun heq => hnotmem (heq ▸ hb)
    exact setPage_page_of_ne hne page
  have hnew : page.Inv L pool base :=
    { aligned := hfresh.aligned
      eyecatcher_eq := rfl
      length_eq := h.initial_length
      padded := fun p hlow hhigh => by
        rw [hpage, h.initial_bit p hhigh]
        exact decide_eq_true hlow
      own := fun p hp => by
        rw [ownCells, if_neg fun heq => hnotmem (by rw [heq]; exact h.home_mem)] at hp
        exact absurd hp (Nat.not_lt_zero p)
      numFree_le := by
        show (BitVec.ofNat 16 L.numPageCells).toNat ≤ _
        rw [hcount, hpage, hall]
        exact Nat.le_add_right _ _ }
  have hinv : pool'.Inv L :=
    { nodup := nodup_cons.mpr ⟨hnotmem, h.nodup⟩
      home_mem := mem_cons_of_mem base h.home_mem
      page := by
        intro b hb
        rcases mem_cons.mp hb with rfl | hb
        · rw [hself]
          exact hnew.of_pool rfl rfl
        · rw [hother b hb]
          exact (h.page b hb).of_pool rfl rfl
      sorted := by
        refine ⟨fun b hb => ?_, fun b hb => ?_⟩
        · rcases mem_cons.mp hb with rfl | hb
          · rw [hself, hpage, hcount]
            exact L.threshold_le
          · rw [hother b (mem_append_left _ hb)]
            exact h.sorted.pages b hb
        · rw [hother b (mem_append_right _ hb)]
          exact h.sorted.fullPages b hb
      chunks :=
        { eyecatcher_eq := h.chunks.eyecatcher_eq
          aligned := h.chunks.aligned
          size_lt := h.chunks.size_lt
          apart := h.chunks.apart
          pages := by
            intro c hc b hb
            rcases mem_cons.mp hb with rfl | hb
            · exact (hfresh.chunks c hc).symm
            · exact h.chunks.pages c hc b hb }
      initial_length := h.initial_length
      initial_bit := h.initial_bit }
  refine ⟨pool', rfl, hinv, ⟨rfl, rfl, fun b hb => mem_cons_of_mem base hb, ?_⟩, ?_⟩
  · intro b hb p hp
    rwa [hother b hb]
  · refine ⟨mem_cons_self, ?_, ?_, ?_⟩
    · rw [hself, hpage, hcount]
      exact hn
    · omega
    · intro p _ hp
      rw [hself]
      exact hclear p (by omega)

/-! ### Getting cells -/

/-- Cells of the pool that are in use now, and were not before. -/
structure Given (L : Layout) (pool pool' : Pool) (n base index : Nat) : Prop where
  mem : base ∈ pool'.all
  own : ownCells L pool'.home base ≤ index
  fit : index + n ≤ L.numPageCells
  set : ∀ p, index ≤ p → p < index + n → bit (pool'.page base).bitmap p = true
  clear : base ∈ pool.all →
    ∀ p, index ≤ p → p < index + n → bit (pool.page base).bitmap p = false

theorem takeCells_given (h : pool.Inv L) (hn : 0 < n) (hfound : Found L n pool base index) :
    ∃ pool', takeCells L n pool base index = (pool', L.cellPtr base index) ∧ pool'.Inv L ∧
      Keeps pool pool' ∧ Given L pool pool' n base index := by
  obtain ⟨pool', heq, hinv, hwrote⟩ := takeCells_spec h hfound
  refine ⟨pool', heq, hinv, hwrote.keeps, ?_⟩
  exact
    { mem := hwrote.perm.mem_iff.mpr (mem_append_left _ hfound.mem)
      own := by
        rw [hwrote.home_eq]
        exact hfound.own h hn
      fit := hfound.run.1
      set := fun p hlow hhigh => hwrote.filled.inside hlow hhigh
      clear := fun _ => hfound.run.2 }

theorem getCells_spec (h : pool.Inv L) (hn : 0 < n) (hcells : n ≤ L.numPageCells)
    {memory : Option Nat} (hmemory : ∀ b, memory = some b → Fresh L pool b L.pageSize) :
    ∃ pool' r, getCells L pool n memory = .ok (pool', r) ∧ pool'.Inv L ∧ Keeps pool pool' ∧
      (r = none → memory = none ∧ ∀ b ∈ pool.pages, n ≤ (pool.page b).numFree.toNat →
        ∀ i, ¬ FreeRun L.numPageCells (pool.page b).bitmap n i) ∧
      ∀ ptr, r = some ptr → ∃ base index, ptr = L.cellPtr base index ∧
        Given L pool pool' n base index := by
  obtain ⟨middle, found, heq, hinv, hsearched, hfound, hnone⟩ :=
    searchPages_spec hn pool.pages pool h (nodup_append.mp h.nodup).1 fun b hb => hb
  unfold getCells
  rw [heq]
  rcases found with _ | ⟨base, index⟩
  · rcases memory with _ | base
    · refine ⟨middle, none, rfl, hinv, hsearched.keeps, fun _ => ⟨rfl, hnone rfl⟩,
        fun _ hptr => (nomatch hptr)⟩
    · have hfresh := hmemory base rfl
      have hfresh' : Fresh L middle base L.pageSize :=
        { ne_zero := hfresh.ne_zero
          aligned := hfresh.aligned
          pages := fun b hb => hfresh.pages b (hsearched.perm.mem_iff.mp hb)
          chunks := by
            rw [hsearched.chunks_eq]
            exact hfresh.chunks }
      obtain ⟨larger, halloc, hinv', hkeeps, hfirst⟩ := allocPage_spec hinv hfresh' hcells
      obtain ⟨pool', htake, hinv'', hkeeps', hgiven⟩ := takeCells_given hinv' hn hfirst
      refine ⟨pool', some (L.cellPtr base 0), by simp only [halloc, htake], hinv'',
        (hsearched.keeps.trans hkeeps).trans hkeeps', fun hr => (nomatch hr), ?_⟩
      intro ptr hptr
      refine ⟨base, 0, (Option.some.inj hptr).symm, ?_⟩
      exact
        { mem := hgiven.mem
          own := hgiven.own
          fit := hgiven.fit
          set := hgiven.set
          clear := fun hmem => absurd hmem (hfresh.not_mem L.pageSize_pos) }
  · obtain ⟨pool', htake, hinv', hkeeps, hgiven⟩ :=
      takeCells_given hinv hn (hfound base index rfl)
    refine ⟨pool', some (L.cellPtr base index), by simp only [htake], hinv',
      hsearched.keeps.trans hkeeps,
      fun hr => (nomatch hr), ?_⟩
    intro ptr hptr
    refine ⟨base, index, (Option.some.inj hptr).symm, ?_⟩
    exact
      { mem := hgiven.mem
        own := hgiven.own
        fit := hgiven.fit
        set := hgiven.set
        clear := fun hmem p hlow hhigh => by
          rw [← hsearched.bitmap_eq base]
          exact hgiven.clear (hsearched.perm.mem_iff.mpr hmem) p hlow hhigh }

/-! ### Large chunks -/

variable {size ptr : Nat}

theorem getLargeChunk_inv (h : pool.Inv L) (hsize : 0 < size)
    (hfresh : Fresh L pool ptr (L.paddedChunk size)) :
    (getLargeChunk L pool size (some ptr)).1.Inv L where
  nodup := h.nodup
  home_mem := h.home_mem
  page := fun b hb => (h.page b hb).of_pool rfl rfl
  sorted := ⟨h.sorted.pages, h.sorted.fullPages⟩
  chunks :=
    { eyecatcher_eq := forall_mem_cons.mpr ⟨rfl, h.chunks.eyecatcher_eq⟩
      aligned := forall_mem_cons.mpr ⟨hfresh.aligned, h.chunks.aligned⟩
      size_lt := by
        have hle := L.le_paddedChunk size
        exact forall_mem_cons.mpr ⟨Nat.lt_of_lt_of_le (by omega) hle, h.chunks.size_lt⟩
      apart := pairwise_cons.mpr ⟨hfresh.chunks, h.chunks.apart⟩
      pages := forall_mem_cons.mpr ⟨hfresh.pages, h.chunks.pages⟩ }
  initial_length := h.initial_length
  initial_bit := h.initial_bit

theorem Pool.Chunks.eq_of_addr (h : pool.Chunks L) {c d : LargeChunk}
    (hc : c ∈ pool.largeChunks) (hd : d ∈ pool.largeChunks) (haddr : c.addr L = d.addr L) :
    c = d := by
  by_contra hne
  have : Std.Symm fun c d : LargeChunk => Apart c.ptr c.size d.ptr d.size :=
    ⟨fun _ _ hcd => hcd.symm⟩
  have hapart := h.apart.forall hc hd hne
  have hcsize := h.size_lt c hc
  have hdsize := h.size_lt d hd
  unfold LargeChunk.addr at haddr
  unfold Apart at hapart
  omega

theorem freeLargeChunk_spec (h : pool.Inv L) {c : LargeChunk} (hc : c ∈ pool.largeChunks)
    (hsize : c.size = L.paddedChunk size) :
    freeLargeChunk L pool c.ptr size
      = .ok { pool with largeChunks := pool.largeChunks.erase c } := by
  have hfind : pool.largeChunks.find?
      (fun chunk => chunk.addr L = c.ptr + L.paddedChunk size - L.largeChunkSize) = some c := by
    cases hd : pool.largeChunks.find?
        (fun chunk => chunk.addr L = c.ptr + L.paddedChunk size - L.largeChunkSize) with
    | none =>
      have hnone := find?_eq_none.mp hd c hc
      rw [← hsize] at hnone
      exact absurd (decide_eq_true rfl) hnone
    | some d =>
      have htest := find?_some hd
      have haddr : d.addr L = c.ptr + c.size - L.largeChunkSize := by
        rw [hsize]
        exact of_decide_eq_true htest
      rw [h.chunks.eq_of_addr (mem_of_find?_eq_some hd) hc haddr]
  unfold freeLargeChunk
  simp only [hfind, h.chunks.eyecatcher_eq c hc, ne_eq, not_true, if_false]

theorem erase_chunk_inv (h : pool.Inv L) (c : LargeChunk) :
    ({ pool with largeChunks := pool.largeChunks.erase c } : Pool).Inv L where
  nodup := h.nodup
  home_mem := h.home_mem
  page := fun b hb => (h.page b hb).of_pool rfl rfl
  sorted := ⟨h.sorted.pages, h.sorted.fullPages⟩
  chunks :=
    { eyecatcher_eq := fun d hd => h.chunks.eyecatcher_eq d (mem_of_mem_erase hd)
      aligned := fun d hd => h.chunks.aligned d (mem_of_mem_erase hd)
      size_lt := fun d hd => h.chunks.size_lt d (mem_of_mem_erase hd)
      apart := h.chunks.apart.sublist erase_sublist
      pages := fun d hd => h.chunks.pages d (mem_of_mem_erase hd) }
  initial_length := h.initial_length
  initial_bit := h.initial_bit

end Sandboxie.PoolAlloc
