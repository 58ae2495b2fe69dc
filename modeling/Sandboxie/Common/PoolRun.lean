import Sandboxie.Common.PoolBlocks
import Sandboxie.Lib.Run

/-!
# Runs of a pool

The blocks that the callers of a pool have, over every order of calls.  A caller gives a
block back with the size that it asked for.
-/

namespace Sandboxie.PoolAlloc

open Bitmap List

/-! ### Calls -/

/-- A block that a caller has, with the size that it asked for. -/
structure Block where
  ptr : Nat
  size : Nat
deriving DecidableEq, Repr

/-- A pool and the blocks that its callers have. -/
structure State where
  pool : Pool
  live : List Block

inductive Call
  | alloc (size : Nat) (memory : Option Nat)
  | free (ptr size : Nat)
deriving DecidableEq, Repr

def call (L : Layout) (s : State) : Call → Except Abend State
  | .alloc size memory =>
    match alloc L s.pool size memory with
    | .error e => .error e
    | .ok (pool, none) => .ok { s with pool := pool }
    | .ok (pool, some ptr) => .ok { pool := pool, live := ⟨ptr, size⟩ :: s.live }
  | .free ptr size =>
    match free L s.pool ptr size with
    | .error e => .error e
    | .ok pool => .ok { pool := pool, live := s.live.erase ⟨ptr, size⟩ }

def asked (L : Layout) (size : Nat) : Nat :=
  if L.largeChunkMinimum < size then L.paddedChunk size else L.pageSize

/-- The system gives memory that nobody has, and a caller gives back a block that it has. -/
def Contract (L : Layout) (s : State) : Call → Prop
  | .alloc size memory => ∀ ptr, memory = some ptr → Fresh L s.pool ptr (asked L size)
  | .free ptr size => ⟨ptr, size⟩ ∈ s.live

def extent (L : Layout) (size : Nat) : Nat :=
  if L.largeChunkMinimum < size then L.paddedChunk size else L.numCells size * L.cellSize

def Block.Apart (L : Layout) (b c : Block) : Prop :=
  PoolAlloc.Apart b.ptr (extent L b.size) c.ptr (extent L c.size)

/-- A small block at its cells. -/
structure Placed (L : Layout) (pool : Pool) (b : Block) (base index : Nat) : Prop where
  mem : base ∈ pool.all
  ptr_eq : b.ptr = L.cellPtr base index
  own : ownCells L pool.home base ≤ index
  fit : index + L.numCells b.size ≤ L.numPageCells
  set : ∀ p, index ≤ p → p < index + L.numCells b.size → bit (pool.page base).bitmap p = true

structure State.Inv (L : Layout) (s : State) : Prop where
  pool : s.pool.Inv L
  ptr_ne : ∀ b ∈ s.live, b.ptr ≠ 0
  size_pos : ∀ b ∈ s.live, 0 < b.size
  small : ∀ b ∈ s.live, ¬ L.largeChunkMinimum < b.size →
    ∃ base index, Placed L s.pool b base index
  large : ∀ b ∈ s.live, L.largeChunkMinimum < b.size →
    ∃ c ∈ s.pool.largeChunks, c.ptr = b.ptr ∧ c.size = L.paddedChunk b.size
  apart : s.live.Pairwise (Block.Apart L)

variable {L : Layout} {s s' : State} {pool pool' : Pool} {b c : Block} {base index n : Nat}

/-! ### Blocks -/

instance : Std.Symm (Block.Apart L) := ⟨fun _ _ h => Apart.symm h⟩

theorem extent_pos (hsize : 0 < n) : 0 < extent L n := by
  unfold extent
  split
  · have hle := L.le_paddedChunk n
    omega
  · exact Nat.mul_pos (L.numCells_pos hsize) L.cell_pos

theorem extent_small (h : ¬ L.largeChunkMinimum < n) :
    extent L n = L.numCells n * L.cellSize := if_neg h

theorem extent_large (h : L.largeChunkMinimum < n) : extent L n = L.paddedChunk n := if_pos h

theorem Placed.in_page (h : Placed L pool b base index) :
    base ≤ b.ptr ∧ b.ptr + L.numCells b.size * L.cellSize ≤ base + L.pageSize := by
  rw [h.ptr_eq]
  refine ⟨?_, L.cellPtr_le h.fit⟩
  unfold Layout.cellPtr
  omega

theorem Placed.keeps (h : Placed L pool b base index) (hkeeps : Keeps pool pool') :
    Placed L pool' b base index where
  mem := hkeeps.mem base h.mem
  ptr_eq := h.ptr_eq
  own := by
    rw [hkeeps.home_eq]
    exact h.own
  fit := h.fit
  set := fun p hlow hhigh => hkeeps.bit base h.mem p (h.set p hlow hhigh)

theorem State.Inv.keeps (h : s.Inv L) (hinv : pool'.Inv L) (hkeeps : Keeps s.pool pool') :
    ({ s with pool := pool' } : State).Inv L where
  pool := hinv
  ptr_ne := h.ptr_ne
  size_pos := h.size_pos
  small := by
    intro b hb hsmall
    obtain ⟨base, index, hplaced⟩ := h.small b hb hsmall
    exact ⟨base, index, hplaced.keeps hkeeps⟩
  large := by
    rw [hkeeps.chunks_eq]
    exact h.large
  apart := h.apart

/-! ### Allocation -/

theorem given_apart (h : s.Inv L) (hinv : pool'.Inv L) (hkeeps : Keeps s.pool pool')
    (hsmall : ¬ L.largeChunkMinimum < n) (hn : 0 < n)
    (hgiven : Given L s.pool pool' (L.numCells n) base index) :
    ∀ b ∈ s.live, Block.Apart L ⟨L.cellPtr base index, n⟩ b := by
  intro b hb
  have hcells := L.numCells_pos hn
  have hlow : base ≤ L.cellPtr base index := by
    unfold Layout.cellPtr
    omega
  have hhigh : L.cellPtr base index + L.numCells n * L.cellSize ≤ base + L.pageSize :=
    L.cellPtr_le hgiven.fit
  show Apart (L.cellPtr base index) (extent L n) b.ptr (extent L b.size)
  rw [extent_small hsmall]
  by_cases hlarge : L.largeChunkMinimum < b.size
  · obtain ⟨c, hc, hptr, hsize⟩ := h.large b hb hlarge
    rw [extent_large hlarge, ← hptr, ← hsize]
    have hapart := hinv.chunks.pages c (by rw [hkeeps.chunks_eq]; exact hc) base hgiven.mem
    exact hapart.symm.mono hlow hhigh le_rfl le_rfl
  · obtain ⟨base', index', hplaced⟩ := h.small b hb hlarge
    rw [extent_small hlarge]
    by_cases hpage : base' = base
    · subst hpage
      rw [hplaced.ptr_eq]
      refine apart_cells L ?_
      -- a cell of both would be clear and set
      by_contra hmeet
      unfold Apart at hmeet
      have hpos := L.numCells_pos (h.size_pos b hb)
      have hclear := hgiven.clear hplaced.mem (max index index') (le_max_left _ _) (by omega)
      rw [hplaced.set (max index index') (le_max_right _ _) (by omega)] at hclear
      exact Bool.noConfusion hclear
    · have hin := hplaced.in_page
      have hpages := apart_pages (hinv.page base hgiven.mem).aligned
        (h.pool.page base' hplaced.mem).aligned (Ne.symm hpage)
      exact hpages.mono hlow hhigh hin.1 hin.2

theorem allocSmall_spec (h : s.Inv L) (hn : 0 < n) (hsmall : ¬ L.largeChunkMinimum < n)
    {memory : Option Nat} (hmemory : ∀ b, memory = some b → Fresh L s.pool b L.pageSize) :
    ∃ pool' r, getCells L s.pool (L.numCells n) memory = .ok (pool', r) ∧
      ({ s with pool := pool' } : State).Inv L ∧
      (∀ ptr, r = some ptr → ({ pool := pool', live := ⟨ptr, n⟩ :: s.live } : State).Inv L) ∧
      (r = none → memory = none ∧ ∀ b ∈ s.pool.pages,
        L.numCells n ≤ (s.pool.page b).numFree.toNat →
          ∀ i, ¬ FreeRun L.numPageCells (s.pool.page b).bitmap (L.numCells n) i) := by
  obtain ⟨pool', r, heq, hinv, hkeeps, hnone, hsome⟩ :=
    getCells_spec h.pool (L.numCells_pos hn) (L.numCells_le hsmall) hmemory
  have hbefore := h.keeps hinv hkeeps
  refine ⟨pool', r, heq, hbefore, ?_, hnone⟩
  intro ptr hr
  obtain ⟨base, index, rfl, hgiven⟩ := hsome ptr hr
  exact
    { pool := hinv
      ptr_ne := forall_mem_cons.mpr ⟨by
        have hoffset := L.cellsOffset_pos
        show L.cellPtr base index ≠ 0
        unfold Layout.cellPtr
        omega, hbefore.ptr_ne⟩
      size_pos := forall_mem_cons.mpr ⟨hn, hbefore.size_pos⟩
      small := forall_mem_cons.mpr ⟨fun _ => ⟨base, index, hgiven.mem, rfl, hgiven.own,
        hgiven.fit, hgiven.set⟩, hbefore.small⟩
      large := forall_mem_cons.mpr ⟨fun hlarge => absurd hlarge hsmall, hbefore.large⟩
      apart := pairwise_cons.mpr
        ⟨given_apart h hinv hkeeps hsmall hn hgiven, hbefore.apart⟩ }

theorem allocLarge_inv (h : s.Inv L) (hlarge : L.largeChunkMinimum < n) {ptr : Nat}
    (hfresh : Fresh L s.pool ptr (L.paddedChunk n)) :
    ({ pool := (getLargeChunk L s.pool n (some ptr)).1, live := ⟨ptr, n⟩ :: s.live } :
      State).Inv L where
  pool := getLargeChunk_inv h.pool (by omega) hfresh
  ptr_ne := forall_mem_cons.mpr ⟨hfresh.ne_zero, h.ptr_ne⟩
  size_pos := forall_mem_cons.mpr ⟨by show 0 < n; omega, h.size_pos⟩
  small := by
    refine forall_mem_cons.mpr ⟨fun hsmall => absurd hlarge hsmall, ?_⟩
    intro b hb hsmall
    obtain ⟨base, index, hplaced⟩ := h.small b hb hsmall
    exact ⟨base, index, hplaced.mem, hplaced.ptr_eq, hplaced.own, hplaced.fit, hplaced.set⟩
  large := by
    refine forall_mem_cons.mpr ⟨fun _ => ⟨_, mem_cons_self, rfl, rfl⟩, ?_⟩
    intro b hb hlarge'
    obtain ⟨c, hc, hceq⟩ := h.large b hb hlarge'
    exact ⟨c, mem_cons_of_mem _ hc, hceq⟩
  apart := by
    refine pairwise_cons.mpr ⟨fun b hb => ?_, h.apart⟩
    show Apart ptr (extent L n) b.ptr (extent L b.size)
    rw [extent_large hlarge]
    by_cases hlarge' : L.largeChunkMinimum < b.size
    · obtain ⟨c, hc, hptr, hsize⟩ := h.large b hb hlarge'
      rw [extent_large hlarge', ← hptr, ← hsize]
      exact hfresh.chunks c hc
    · obtain ⟨base, index, hplaced⟩ := h.small b hb hlarge'
      have hin := hplaced.in_page
      rw [extent_small hlarge']
      exact (hfresh.pages base hplaced.mem).mono le_rfl le_rfl hin.1 hin.2

theorem alloc_step (h : s.Inv L) {memory : Option Nat}
    (hmemory : Contract L s (.alloc n memory)) :
    ∃ s', call L s (.alloc n memory) = .ok s' ∧ s'.Inv L := by
  unfold call alloc
  by_cases hmax : L.largeChunkMaximum ≤ n
  · exact ⟨s, by simp only [if_pos hmax], h⟩
  by_cases hzero : n = 0
  · exact ⟨s, by simp only [if_neg hmax, if_pos hzero], h⟩
  · by_cases hlarge : L.largeChunkMinimum < n
    · rcases memory with _ | ptr
      · exact ⟨s, by simp only [if_neg hmax, if_neg hzero, if_pos hlarge, getLargeChunk], h⟩
      · have hfresh := hmemory ptr rfl
        rw [asked, if_pos hlarge] at hfresh
        exact ⟨_, by simp only [if_neg hmax, if_neg hzero, if_pos hlarge, getLargeChunk],
          allocLarge_inv h hlarge hfresh⟩
    · have hfresh : ∀ b, memory = some b → Fresh L s.pool b L.pageSize := by
        intro b hb
        have hasked := hmemory b hb
        rwa [asked, if_neg hlarge] at hasked
      obtain ⟨pool', r, heq, hnull, hsome, -⟩ :=
        allocSmall_spec h (Nat.pos_of_ne_zero hzero) hlarge hfresh
      simp only [if_neg hmax, if_neg hzero, if_neg hlarge, heq]
      rcases r with _ | ptr
      · exact ⟨_, rfl, hnull⟩
      · exact ⟨_, rfl, hsome ptr rfl⟩

/-! ### Giving back -/

theorem State.Inv.others (h : s.Inv L) (hb : b ∈ s.live) :
    (s.live.erase b).Pairwise (Block.Apart L) ∧ ∀ c ∈ s.live.erase b, b.Apart L c := by
  have hperm := ((perm_cons_erase hb).pairwise_iff fun hbc => Apart.symm hbc).mp h.apart
  rw [pairwise_cons] at hperm
  exact ⟨hperm.2, hperm.1⟩

theorem apart_of_cells {i j m : Nat} (h : Apart (L.cellPtr base i) (n * L.cellSize)
    (L.cellPtr base j) (m * L.cellSize)) : Apart i n j m := by
  have hcell := L.cell_pos
  have hle : ∀ {i n j : Nat}, L.cellPtr base i + n * L.cellSize ≤ L.cellPtr base j →
      i + n ≤ j := by
    intro i n j hij
    unfold Layout.cellPtr at hij
    refine Nat.le_of_mul_le_mul_right ?_ hcell
    rw [Nat.add_mul]
    omega
  exact h.imp hle hle

/-- What a small block's cells are after it was given back. -/
structure Returned (L : Layout) (pool pool' : Pool) (n base index : Nat) : Prop where
  mem : base ∈ pool'.all
  fit : index + n ≤ L.numPageCells
  clear : ∀ p, index ≤ p → p < index + n → bit (pool'.page base).bitmap p = false
  numFree_eq : (pool'.page base).numFree.toNat = (pool.page base).numFree.toNat + n

theorem freeSmall_spec (h : s.Inv L) (hb : b ∈ s.live) (hsmall : ¬ L.largeChunkMinimum < b.size) :
    ∃ s', call L s (.free b.ptr b.size) = .ok s' ∧ s'.Inv L ∧
      Returned L s.pool s'.pool (L.numCells b.size) (pageOf L b.ptr) (indexOf L b.ptr) := by
  have hsize := h.size_pos b hb
  have hcells := L.numCells_pos hsize
  obtain ⟨base, index, hplaced⟩ := h.small b hb hsmall
  have hpage := h.pool.page base hplaced.mem
  have hindex : index < L.numPageCells := by
    have hfit := hplaced.fit
    omega
  obtain ⟨pool', heq, hinv, hwrote, hcount⟩ :=
    freeCells_spec h.pool hplaced.mem hplaced.own hcells hplaced.fit hplaced.set
  obtain ⟨hpairs, hothers⟩ := h.others hb
  have hfree : free L s.pool b.ptr b.size = .ok pool' := by
    unfold free
    rw [if_neg (not_or.mpr ⟨h.ptr_ne b hb, Nat.ne_of_gt hsize⟩), hplaced.ptr_eq,
      if_neg (L.cellPtr_mod_ne hpage.aligned hindex)]
    exact heq
  refine ⟨{ pool := pool', live := s.live.erase b }, by simp only [call, hfree], ?_, ?_⟩
  · refine ⟨hinv, fun c hc => h.ptr_ne c (mem_of_mem_erase hc),
      fun c hc => h.size_pos c (mem_of_mem_erase hc), fun c hc hsmall' => ?_, ?_, hpairs⟩
    · obtain ⟨base', index', hplaced'⟩ := h.small c (mem_of_mem_erase hc) hsmall'
      have hapart := hothers c hc
      refine ⟨base', index', hwrote.perm.mem_iff.mpr hplaced'.mem, hplaced'.ptr_eq, ?_,
        hplaced'.fit, fun p hlow hhigh => ?_⟩
      · show ownCells L pool'.home base' ≤ index'
        rw [hwrote.home_eq]
        exact hplaced'.own
      show bit (pool'.page base').bitmap p = true
      have hset := hplaced'.set p hlow hhigh
      by_cases hbase : base' = base
      · subst hbase
        unfold Block.Apart at hapart
        rw [extent_small hsmall, extent_small hsmall', hplaced.ptr_eq,
          hplaced'.ptr_eq] at hapart
        have hruns := apart_of_cells hapart
        unfold Apart at hruns
        rw [hwrote.filled.outside (by omega)]
        exact hset
      · rw [hwrote.other base' hbase]
        exact hset
    · intro c hc hlarge
      show ∃ d ∈ pool'.largeChunks, _
      rw [hwrote.chunks_eq]
      exact h.large c (mem_of_mem_erase hc) hlarge
  · rw [hplaced.ptr_eq, (L.cellPtr_split hpage.aligned hindex).1,
      L.indexOf_cellPtr hpage.aligned hindex]
    exact ⟨hwrote.perm.mem_iff.mpr hplaced.mem, hplaced.fit,
      fun p hlow hhigh => hwrote.filled.inside hlow hhigh, hcount⟩

theorem freeLarge_step (h : s.Inv L) (hb : b ∈ s.live) (hlarge : L.largeChunkMinimum < b.size) :
    ∃ s', call L s (.free b.ptr b.size) = .ok s' ∧ s'.Inv L := by
  have hsize := h.size_pos b hb
  obtain ⟨c, hc, hptr, hchunk⟩ := h.large b hb hlarge
  obtain ⟨hpairs, hothers⟩ := h.others hb
  set rest : Pool := { s.pool with largeChunks := s.pool.largeChunks.erase c } with hrest
  have hfree : free L s.pool b.ptr b.size = .ok rest := by
    have haligned : b.ptr % L.pageSize = 0 := by
      rw [← hptr]
      exact Nat.mod_eq_zero_of_dvd (h.pool.chunks.aligned c hc)
    unfold free
    rw [if_neg (not_or.mpr ⟨h.ptr_ne b hb, Nat.ne_of_gt hsize⟩), if_pos haligned, ← hptr]
    exact freeLargeChunk_spec h.pool hc hchunk
  refine ⟨{ pool := rest, live := s.live.erase b }, by simp only [call, hfree],
    erase_chunk_inv h.pool c, fun d hd => h.ptr_ne d (mem_of_mem_erase hd),
    fun d hd => h.size_pos d (mem_of_mem_erase hd), fun d hd hsmall => ?_,
    fun d hd hlarge' => ?_, hpairs⟩
  · obtain ⟨base, index, hplaced⟩ := h.small d (mem_of_mem_erase hd) hsmall
    exact ⟨base, index, hplaced.mem, hplaced.ptr_eq, hplaced.own, hplaced.fit, hplaced.set⟩
  obtain ⟨e, he, heptr, hesize⟩ := h.large d (mem_of_mem_erase hd) hlarge'
  have hne : e ≠ c := by
    rintro rfl
    have hapart := hothers d hd
    unfold Block.Apart Apart at hapart
    have hpos := extent_pos (L := L) hsize
    have hpos' := extent_pos (L := L) (h.size_pos d (mem_of_mem_erase hd))
    omega
  exact ⟨e, (mem_erase_of_ne hne).mpr he, heptr, hesize⟩

/-! ### Runs -/

theorem call_step (h : s.Inv L) {c : Call} (hc : Contract L s c) :
    ∃ s', call L s c = .ok s' ∧ s'.Inv L := by
  cases c with
  | alloc size memory => exact alloc_step h hc
  | free ptr size =>
    by_cases hlarge : L.largeChunkMinimum < size
    · exact freeLarge_step (b := ⟨ptr, size⟩) h hc hlarge
    · obtain ⟨s', heq, hinv, -⟩ := freeSmall_spec (b := ⟨ptr, size⟩) h hc hlarge
      exact ⟨s', heq, hinv⟩

abbrev Calls (L : Layout) : State → List Call → State → Prop :=
  Run (fun s c s' => call L s c = .ok s') (Contract L)

theorem Calls.inv {calls : List Call} (h : Calls L s calls s') (hs : s.Inv L) : s'.Inv L := by
  refine h.invariant hs ?_
  intro a c a' ha hcall hcontract
  obtain ⟨a'', heq, hinv⟩ := call_step ha hcontract
  rw [heq] at hcall
  rwa [← Except.ok.inj hcall]

def initialBitmap (L : Layout) : List (BitVec 8) :=
  padBitmap L.pageBitmapSize (8 * L.pageBitmapSize) L.numPageCells
    (List.replicate L.pageBitmapSize 0)

theorem initialBitmap_spec (L : Layout) : (initialBitmap L).length = L.pageBitmapSize ∧
    ∀ p, p < 8 * L.pageBitmapSize → bit (initialBitmap L) p = decide (L.numPageCells ≤ p) := by
  have hbits := L.numPageCells_le_bits
  have hpad := padBitmap_filled (8 * L.pageBitmapSize) L.numPageCells
    (List.replicate L.pageBitmapSize 0) length_replicate hbits (by omega)
  refine ⟨hpad.length_eq.trans length_replicate, fun p hp => ?_⟩
  unfold initialBitmap
  rw [hpad.bit_eq]
  by_cases hcell : L.numPageCells ≤ p
  · rw [if_pos (by omega), decide_eq_true hcell]
  · rw [if_neg (by omega), bit_replicate_zero, decide_eq_false hcell]

/-- The page that the `POOL` structure is in. -/
def homePage (L : Layout) (tag : BitVec 32) : Page where
  eyecatcher := tag
  numFree := BitVec.ofNat 16 L.numPageCells
  bitmap := markPool L.poolCells 0 (initialBitmap L)

theorem homePage_numFree (L : Layout) (tag : BitVec 32) :
    (homePage L tag).numFree.toNat = L.numPageCells := by
  have hlt := L.numPageCells_lt
  unfold homePage
  rw [BitVec.toNat_ofNat, Nat.mod_eq_of_lt hlt]

theorem homePage_filled (L : Layout) (tag : BitVec 32) :
    Filled true 0 L.poolCells (initialBitmap L) (homePage L tag).bitmap := by
  have hbits := L.numPageCells_le_bits
  have hpool := L.pool_fits
  have hlength := (initialBitmap_spec L).1
  exact markPool_filled L.poolCells 0 (initialBitmap L) (by omega)

theorem homePage_numClear (L : Layout) (tag : BitVec 32) :
    numClear L.numPageCells (homePage L tag).bitmap + L.poolCells = L.numPageCells := by
  have hbits := L.numPageCells_le_bits
  have hpool := L.pool_fits
  have hfit : 0 + L.poolCells ≤ L.numPageCells := by omega
  have hclear : ∀ p, p < L.numPageCells → bit (initialBitmap L) p = false := by
    intro p hp
    rw [(initialBitmap_spec L).2 p (by omega)]
    exact decide_eq_false (Nat.not_le_of_lt hp)
  calc numClear L.numPageCells (homePage L tag).bitmap + L.poolCells
      = numClear L.numPageCells (initialBitmap L) :=
        (homePage_filled L tag).numClear_sub hfit fun p _ hp => hclear p (by omega)
    _ = L.numPageCells := numClear_of_clear hclear

theorem createTagged_inv {tag : BitVec 32} {memory : Option Nat} {lock : Bool}
    (hmemory : ∀ ptr, memory = some ptr → L.pageSize ∣ ptr)
    (h : createTagged L tag memory lock = some pool) :
    ({ pool := pool, live := [] } : State).Inv L := by
  rcases memory with _ | base
  · exact nomatch h
  cases lock with
  | false => exact nomatch h
  | true =>
    obtain ⟨hlength, hbit⟩ := initialBitmap_spec L
    have hfilled := homePage_filled L tag
    have hpool := L.pool_fits
    have hhome : (homePage L tag).Inv L pool base := by
      cases h
      refine ⟨hmemory base rfl, rfl, hfilled.length_eq.trans hlength,
        fun p hlow hhigh => ?_, fun p hp => ?_, ?_⟩
      · rw [hfilled.outside (by omega), hbit p hhigh]
        exact decide_eq_true hlow
      · rw [ownCells, if_pos rfl] at hp
        exact hfilled.inside (Nat.zero_le p) (by omega)
      · rw [homePage_numFree, ownCells, if_pos rfl, homePage_numClear]
    cases h
    refine ⟨?_, fun b hb => absurd hb not_mem_nil, fun b hb => absurd hb not_mem_nil,
      fun b hb => absurd hb not_mem_nil, fun b hb => absurd hb not_mem_nil,
      List.Pairwise.nil⟩
    refine ⟨nodup_singleton base, mem_singleton_self base, fun b hb => ?_, ?_, ?_,
      hlength, hbit⟩
    · obtain rfl := mem_singleton.mp hb
      exact hhome
    · refine ⟨fun b _ => ?_, fun b hb => absurd hb not_mem_nil⟩
      show fullPageThreshold ≤ (homePage L tag).numFree.toNat
      rw [homePage_numFree]
      exact L.threshold_le
    · exact ⟨fun c hc => absurd hc not_mem_nil, fun c hc => absurd hc not_mem_nil,
        fun c hc => absurd hc not_mem_nil, List.Pairwise.nil,
        fun c hc => absurd hc not_mem_nil⟩

/-! ### What the callers see -/

/-- What holds of the blocks and the pages between two calls. -/
structure Sound (L : Layout) (s : State) : Prop where
  apart : s.live.Pairwise (Block.Apart L)
  /-- A small block is in the cell area of its page, behind the `POOL` structure. -/
  inside : ∀ b ∈ s.live, ¬ L.largeChunkMinimum < b.size → ∃ base ∈ s.pool.all,
    base + L.cellsOffset + ownCells L s.pool.home base * L.cellSize ≤ b.ptr ∧
      b.ptr + extent L b.size ≤ base + L.cellsOffset + L.numPageCells * L.cellSize
  numFree_le : ∀ base ∈ s.pool.all, (s.pool.page base).numFree.toNat ≤
    numClear L.numPageCells (s.pool.page base).bitmap + ownCells L s.pool.home base
  cells_le : ∀ base ∈ s.pool.all, numClear L.numPageCells (s.pool.page base).bitmap +
    ownCells L s.pool.home base ≤ L.numPageCells
  full_iff : ∀ base ∈ s.pool.all,
    base ∈ s.pool.fullPages ↔ (s.pool.page base).numFree.toNat < fullPageThreshold

theorem State.Inv.sound (h : s.Inv L) : Sound L s where
  apart := h.apart
  inside := by
    intro b hb hsmall
    obtain ⟨base, index, hplaced⟩ := h.small b hb hsmall
    have hown := Nat.mul_le_mul_right L.cellSize hplaced.own
    have hfit := Nat.mul_le_mul_right L.cellSize hplaced.fit
    rw [Nat.add_mul] at hfit
    rw [extent_small hsmall, hplaced.ptr_eq, Layout.cellPtr]
    exact ⟨base, hplaced.mem, by omega, by omega⟩
  numFree_le := fun base hbase => (h.pool.page base hbase).numFree_le
  cells_le := fun base hbase => (h.pool.page base hbase).cells_le
  full_iff := by
    intro base hbase
    refine ⟨h.pool.sorted.fullPages base, fun hlt => ?_⟩
    rcases mem_append.mp hbase with hpages | hfull
    · exact absurd (h.pool.sorted.pages base hpages) (Nat.not_le_of_lt hlt)
    · exact hfull

/-- The cells of a block that was given back are free, and a request of its size gets
memory of the pool again once its page is searched. -/
def Again (L : Layout) (s : State) (b : Block) (s' : State) : Prop :=
  (∀ p, indexOf L b.ptr ≤ p → p < indexOf L b.ptr + L.numCells b.size →
    bit (s'.pool.page (pageOf L b.ptr)).bitmap p = false) ∧
  (s'.pool.page (pageOf L b.ptr)).numFree.toNat
    = (s.pool.page (pageOf L b.ptr)).numFree.toNat + L.numCells b.size ∧
  (fullPageThreshold ≤ (s'.pool.page (pageOf L b.ptr)).numFree.toNat →
    ∃ s'' ptr, call L s' (.alloc b.size none) = .ok s'' ∧
      s''.live = ⟨ptr, b.size⟩ :: s'.live)

theorem State.Inv.again (h : s.Inv L) (hb : b ∈ s.live)
    (hsmall : ¬ L.largeChunkMinimum < b.size) :
    ∃ s', call L s (.free b.ptr b.size) = .ok s' ∧ Again L s b s' := by
  obtain ⟨s', heq, hinv, hback⟩ := freeSmall_spec h hb hsmall
  refine ⟨s', heq, hback.clear, hback.numFree_eq, fun hthreshold => ?_⟩
  have hsize := h.size_pos b hb
  have hmax : ¬ L.largeChunkMaximum ≤ b.size := by
    have hlt := L.maximum_pos
    omega
  obtain ⟨pool', r, hget, -, -, hnull⟩ :=
    @allocSmall_spec L s' b.size hinv hsize hsmall none fun _ hmemory => nomatch hmemory
  -- the page is on the list that is searched, and its `num_free` is large enough
  have hpages : pageOf L b.ptr ∈ s'.pool.pages := by
    rcases mem_append.mp hback.mem with hpages | hfull
    · exact hpages
    · exact absurd (hinv.pool.sorted.fullPages _ hfull) (Nat.not_lt_of_le hthreshold)
  have hcount := hback.numFree_eq
  cases r with
  | none =>
    exact absurd ⟨hback.fit, hback.clear⟩
      ((hnull rfl).2 _ hpages (by omega) (indexOf L b.ptr))
  | some ptr =>
    refine ⟨{ pool := pool', live := ⟨ptr, b.size⟩ :: s'.live }, ptr, ?_, rfl⟩
    unfold call alloc
    simp only [if_neg hmax, if_neg (Nat.ne_of_gt hsize), if_neg hsmall, hget]

/-- **The blocks of a pool, over every order of calls.** -/
theorem pool_sound {tag : BitVec 32} {memory : Option Nat} {lock : Bool}
    (hmemory : ∀ ptr, memory = some ptr → L.pageSize ∣ ptr)
    (hpool : createTagged L tag memory lock = some pool) {calls : List Call}
    (hrun : Calls L { pool := pool, live := [] } calls s) :
    Sound L s ∧ (∀ c, Contract L s c → ∃ s', call L s c = .ok s') ∧
      ∀ b ∈ s.live, ¬ L.largeChunkMinimum < b.size →
        ∃ s', call L s (.free b.ptr b.size) = .ok s' ∧ Again L s b s' := by
  have hinv := hrun.inv (createTagged_inv hmemory hpool)
  refine ⟨hinv.sound, fun c hc => ?_, fun b hb hsmall => hinv.again hb hsmall⟩
  obtain ⟨s', heq, -⟩ := call_step hinv hc
  exact ⟨s', heq⟩

theorem pool_sound_one : ∃ pool s,
    createTagged kernel64 0#32 (some 65536) true = some pool ∧
      call kernel64 { pool := pool, live := [] } (.alloc 100 none) = .ok s ∧
      Sound kernel64 s := by
  have hmemory : ∀ ptr, some 65536 = some ptr → kernel64.pageSize ∣ ptr := by
    intro ptr hptr
    rw [← Option.some.inj hptr]
    decide
  have hcontract : ∀ s, Contract kernel64 s (.alloc 100 none) := fun _ _ hptr => nomatch hptr
  obtain ⟨pool, hpool⟩ : ∃ pool, createTagged kernel64 0#32 (some 65536) true = some pool :=
    ⟨_, rfl⟩
  obtain ⟨s, hs⟩ := (pool_sound hmemory hpool (Run.nil _)).2.1 _ (hcontract _)
  exact ⟨pool, s, hpool, hs,
    (pool_sound hmemory hpool (Run.cons hs (hcontract _) (Run.nil _))).1⟩

def liveAfter (calls : List Call) : Option (List Block) :=
  match createTagged kernel64 0#32 (some 65536) true with
  | none => none
  | some pool => (calls.foldlM (call kernel64) { pool := pool, live := [] }).toOption.map State.live

/-- On the first page `num_free` counts the cells of the `POOL` structure, and a block of
one cell on a full page is not found again: 192, 50 and 1 cells fill the page, a fourth
request fails, and after the third block was given back the same request fails again. -/
theorem estimate_off :
    (∃ pool, createTagged kernel64 0#32 (some 65536) true = some pool ∧
      (pool.page 65536).numFree.toNat = 251 ∧
      numClear kernel64.numPageCells (pool.page 65536).bitmap = 243) ∧
    liveAfter [.alloc 3072 none, .alloc 800 none, .alloc 16 none, .alloc 16 none]
      = some [⟨69616, 16⟩, ⟨68816, 800⟩, ⟨65744, 3072⟩] ∧
    liveAfter [.alloc 3072 none, .alloc 800 none, .alloc 16 none, .alloc 16 none,
      .free 69616 16, .alloc 16 none] = some [⟨68816, 800⟩, ⟨65744, 3072⟩] := by
  refine ⟨⟨_, rfl, ?_, ?_⟩, ?_, ?_⟩
  · decide +kernel
  · decide +kernel
  · decide +kernel
  · decide +kernel

end Sandboxie.PoolAlloc
