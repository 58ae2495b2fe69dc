import Sandboxie.Common.Pool

/-!
# The cells of a pool page

What the loops over a page's bitmap find and write.  A cursor is always the cursor of a
cell, so each loop is about the numbers of cells: whole bytes go eight cells on.
-/

namespace Sandboxie.PoolAlloc

open Bitmap

variable {bm : List (BitVec 8)} {cells size : Nat}

/-! ### Cursors -/

theorem shift_next : ∀ k : Nat, k < 8 →
    ((1#32 <<< k <<< 1 : BitVec 32) &&& 0xFF#32) ||| (1#32 <<< k <<< 1 >>> 8 : BitVec 32)
      = (if k = 7 then 1#32 else 1#32 <<< (k + 1) : BitVec 32) := by
  decide

theorem shift_low : ∀ k : Nat, k < 8 → 0 < k → (1#32 <<< k : BitVec 32) &&& 1#32 = 0#32 := by
  decide

theorem shift_eq_one : ∀ k : Nat, k < 8 → (1#32 <<< k = 1#32 ↔ k = 0) := by
  decide

theorem next_cursorAt (i : Nat) : (cursorAt i).next = cursorAt (i + 1) := by
  have hlt : i % 8 < 8 := Nat.mod_lt i (by decide)
  have hmask := shift_next (i % 8) hlt
  unfold Cursor.next cursorAt
  simp only [hmask]
  by_cases hend : i % 8 = 7
  · have hofs : (i + 1) / 8 = i / 8 + 1 := by omega
    have hmod : (i + 1) % 8 = 0 := by omega
    rw [if_pos hend, hofs, hmod]
    rfl
  · have hofs : (i + 1) / 8 = i / 8 := by omega
    have hmod : (i + 1) % 8 = i % 8 + 1 := by omega
    rw [if_neg hend, shift_low (i % 8 + 1) (by omega) (by omega), hofs, hmod]
    rfl

theorem mask_cursorAt (i : Nat) : (cursorAt i).mask = 1 ↔ i % 8 = 0 :=
  shift_eq_one (i % 8) (Nat.mod_lt i (by decide))

theorem cursorAt_add {i : Nat} (h : i % 8 = 0) :
    (⟨(cursorAt i).ofs + 1, (cursorAt i).mask⟩ : Cursor) = cursorAt (i + 8) := by
  have hofs : (i + 8) / 8 = i / 8 + 1 := by omega
  unfold cursorAt
  rw [hofs, Nat.add_mod_right]

theorem bitAt_cursorAt (bm : List (BitVec 8)) (i : Nat) :
    bitAt bm (cursorAt i) = 0 ↔ bit bm i = false :=
  test_mask (byteAt bm (cursorAt i)) (Nat.mod_lt i (by decide))

theorem bitAt_ne_zero {i : Nat} : bitAt bm (cursorAt i) ≠ 0 ↔ bit bm i = true := by
  rw [Ne, bitAt_cursorAt, Bool.not_eq_false]

/-! ### Writing -/

theorem setBit_filled {p : Nat} (hp : p < 8 * bm.length) :
    Filled true p 1 bm (setBit bm (cursorAt p)) :=
  filled_bit (by omega) fun _ hj => getLsbD_or_mask _ (Nat.mod_lt p (by decide)) hj

theorem clearBit_filled {p : Nat} (hp : p < 8 * bm.length) :
    Filled false p 1 bm (clearBit bm (cursorAt p)) :=
  filled_bit (by omega) fun _ hj => getLsbD_andNot_mask _ (Nat.mod_lt p (by decide)) hj

theorem set_filled {v : Bool} {b : BitVec 8} (hb : ∀ j, j < 8 → b.getLsbD j = v) {p : Nat}
    (hmod : p % 8 = 0) (hp : p < 8 * bm.length) :
    Filled v p 8 bm (bm.set (cursorAt p).ofs b) := by
  have hofs : 8 * (p / 8) = p := by omega
  have hlt : p / 8 < bm.length := by omega
  have hbyte := filled_byte hlt hb
  rw [hofs] at hbyte
  exact hbyte

theorem writeCells_filled {v : Bool} {full : BitVec 8}
    {one : List (BitVec 8) → Cursor → List (BitVec 8)}
    (hfull : ∀ j, j < 8 → full.getLsbD j = v)
    (hone : ∀ (bm : List (BitVec 8)) (p : Nat), p < 8 * bm.length →
      Filled v p 1 bm (one bm (cursorAt p))) :
    ∀ (fuel size p : Nat) (bm : List (BitVec 8)), size ≤ fuel → p + size ≤ 8 * bm.length →
      Filled v p size bm (writeCells full one fuel size (cursorAt p) bm) := by
  intro fuel
  induction fuel with
  | zero =>
    intro size p bm hsize _
    obtain rfl : size = 0 := by omega
    exact Filled.none v p bm
  | succ fuel ih =>
    intro size p bm hsize hfit
    rw [writeCells]
    by_cases hzero : size = 0
    · rw [if_pos hzero, hzero]
      exact Filled.none v p bm
    rw [if_neg hzero]
    by_cases hbyte : (cursorAt p).mask = 1 ∧ 8 < size
    · have hmod := (mask_cursorAt p).mp hbyte.1
      have hfirst := set_filled hfull hmod (show p < 8 * bm.length by omega)
      have hrest := ih (size - 8) (p + 8) (bm.set (cursorAt p).ofs full) (by omega)
        (by rw [hfirst.length_eq]; omega)
      rw [if_pos hbyte, cursorAt_add hmod]
      have hall := hfirst.trans hrest
      rwa [show 8 + (size - 8) = size by omega] at hall
    · have hfirst := hone bm p (by omega)
      have hrest := ih (size - 1) (p + 1) (one bm (cursorAt p)) (by omega)
        (by rw [hfirst.length_eq]; omega)
      rw [if_neg hbyte, next_cursorAt]
      have hall := hfirst.trans hrest
      rwa [show 1 + (size - 1) = size by omega] at hall

theorem markUsed_filled {p : Nat} (hfit : p + size ≤ 8 * bm.length) :
    Filled true p size bm (markUsed size (cursorAt p) bm) :=
  writeCells_filled (by decide) (fun _ _ hp => setBit_filled hp) size size p bm le_rfl hfit

theorem markFree_filled {p : Nat} (hfit : p + size ≤ 8 * bm.length) :
    Filled false p size bm (markFree size (cursorAt p) bm) :=
  writeCells_filled (by decide) (fun _ _ hp => clearBit_filled hp) size size p bm le_rfl hfit

theorem markPool_filled : ∀ (count i : Nat) (bm : List (BitVec 8)),
    i + count ≤ 8 * bm.length → Filled true i count bm (markPool count i bm) := by
  intro count
  induction count with
  | zero => exact fun i bm _ => Filled.none true i bm
  | succ count ih =>
    intro i bm hfit
    have hi : i < 8 * bm.length := by omega
    have hfirst := setBit_filled hi
    have hrest := ih (i + 1) (setBit bm (cursorAt i)) (by rw [hfirst.length_eq]; omega)
    have hall := hfirst.trans hrest
    rwa [Nat.add_comm 1 count] at hall

theorem padBitmap_filled {bytes : Nat} : ∀ (fuel i : Nat) (bm : List (BitVec 8)),
    bm.length = bytes → i ≤ 8 * bytes → 8 * bytes ≤ i + fuel →
      Filled true i (8 * bytes - i) bm (padBitmap bytes fuel i bm) := by
  intro fuel
  induction fuel with
  | zero =>
    intro i bm _ hi hfuel
    rw [show 8 * bytes - i = 0 by omega]
    exact Filled.none true i bm
  | succ fuel ih =>
    intro i bm hlen hi hfuel
    rw [padBitmap]
    by_cases hend : bytes ≤ i / 8
    · rw [if_pos hend, show 8 * bytes - i = 0 by omega]
      exact Filled.none true i bm
    rw [if_neg hend]
    by_cases hbyte : 1#32 <<< (i % 8) = 1
    · have hmod := (mask_cursorAt i).mp hbyte
      have hfirst : Filled true i 8 bm (bm.set (i / 8) 0xFF) :=
        set_filled (by decide) hmod (by omega)
      have hrest := ih (i + 8) (bm.set (i / 8) 0xFF) (hfirst.length_eq.trans hlen)
        (by omega) (by omega)
      rw [if_pos hbyte]
      have hall := hfirst.trans hrest
      rwa [show 8 + (8 * bytes - (i + 8)) = 8 * bytes - i by omega] at hall
    · have hlt : i < 8 * bm.length := by omega
      have hfirst := setBit_filled hlt
      have hrest := ih (i + 1) (setBit bm (cursorAt i)) (hfirst.length_eq.trans hlen)
        (by omega) (by omega)
      rw [if_neg hbyte]
      have hall := hfirst.trans hrest
      rwa [show 1 + (8 * bytes - (i + 1)) = 8 * bytes - i by omega] at hall

/-! ### Searching -/

/-- The bits behind the last cell are set, up to the end of the bitmap. -/
structure Padded (cells : Nat) (bm : List (BitVec 8)) : Prop where
  covers : cells ≤ 8 * bm.length
  set : ∀ p, cells ≤ p → p < 8 * bm.length → bit bm p = true

theorem skipUsed_spec (cells : Nat) (bm : List (BitVec 8)) : ∀ (fuel j : Nat), ∃ j',
    skipUsed cells bm fuel j (cursorAt j) = (j', cursorAt j') ∧ j ≤ j' ∧
      ∀ p, j ≤ p → p < j' → bit bm p = true := by
  intro fuel
  induction fuel with
  | zero => exact fun j => ⟨j, rfl, le_rfl, fun p hlow hhigh => by omega⟩
  | succ fuel ih =>
    intro j
    rw [skipUsed]
    by_cases hj : j < cells
    · rw [if_pos hj]
      by_cases hbyte : (cursorAt j).mask = 1 ∧ byteAt bm (cursorAt j) = 0xFF
      · have hmod := (mask_cursorAt j).mp hbyte.1
        obtain ⟨j', heq, hle, hset⟩ := ih (j + 8)
        rw [if_pos hbyte, cursorAt_add hmod]
        refine ⟨j', heq, by omega, fun p hlow hhigh => ?_⟩
        by_cases hp : p < j + 8
        · exact bit_of_full hbyte.2 (show p / 8 = j / 8 by omega)
        · exact hset p (by omega) hhigh
      · rw [if_neg hbyte]
        by_cases hbit : bitAt bm (cursorAt j) = 0
        · rw [if_pos hbit]
          exact ⟨j, rfl, le_rfl, fun p hlow hhigh => by omega⟩
        · obtain ⟨j', heq, hle, hset⟩ := ih (j + 1)
          rw [if_neg hbit, next_cursorAt]
          refine ⟨j', heq, by omega, fun p hlow hhigh => ?_⟩
          by_cases hp : p = j
          · rw [hp]
            exact bitAt_ne_zero.mp hbit
          · exact hset p (by omega) hhigh
    · rw [if_neg hj]
      exact ⟨j, rfl, le_rfl, fun p hlow hhigh => by omega⟩

theorem skipFree_spec (hpad : Padded cells bm) (size i : Nat) : ∀ (fuel j : Nat),
    j ≤ cells → cells ≤ j + fuel → ∃ j',
      skipFree cells bm size i fuel j (cursorAt j) = (j', cursorAt j') ∧
      j ≤ j' ∧ j' ≤ cells ∧ (∀ p, j ≤ p → p < j' → bit bm p = false) ∧
      (j' = cells ∨ size ≤ j' - i ∨ bit bm j' = true) := by
  intro fuel
  induction fuel with
  | zero =>
    intro j hj hfuel
    exact ⟨j, rfl, le_rfl, hj, fun p hlow hhigh => by omega, Or.inl (by omega)⟩
  | succ fuel ih =>
    intro j hj hfuel
    rw [skipFree]
    by_cases hgo : j < cells ∧ j - i < size
    · rw [if_pos hgo]
      by_cases hbyte : (cursorAt j).mask = 1 ∧ byteAt bm (cursorAt j) = 0
      · have hmod := (mask_cursorAt j).mp hbyte.1
        have hclear : ∀ p, j ≤ p → p < j + 8 → bit bm p = false := fun p _ _ =>
          bit_of_zero hbyte.2 (show p / 8 = j / 8 by omega)
        -- a byte with padding is not zero, so all of this byte's bits have cells
        have hcovers := hpad.covers
        have hend : j + 8 ≤ cells := by
          by_contra hover
          have hlast := hpad.set (j + 7) (by omega) (by omega)
          rw [hclear (j + 7) (by omega) (by omega)] at hlast
          exact Bool.noConfusion hlast
        obtain ⟨j', heq, hle, hcells, hfree, hstop⟩ := ih (j + 8) hend (by omega)
        rw [if_pos hbyte, cursorAt_add hmod]
        refine ⟨j', heq, by omega, hcells, fun p hlow hhigh => ?_, hstop⟩
        by_cases hp : p < j + 8
        · exact hclear p hlow hp
        · exact hfree p (by omega) hhigh
      · rw [if_neg hbyte]
        by_cases hbit : bitAt bm (cursorAt j) ≠ 0
        · rw [if_pos hbit]
          refine ⟨j, rfl, le_rfl, hj, fun p hlow hhigh => by omega, Or.inr (Or.inr ?_)⟩
          exact bitAt_ne_zero.mp hbit
        · obtain ⟨j', heq, hle, hcells, hfree, hstop⟩ := ih (j + 1) (by omega) (by omega)
          rw [if_neg hbit, next_cursorAt]
          refine ⟨j', heq, by omega, hcells, fun p hlow hhigh => ?_, hstop⟩
          by_cases hp : p = j
          · rw [hp]
            exact (bitAt_cursorAt bm j).mp (not_not.mp hbit)
          · exact hfree p (by omega) hhigh
    · rw [if_neg hgo]
      exact ⟨j, rfl, le_rfl, hj, fun p hlow hhigh => by omega, by omega⟩

def FreeRun (cells : Nat) (bm : List (BitVec 8)) (size i : Nat) : Prop :=
  i + size ≤ cells ∧ ∀ p, i ≤ p → p < i + size → bit bm p = false

theorem findFrom_some (hpad : Padded cells bm) {r : Nat} : ∀ (fuel i : Nat),
    findFrom cells bm size fuel i (cursorAt i) = some r → FreeRun cells bm size r := by
  intro fuel
  induction fuel with
  | zero => exact fun i h => nomatch h
  | succ fuel ih =>
    intro i h
    rw [findFrom] at h
    by_cases hi : i < cells
    · rw [if_pos hi, next_cursorAt] at h
      by_cases hbit : bitAt bm (cursorAt i) ≠ 0
      · obtain ⟨j, heq, -, -⟩ := skipUsed_spec cells bm cells (i + 1)
        rw [if_pos hbit, heq] at h
        exact ih j h
      obtain ⟨j, heq, hle, hcells, hfree, -⟩ :=
        skipFree_spec hpad size i cells (i + 1) (by omega) (by omega)
      rw [if_neg hbit, heq] at h
      by_cases hsize : size ≤ j - i
      · simp only [if_pos hsize, Option.some.injEq] at h
        refine ⟨by omega, fun p hlow hhigh => ?_⟩
        by_cases hp : p = i
        · rw [hp]
          exact (bitAt_cursorAt bm i).mp (not_not.mp hbit)
        · exact hfree p (by omega) (by omega)
      · simp only [if_neg hsize] at h
        exact ih j h
    · rw [if_neg hi] at h
      exact nomatch h

theorem findFrom_none (hpad : Padded cells bm) (hsize : 0 < size) : ∀ (fuel i : Nat),
    cells ≤ i + fuel → findFrom cells bm size fuel i (cursorAt i) = none →
      ∀ r, i ≤ r → ¬ FreeRun cells bm size r := by
  intro fuel
  induction fuel with
  | zero =>
    rintro i hfuel - r hr ⟨hfit, -⟩
    omega
  | succ fuel ih =>
    rintro i hfuel h r hr ⟨hfit, hrun⟩
    have hi : i < cells := by omega
    rw [findFrom, if_pos hi, next_cursorAt] at h
    by_cases hbit : bitAt bm (cursorAt i) ≠ 0
    · obtain ⟨j, heq, hle, hset⟩ := skipUsed_spec cells bm cells (i + 1)
      rw [if_pos hbit, heq] at h
      -- the run does not begin at a cell in use
      have hstart : j ≤ r := by
        by_contra hlt
        have hused : bit bm r = true := by
          by_cases hri : r = i
          · rw [hri]
            exact bitAt_ne_zero.mp hbit
          · exact hset r (by omega) (by omega)
        rw [hrun r le_rfl (by omega)] at hused
        exact Bool.noConfusion hused
      exact ih j (by omega) h r hstart ⟨hfit, hrun⟩
    · obtain ⟨j, heq, hle, hcells, hfree, hstop⟩ :=
        skipFree_spec hpad size i cells (i + 1) (by omega) (by omega)
      rw [if_neg hbit, heq] at h
      by_cases hlong : size ≤ j - i
      · simp only [if_pos hlong] at h
        exact nomatch h
      simp only [if_neg hlong] at h
      -- a run that begins in front of `j` would go over it
      have hstart : j ≤ r := by
        by_contra hlt
        rcases hstop with hend | hstop | hused
        · omega
        · exact hlong hstop
        · rw [hrun j (by omega) (by omega)] at hused
          exact Bool.noConfusion hused
      exact ih j (by omega) h r hstart ⟨hfit, hrun⟩

variable {L : Layout} {page : Page} {r : Nat}

theorem findCells_some (hpad : Padded L.numPageCells page.bitmap)
    (h : findCells L page size = some r) : FreeRun L.numPageCells page.bitmap size r :=
  findFrom_some hpad L.numPageCells 0 h

theorem findCells_none (hpad : Padded L.numPageCells page.bitmap) (hsize : 0 < size)
    (h : findCells L page size = none) (r : Nat) :
    ¬ FreeRun L.numPageCells page.bitmap size r :=
  findFrom_none hpad hsize L.numPageCells 0 (by omega) h r (Nat.zero_le r)

end Sandboxie.PoolAlloc
