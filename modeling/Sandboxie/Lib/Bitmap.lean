import Mathlib.Algebra.Order.Ring.Int
import Mathlib.Data.Finset.Card
import Mathlib.Order.Interval.Finset.Nat

/-!
# Bitmaps

A list of bytes as a row of bits, the lowest bit of a byte first.  A bit is reached by its
byte and a mask with one bit.  `Filled` is what writing a run of bits does, and
`numClear` counts the clear bits of a row.
-/

namespace Bitmap

open List

def bit (bm : List (BitVec 8)) (p : Nat) : Bool :=
  (bm.getD (p / 8) 0).getLsbD (p % 8)

/-! ### Bytes -/

theorem bit_set (bm : List (BitVec 8)) {o : Nat} (ho : o < bm.length) (v : BitVec 8) (p : Nat) :
    bit (bm.set o v) p = if p / 8 = o then v.getLsbD (p % 8) else bit bm p := by
  unfold bit
  by_cases hp : p / 8 = o
  · rw [if_pos hp, hp, getD_eq_getElem?_getD, getElem?_set_self ho]
    rfl
  · rw [if_neg hp, getD_eq_getElem?_getD, getElem?_set_ne (Ne.symm hp),
      ← getD_eq_getElem?_getD]

theorem bit_of_zero {bm : List (BitVec 8)} {o p : Nat} (h : bm.getD o 0 = 0) (hp : p / 8 = o) :
    bit bm p = false := by
  unfold bit
  rw [hp, h]
  exact BitVec.getLsbD_zero

theorem bit_of_full {bm : List (BitVec 8)} {o p : Nat} (h : bm.getD o 0 = 0xFF)
    (hp : p / 8 = o) : bit bm p = true := by
  have hlt : p % 8 < 8 := Nat.mod_lt _ (by decide)
  unfold bit
  rw [hp, h]
  show (BitVec.allOnes 8).getLsbD (p % 8) = true
  rw [BitVec.getLsbD_allOnes]
  exact decide_eq_true hlt

/-! ### Masks with one bit -/

variable {k j : Nat}

theorem test_mask (b : BitVec 8) (hk : k < 8) :
    b.setWidth 32 &&& 1#32 <<< k = 0#32 ↔ b.getLsbD k = false := by
  rw [BitVec.eq_of_getLsbD_eq_iff]
  refine ⟨fun h => ?_, fun h i hi => ?_⟩
  · have hbit := h k (by omega)
    simpa [hk, show k < 32 by omega] using hbit
  · by_cases hik : i = k
    · subst hik
      simp [h]
    · have hne : ¬ i < k → i - k ≠ 0 := by omega
      by_cases hlt : i < k
      · simp [hlt]
      · simp [hlt, BitVec.getLsbD_one, hne hlt]

theorem getLsbD_or_mask (b : BitVec 8) (hk : k < 8) (hj : j < 8) :
    ((b.setWidth 32 ||| 1#32 <<< k).setWidth 8).getLsbD j
      = if j = k then true else b.getLsbD j := by
  by_cases hjk : j = k
  · subst hjk
    simp [hj]
  · have hne : ¬ j < k → j - k ≠ 0 := by omega
    by_cases hlt : j < k
    · simp [hlt, hj, hjk]
    · simp [hlt, hj, hjk, hne hlt]

theorem getLsbD_andNot_mask (b : BitVec 8) (hk : k < 8) (hj : j < 8) :
    ((b.setWidth 32 &&& ~~~(1#32 <<< k)).setWidth 8).getLsbD j
      = if j = k then false else b.getLsbD j := by
  by_cases hjk : j = k
  · subst hjk
    simp [hj]
  · have hne : ¬ j < k → j - k ≠ 0 := by omega
    by_cases hlt : j < k
    · simp [hlt, hj, hjk]
    · simp [hlt, hj, hjk, hne hlt]

/-! ### Writing a run of bits -/

/-- The bits from `i` on, `n` of them, are `v`, and all others are as before. -/
structure Filled (v : Bool) (i n : Nat) (bm bm' : List (BitVec 8)) : Prop where
  length_eq : bm'.length = bm.length
  bit_eq : ∀ p, bit bm' p = if i ≤ p ∧ p < i + n then v else bit bm p

variable {v : Bool} {i n m : Nat} {bm bm' bm'' : List (BitVec 8)}

theorem bit_replicate_zero (len p : Nat) : bit (List.replicate len 0) p = false := by
  refine bit_of_zero ?_ rfl
  rw [getD_eq_getElem?_getD, getElem?_replicate]
  split <;> rfl

theorem Filled.none (v : Bool) (i : Nat) (bm : List (BitVec 8)) : Filled v i 0 bm bm := by
  refine ⟨rfl, fun p => ?_⟩
  rw [if_neg (by omega)]

theorem Filled.trans (h : Filled v i n bm bm') (h' : Filled v (i + n) m bm' bm'') :
    Filled v i (n + m) bm bm'' := by
  refine ⟨h'.length_eq.trans h.length_eq, fun p => ?_⟩
  rw [h'.bit_eq, h.bit_eq]
  by_cases hlow : i ≤ p ∧ p < i + n
  · rw [if_neg (by omega), if_pos hlow, if_pos (by omega)]
  · by_cases hhigh : i + n ≤ p ∧ p < i + n + m
    · rw [if_pos hhigh, if_pos (by omega)]
    · rw [if_neg hhigh, if_neg hlow, if_neg (by omega)]

theorem Filled.inside (h : Filled v i n bm bm') {p : Nat} (hlow : i ≤ p) (hhigh : p < i + n) :
    bit bm' p = v := by
  rw [h.bit_eq, if_pos ⟨hlow, hhigh⟩]

theorem Filled.outside (h : Filled v i n bm bm') {p : Nat} (hp : p < i ∨ i + n ≤ p) :
    bit bm' p = bit bm p := by
  rw [h.bit_eq, if_neg (by omega)]

theorem filled_byte {o : Nat} (ho : o < bm.length) {b : BitVec 8}
    (hb : ∀ j, j < 8 → b.getLsbD j = v) : Filled v (8 * o) 8 bm (bm.set o b) := by
  refine ⟨length_set, fun p => ?_⟩
  rw [bit_set bm ho]
  by_cases hp : p / 8 = o
  · rw [if_pos hp, if_pos (by omega), hb _ (by omega)]
  · rw [if_neg hp, if_neg (by omega)]

theorem filled_bit {p : Nat} (hp : p / 8 < bm.length) {b : BitVec 8}
    (hb : ∀ j, j < 8 → b.getLsbD j = if j = p % 8 then v else (bm.getD (p / 8) 0).getLsbD j) :
    Filled v p 1 bm (bm.set (p / 8) b) := by
  refine ⟨length_set, fun q => ?_⟩
  rw [bit_set bm hp]
  by_cases hq : q / 8 = p / 8
  · rw [if_pos hq, hb _ (by omega)]
    by_cases hqp : q = p
    · subst hqp
      rw [if_pos rfl, if_pos (by omega)]
    · rw [if_neg (by omega), if_neg (by omega), ← hq]
      rfl
  · rw [if_neg hq, if_neg (by rintro ⟨hle, hlt⟩; exact hq (by congr 1; omega))]

/-! ### Counting clear bits -/

/-- The places below `total` whose bits are clear. -/
def clearBits (total : Nat) (bm : List (BitVec 8)) : Finset Nat :=
  (Finset.range total).filter fun p => bit bm p = false

/-- The number of clear bits below `total`. -/
def numClear (total : Nat) (bm : List (BitVec 8)) : Nat := (clearBits total bm).card

variable {total : Nat}

@[simp] theorem mem_clearBits {p : Nat} :
    p ∈ clearBits total bm ↔ p < total ∧ bit bm p = false := by
  simp [clearBits]

theorem numClear_of_clear (h : ∀ p, p < total → bit bm p = false) :
    numClear total bm = total := by
  have hrange : clearBits total bm = Finset.range total := by
    ext p
    rw [mem_clearBits, Finset.mem_range]
    exact ⟨fun hp => hp.1, fun hp => ⟨hp, h p hp⟩⟩
  unfold numClear
  rw [hrange, Finset.card_range]

theorem Filled.numClear_add (h : Filled false i n bm bm') (hfit : i + n ≤ total)
    (hset : ∀ p, i ≤ p → p < i + n → bit bm p = true) :
    numClear total bm' = numClear total bm + n := by
  have hunion : clearBits total bm' = clearBits total bm ∪ Finset.Ico i (i + n) := by
    ext p
    rw [Finset.mem_union, mem_clearBits, mem_clearBits, Finset.mem_Ico]
    by_cases hp : i ≤ p ∧ p < i + n
    · rw [h.inside hp.1 hp.2]
      exact ⟨fun _ => Or.inr hp, fun _ => ⟨by omega, rfl⟩⟩
    · rw [h.outside (by omega)]
      exact ⟨fun hq => Or.inl hq, fun hq => hq.resolve_right hp⟩
  have hdisjoint : Disjoint (clearBits total bm) (Finset.Ico i (i + n)) := by
    rw [Finset.disjoint_left]
    intro p hp hrun
    rw [Finset.mem_Ico] at hrun
    rw [mem_clearBits, hset p hrun.1 hrun.2] at hp
    exact Bool.noConfusion hp.2
  unfold numClear
  rw [hunion, Finset.card_union_of_disjoint hdisjoint, Nat.card_Ico]
  omega

theorem Filled.numClear_sub (h : Filled true i n bm bm') (hfit : i + n ≤ total)
    (hclear : ∀ p, i ≤ p → p < i + n → bit bm p = false) :
    numClear total bm' + n = numClear total bm := by
  have hback : Filled false i n bm' bm := by
    refine ⟨h.length_eq.symm, fun p => ?_⟩
    by_cases hp : i ≤ p ∧ p < i + n
    · rw [if_pos hp, hclear p hp.1 hp.2]
    · rw [if_neg hp, h.outside (by omega)]
  exact (hback.numClear_add hfit fun p hlow hhigh => h.inside hlow hhigh).symm

end Bitmap
