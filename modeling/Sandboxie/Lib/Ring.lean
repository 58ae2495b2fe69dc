import Mathlib.Algebra.Order.Ring.Int
import Mathlib.Data.List.Rotate
import Mathlib.Data.Nat.ModEq

/-!
# Rings

A list read as a ring from a starting position is the list rotated to it.  A pointer into
the ring may stand up to one turn outside; `wrap` brings it back by adding or taking away
one length, and `At` says at which offset from the start it stands.
-/

namespace Ring

open List

variable {α : Type}

/-! ### Writing -/

theorem getElem?_rotate (l : List α) (start : Nat) {i : Nat} (hi : i < l.length) :
    (l.rotate start)[i]? = l[(start + i) % l.length]? := by
  rw [List.getElem?_rotate hi, Nat.add_comm]

theorem add_mod_inj {n start i j : Nat} (hi : i < n) (hj : j < n)
    (h : (start + i) % n = (start + j) % n) : i = j := by
  have heq : i % n = j % n := Nat.ModEq.add_left_cancel' start h
  rwa [Nat.mod_eq_of_lt hi, Nat.mod_eq_of_lt hj] at heq

theorem rotate_set (l : List α) (start : Nat) {i : Nat} (hi : i < l.length) (x : α) :
    (l.set ((start + i) % l.length) x).rotate start = (l.rotate start).set i x := by
  have hlen : (l.set ((start + i) % l.length) x).length = l.length := length_set
  apply ext_getElem?
  intro j
  by_cases hj : j < l.length
  · rw [getElem?_rotate _ _ (by rw [hlen]; exact hj), hlen]
    have hpos : (start + i) % l.length < l.length := Nat.mod_lt _ (by omega)
    by_cases hij : i = j
    · subst hij
      rw [getElem?_set_self hpos,
        getElem?_set_self (by rw [length_rotate]; exact hi)]
    · have hne : (start + i) % l.length ≠ (start + j) % l.length :=
        fun h => hij (add_mod_inj hi hj h)
      rw [getElem?_set_ne hne, getElem?_set_ne hij, getElem?_rotate _ _ hj]
  · have hleft : ((l.set ((start + i) % l.length) x).rotate start).length ≤ j := by
      rw [length_rotate, hlen]; omega
    have hright : ((l.rotate start).set i x).length ≤ j := by
      rw [length_set, length_rotate]; omega
    rw [getElem?_eq_none hleft, getElem?_eq_none hright]

/-! ### Pointers -/

/-- A pointer brought back by one turn. -/
def wrap (n : Nat) (ptr : Int) : Int :=
  if (n : Int) ≤ ptr then ptr - n
  else if ptr < 0 then ptr + n
  else ptr

/-- The pointer stands at offset `i` from `start`, at most one turn outside. -/
structure At (n start : Nat) (ptr : Int) (i : Nat) : Prop where
  low : -(n : Int) ≤ ptr
  high : ptr < 2 * n
  mod : ptr % n = ((start + i) % n : Nat)

theorem At.wrap {n start i : Nat} {ptr : Int} (h : At n start ptr i) :
    wrap n ptr = ((start + i) % n : Nat) := by
  have hlow := h.low
  have hhigh := h.high
  rw [← h.mod, Ring.wrap]
  split
  · rw [← Int.sub_emod_right, Int.emod_eq_of_lt (by omega) (by omega)]
  · split
    · rw [← Int.add_emod_right, Int.emod_eq_of_lt (by omega) (by omega)]
    · rw [Int.emod_eq_of_lt (by omega) (by omega)]

theorem At.pos {n start i : Nat} {ptr : Int} (h : At n start ptr i) : 0 < n := by
  have hlow := h.low
  have hhigh := h.high
  omega

theorem At.move {n start i j : Nat} {ptr : Int} (h : At n start ptr i) (k : Int)
    (hlow : -(n : Int) ≤ ptr + k) (hhigh : ptr + k < 2 * n) (hj : (i : Int) + k = j) :
    At n start (ptr + k) j := by
  refine ⟨hlow, hhigh, ?_⟩
  have hmod := h.mod
  have hcast : ((start + j : Nat) : Int) = ((start + i : Nat) : Int) + k := by omega
  rw [← Int.emod_add_emod, hmod, Int.natCast_emod, Int.emod_add_emod, Int.natCast_emod, hcast]

theorem At.next {n start i : Nat} {ptr : Int} (h : At n start ptr i) :
    At n start (Ring.wrap n ptr + 1) (i + 1) ∧ 1 ≤ Ring.wrap n ptr + 1 ∧
      Ring.wrap n ptr + 1 ≤ n := by
  have hpos := h.pos
  have hlt : (start + i) % n < n := Nat.mod_lt _ hpos
  rw [h.wrap]
  refine ⟨⟨by omega, by omega, ?_⟩, by omega, by omega⟩
  rw [Int.natCast_emod, Int.emod_add_emod, Int.natCast_emod]
  congr 1

theorem At.start {n start : Nat} (hstart : start < n) {i : Nat} (hi : i ≤ n) :
    At n start ((start : Int) + i) i := by
  refine ⟨by omega, by omega, ?_⟩
  rw [Int.natCast_emod]
  congr 1

end Ring
