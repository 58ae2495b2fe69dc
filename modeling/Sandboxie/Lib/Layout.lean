import Mathlib.Algebra.Order.Ring.Int
import Mathlib.Tactic.Common
import Mathlib.Data.List.Basic

/-!
# Values laid out in memory

A store puts a value of some size at an address.  Stores that lie in ranges behind each other are
apart, so that each value is still there when all of them are made.
-/

namespace Layout

variable {V : Type*} (size : V → Nat)

def Within (lo hi : Nat) (l : List (Nat × V)) : Prop :=
  ∀ s ∈ l, lo ≤ s.1 ∧ s.1 + size s.2 ≤ hi

/-- One store ends where the other begins, or in front of it. -/
def Beside (s t : Nat × V) : Prop := s.1 + size s.2 ≤ t.1 ∨ t.1 + size t.2 ≤ s.1

/-- No two stores overlap. -/
def Apart (l : List (Nat × V)) : Prop := l.Pairwise (Beside size)

/-- The next address that is a multiple of `p`. -/
def alignUp (p a : Nat) : Nat := (a + (p - 1)) / p * p

variable {size} {l : List (Nat × V)}

theorem Within.mono {lo lo' hi hi' : Nat} (h : Within size lo hi l)
    (hlo : lo' ≤ lo) (hhi : hi ≤ hi') : Within size lo' hi' l :=
  fun s hs => ⟨Nat.le_trans hlo (h s hs).1, Nat.le_trans (h s hs).2 hhi⟩

variable {lo hi : Nat}

theorem within_nil : Within size lo hi [] := nofun

theorem within_cons {s : Nat × V} :
    Within size lo hi (s :: l) ↔ (lo ≤ s.1 ∧ s.1 + size s.2 ≤ hi) ∧ Within size lo hi l :=
  List.forall_mem_cons

theorem within_append {l m : List (Nat × V)} :
    Within size lo hi (l ++ m) ↔ Within size lo hi l ∧ Within size lo hi m :=
  List.forall_mem_append

theorem Apart.append {lo mid hi : Nat} {l m : List (Nat × V)} (hl : Apart size l)
    (hm : Apart size m) (hlin : Within size lo mid l) (hmin : Within size mid hi m) :
    Apart size (l ++ m) := by
  refine List.pairwise_append.mpr ⟨hl, hm, fun s hs t ht => Or.inl ?_⟩
  exact Nat.le_trans (hlin s hs).2 (hmin t ht).1

theorem apart_cons {s : Nat × V} :
    Apart size (s :: l) ↔ (∀ t ∈ l, Beside size s t) ∧ Apart size l := List.pairwise_cons

variable (size) in
/-- The stores stand behind each other between two addresses, in their order. -/
def Stacked : Nat → List (Nat × V) → Nat → Prop
  | lo, [], hi => lo ≤ hi
  | lo, s :: l, hi => lo ≤ s.1 ∧ Stacked (s.1 + size s.2) l hi

theorem Stacked.le (h : Stacked size lo l hi) : lo ≤ hi := by
  induction l generalizing lo with
  | nil => exact h
  | cons s l ih => exact Nat.le_trans h.1 (Nat.le_trans (Nat.le_add_right _ _) (ih h.2))

theorem Stacked.within (h : Stacked size lo l hi) :
    Within size lo hi l := by
  induction l generalizing lo with
  | nil => exact within_nil
  | cons s l ih =>
    refine within_cons.mpr ⟨⟨h.1, h.2.le⟩, (ih h.2).mono ?_ (Nat.le_refl hi)⟩
    exact Nat.le_trans h.1 (Nat.le_add_right _ _)

theorem Stacked.apart (h : Stacked size lo l hi) :
    Apart size l := by
  induction l generalizing lo with
  | nil => exact List.Pairwise.nil
  | cons s l ih => exact apart_cons.mpr ⟨fun t ht => Or.inl (h.2.within t ht).1, ih h.2⟩

theorem le_alignUp {p : Nat} (hp : 0 < p) (a : Nat) : a ≤ alignUp p a := by
  have h := Nat.lt_div_mul_add (a := a + (p - 1)) hp
  rw [alignUp]
  omega

theorem alignUp_le (p a : Nat) : alignUp p a ≤ a + (p - 1) := Nat.div_mul_le_self _ _

theorem dvd_alignUp (p a : Nat) : p ∣ alignUp p a := Nat.dvd_mul_left _ _

theorem alignUp_of_dvd {p a : Nat} (hp : 0 < p) (h : p ∣ a) : alignUp p a = a := by
  obtain ⟨k, rfl⟩ := h
  rw [alignUp, Nat.mul_add_div hp, Nat.div_eq_of_lt (by omega), Nat.add_zero, Nat.mul_comm]

end Layout
