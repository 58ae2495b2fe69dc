import Mathlib.Algebra.Order.Ring.Int
import Mathlib.Data.List.Basic

/-!
# Records behind each other

Records of different sizes in a block, where each has the offset to the next one.
-/

namespace Records

variable {α : Type*} (holds : Nat → α → Prop) (link : Nat → Nat) (size : α → Nat)

/-- Whole records behind each other, each with the offset of the one behind it. -/
def Linked : Nat → List α → Prop
  | _, [] => True
  | off, a :: as => holds off a ∧ link off = size a ∧ Linked (off + size a) as

def behind (as : List α) : Nat := (as.map size).sum

variable {holds : Nat → α → Prop} {link : Nat → Nat} {size : α → Nat} {off : Nat} {a : α}
  {as : List α}

@[simp] theorem behind_nil : behind size [] = 0 := rfl

theorem behind_cons (a : α) (as : List α) : behind size (a :: as) = size a + behind size as := rfl

theorem behind_concat (as : List α) (a : α) :
    behind size (as ++ [a]) = behind size as + size a := by
  rw [behind, List.map_append, List.sum_append, List.map_singleton, List.sum_singleton]
  rfl

theorem Linked.congr {holds' : Nat → α → Prop} {link' : Nat → Nat}
    (h : Linked holds link size off as)
    (heq : ∀ o a, o + size a ≤ off + behind size as → holds o a →
      holds' o a ∧ link' o = link o) : Linked holds' link' size off as := by
  induction as generalizing off with
  | nil => trivial
  | cons a as ih =>
    obtain ⟨hholds, hlink, hrest⟩ := h
    rw [behind_cons] at heq
    obtain ⟨hholds', hlink'⟩ := heq off a (by omega) hholds
    exact ⟨hholds', hlink'.trans hlink, ih hrest fun o b ho => heq o b (by omega)⟩

theorem linked_concat : Linked holds link size off (as ++ [a]) ↔
    Linked holds link size off as ∧ holds (off + behind size as) a ∧
      link (off + behind size as) = size a := by
  induction as generalizing off with
  | nil => exact ⟨fun h => ⟨trivial, h.1, h.2.1⟩, fun h => ⟨h.2.1, h.2.2, trivial⟩⟩
  | cons b as ih =>
    rw [List.cons_append, Linked, ih, Linked, behind_cons, ← Nat.add_assoc]
    constructor
    · rintro ⟨hholds, hlink, hrest, hlast⟩
      exact ⟨⟨hholds, hlink, hrest⟩, hlast⟩
    · rintro ⟨⟨hholds, hlink, hrest⟩, hlast⟩
      exact ⟨hholds, hlink, hrest, hlast⟩

end Records
