import Mathlib.Algebra.Order.Ring.Int
import Mathlib.Data.List.Basic

/-!
# Accesses to blocks of memory

What a piece of code reads and writes, as the list of its accesses to blocks of known sizes.  The
order does not count for whether they stay inside; an access to no byte at all stays inside
wherever it points.
-/

namespace Sandboxie

/-- A row of bytes of a block that is read or written. -/
structure Access (B : Type*) where
  block : B
  off : Nat
  size : Nat
deriving DecidableEq

namespace Access

variable {B : Type*} {len : B → Nat} {a : Access B} {as bs : List (Access B)}

def Inside (len : B → Nat) (a : Access B) : Prop := a.size = 0 ∨ a.off + a.size ≤ len a.block

instance (len : B → Nat) (a : Access B) : Decidable (Inside len a) :=
  inferInstanceAs (Decidable (_ ∨ _))

def AllInside (len : B → Nat) (as : List (Access B)) : Prop := ∀ a ∈ as, Inside len a

instance (len : B → Nat) (as : List (Access B)) : Decidable (AllInside len as) :=
  inferInstanceAs (Decidable (∀ a ∈ as, _))

theorem inside_iff {b : B} {off size : Nat} (hsize : 0 < size) :
    Inside len ⟨b, off, size⟩ ↔ off + size ≤ len b :=
  or_iff_right (Nat.ne_of_gt hsize)

theorem inside_of_le {b : B} {off size : Nat} (h : off + size ≤ len b) :
    Inside len ⟨b, off, size⟩ := .inr h

@[simp] theorem allInside_nil : AllInside len [] := nofun

@[simp] theorem allInside_cons : AllInside len (a :: as) ↔ Inside len a ∧ AllInside len as :=
  List.forall_mem_cons

@[simp] theorem allInside_append :
    AllInside len (as ++ bs) ↔ AllInside len as ∧ AllInside len bs :=
  List.forall_mem_append

theorem allInside_flatMap {ι : Type*} {is : List ι} {f : ι → List (Access B)} :
    AllInside len (is.flatMap f) ↔ ∀ i ∈ is, AllInside len (f i) := by
  constructor
  · exact fun h i hi a ha => h a (List.mem_flatMap.mpr ⟨i, hi, ha⟩)
  · intro h a ha
    obtain ⟨i, hi, ha⟩ := List.mem_flatMap.mp ha
    exact h i hi a ha

end Access

end Sandboxie
