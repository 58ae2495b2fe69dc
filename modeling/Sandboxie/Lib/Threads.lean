import Mathlib.Algebra.Order.Ring.Int
import Mathlib.Algebra.BigOperators.Group.Finset.Piecewise
import Mathlib.Algebra.Order.BigOperators.Group.Finset

/-!
# Threads

Any number of threads, each with a state of its own, and what they have in total: `total f ls`
is the sum of `f` over the threads.  A step changes the state of one thread, so a total changes
by what that thread gets or gives.
-/

namespace Sandboxie.Threads

variable {T L : Type} [Fintype T]

def total (f : L → Nat) (ls : T → L) : Nat := ∑ t, f (ls t)

variable {f g : L → Nat} {ls : T → L}

theorem total_update [DecidableEq T] (f : L → Nat) (ls : T → L) (t : T) (l : L) :
    total f (Function.update ls t l) + f (ls t) = total f ls + f l := by
  have h : ∀ l', total f (Function.update ls t l') = f l' + ∑ x ∈ Finset.univ \ {t}, f (ls x) := by
    intro l'
    have hcomp : (fun x => f (Function.update ls t l' x)) =
        Function.update (fun x => f (ls x)) t (f l') := Function.comp_update f ls t l'
    show ∑ x, (fun x => f (Function.update ls t l' x)) x = _
    rw [hcomp, Finset.sum_update_of_mem (Finset.mem_univ t)]
  have hself := h (ls t)
  rw [Function.update_eq_self] at hself
  rw [h l, hself]
  omega

theorem le_total (f : L → Nat) (ls : T → L) (t : T) : f (ls t) ≤ total f ls :=
  Finset.single_le_sum (f := fun x => f (ls x)) (fun _ _ => Nat.zero_le _) (Finset.mem_univ t)

theorem two_le_total (f : L → Nat) (ls : T → L) {t t' : T} (h : t ≠ t') :
    f (ls t) + f (ls t') ≤ total f ls := by
  classical
  rw [← Finset.sum_pair (f := fun x => f (ls x)) h]
  exact Finset.sum_le_sum_of_subset (Finset.subset_univ _)

theorem total_mono (h : ∀ l, f l ≤ g l) (ls : T → L) : total f ls ≤ total g ls :=
  Finset.sum_le_sum fun t _ => h (ls t)

theorem total_eq_zero_iff : total f ls = 0 ↔ ∀ t, f (ls t) = 0 := by
  unfold total
  rw [Finset.sum_eq_zero_iff]
  exact ⟨fun h t => h t (Finset.mem_univ t), fun h t _ => h t⟩

theorem exists_of_total_pos (h : 0 < total f ls) : ∃ t, 0 < f (ls t) := by
  by_contra hnone
  refine absurd (total_eq_zero_iff.mpr fun t => ?_) (Nat.pos_iff_ne_zero.mp h)
  exact Nat.eq_zero_of_not_pos fun ht => hnone ⟨t, ht⟩

theorem total_pos_iff : 0 < total f ls ↔ ∃ t, 0 < f (ls t) :=
  ⟨exists_of_total_pos, fun ⟨t, ht⟩ => ht.trans_le (le_total f ls t)⟩

end Sandboxie.Threads
