import Mathlib.Algebra.Order.Ring.Int
import Mathlib.Tactic.Common

/-!
# Critical sections

A critical section belongs to one thread at a time, which may enter it again and leaves it as
often as it has entered it.  `held` counts how often a thread is inside.
-/

namespace Sandboxie

abbrev CriticalSection (T : Type) := Option (T × Nat)

namespace CriticalSection

variable {T : Type} [DecidableEq T]

def held (cs : CriticalSection T) (t : T) : Nat :=
  match cs with
  | none => 0
  | some (owner, again) => if owner = t then again + 1 else 0

def enter (t : T) : CriticalSection T → Option (CriticalSection T)
  | none => some (some (t, 0))
  | some (owner, again) => if owner = t then some (some (t, again + 1)) else none

/-- A thread that is not inside changes nothing. -/
def leave (t : T) : CriticalSection T → CriticalSection T
  | none => none
  | some (owner, 0) => if owner = t then none else some (owner, 0)
  | some (owner, again + 1) => if owner = t then some (t, again) else some (owner, again + 1)

variable {cs cs' : CriticalSection T} {t t' : T}

/-- **Mutual exclusion.** -/
theorem held_other (h : 0 < held cs t) (hne : t' ≠ t) : held cs t' = 0 := by
  cases cs with
  | none => rfl
  | some c =>
    obtain ⟨owner, again⟩ := c
    have howner : owner = t := by
      by_contra hne'
      exact absurd h (by simp [held, hne'])
    subst howner
    exact if_neg (Ne.symm hne)

theorem held_enter (h : enter t cs = some cs') : held cs' t = held cs t + 1 := by
  cases cs with
  | none =>
    cases h
    simp [held]
  | some c =>
    obtain ⟨owner, again⟩ := c
    by_cases howner : owner = t
    · rw [enter, if_pos howner] at h
      cases h
      simp [held, howner]
    · rw [enter, if_neg howner] at h
      exact nomatch h

theorem alone_of_enter (h : enter t cs = some cs') (hne : t' ≠ t) : held cs t' = 0 := by
  cases cs with
  | none => rfl
  | some c =>
    obtain ⟨owner, again⟩ := c
    by_cases howner : owner = t
    · exact if_neg (howner ▸ Ne.symm hne)
    · rw [enter, if_neg howner] at h
      exact nomatch h

theorem held_enter_other (h : enter t cs = some cs') (hne : t' ≠ t) : held cs' t' = 0 := by
  refine held_other (t := t) ?_ hne
  rw [held_enter h]
  exact Nat.succ_pos _

theorem held_leave (t : T) (cs : CriticalSection T) : held (leave t cs) t = held cs t - 1 := by
  cases cs with
  | none => rfl
  | some c =>
    obtain ⟨owner, again⟩ := c
    by_cases howner : owner = t <;> cases again <;> simp [leave, held, howner]

theorem held_leave_other (cs : CriticalSection T) (hne : t' ≠ t) :
    held (leave t cs) t' = held cs t' := by
  cases cs with
  | none => rfl
  | some c =>
    obtain ⟨owner, again⟩ := c
    by_cases howner : owner = t
    · subst howner
      cases again <;> simp [leave, held, Ne.symm hne]
    · cases again <;> simp [leave, held, howner]

theorem held_enter_eq (h : enter t cs = some cs') (t' : T) :
    held cs' t' = if t' = t then held cs t + 1 else held cs t' := by
  by_cases heq : t' = t
  · rw [if_pos heq, heq, held_enter h]
  · rw [if_neg heq, held_enter_other h heq, alone_of_enter h heq]

theorem held_leave_eq (t t' : T) (cs : CriticalSection T) :
    held (leave t cs) t' = if t' = t then held cs t - 1 else held cs t' := by
  by_cases heq : t' = t
  · rw [if_pos heq, heq, held_leave]
  · rw [if_neg heq, held_leave_other cs heq]

theorem leave_enter (h : enter t cs = some cs') : leave t cs' = cs := by
  cases cs with
  | none =>
    cases h
    exact if_pos rfl
  | some c =>
    obtain ⟨owner, again⟩ := c
    by_cases howner : owner = t
    · rw [enter, if_pos howner] at h
      cases h
      subst howner
      exact if_pos rfl
    · rw [enter, if_neg howner] at h
      exact nomatch h

end CriticalSection

end Sandboxie
