import Mathlib.Algebra.Order.Ring.Int
import Mathlib.Data.List.Basic
import Mathlib.Data.List.TakeWhile

/-!
# Wide characters

A `WCHAR` is a UTF-16 code unit, and a string is the list of its code units up to the
terminator.  What the C library does to letters (`towlower`) is a parameter wherever
it matters.
-/

namespace Sandboxie

/-- A `WCHAR`. -/
abbrev WChar := Nat

instance : LawfulBEq (List WChar) := inferInstance

def wide (cs : List Char) : List WChar := cs.map Char.toNat

namespace Text

/-- `wcslen` cuts a buffer at its first terminator. -/
def cut (buffer : List WChar) : List WChar := buffer.takeWhile (· ≠ 0)

theorem cut_append {s : List WChar} (h : 0 ∉ s) (rest : List WChar) : cut (s ++ 0 :: rest) = s := by
  have hall : ∀ c ∈ s, decide (c ≠ 0) = true :=
    fun c hc => decide_eq_true fun heq => h (heq ▸ hc)
  rw [cut, List.takeWhile_append_of_pos hall, List.takeWhile_cons_of_neg (by decide),
    List.append_nil]

theorem cut_eq_self {s : List WChar} (h : 0 ∉ s) : cut s = s :=
  List.takeWhile_eq_self_iff.mpr fun _ hc => decide_eq_true fun heq => h (heq ▸ hc)

/-- `_wcsicmp` finds no difference. -/
def sameNoCase (towlower : WChar → WChar) (s t : List WChar) : Bool :=
  s.map towlower == t.map towlower

/-- `towlower` on the ASCII letters. -/
def asciiLower (c : WChar) : WChar := if 65 ≤ c ∧ c ≤ 90 then c + 32 else c

theorem split_unique {α : Type} {a : α} {x₁ x₂ z₁ z₂ : List α} (h₁ : a ∉ x₁) (h₂ : a ∉ x₂)
    (h : x₁ ++ a :: z₁ = x₂ ++ a :: z₂) : x₁ = x₂ ∧ z₁ = z₂ := by
  induction x₁ generalizing x₂ with
  | nil =>
    cases x₂ with
    | nil => exact ⟨rfl, (List.cons.inj h).2⟩
    | cons b x₂ => exact absurd (List.mem_cons.mpr (Or.inl (List.cons.inj h).1)) h₂
  | cons b x₁ ih =>
    cases x₂ with
    | nil => exact absurd (List.mem_cons.mpr (Or.inl (List.cons.inj h).1.symm)) h₁
    | cons b' x₂ =>
      obtain ⟨rfl, hmore⟩ := List.cons.inj h
      obtain ⟨rfl, rfl⟩ := ih (fun h => h₁ (List.mem_cons_of_mem _ h))
        (fun h => h₂ (List.mem_cons_of_mem _ h)) hmore
      exact ⟨rfl, rfl⟩

end Text

end Sandboxie
