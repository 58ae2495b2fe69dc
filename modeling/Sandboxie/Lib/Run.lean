import Mathlib.Algebra.Order.Ring.Int

/-!
# Runs

The runs of a step relation with events, where each step meets a condition on the state
before it and its event.
-/

namespace Sandboxie

variable {σ ε : Type}

/-- Steps one after the other, each of which meets the condition. -/
inductive Run (step : σ → ε → σ → Prop) (meets : σ → ε → Prop) : σ → List ε → σ → Prop
  | nil (s : σ) : Run step meets s [] s
  | cons {s s' s'' : σ} {e : ε} {es : List ε} (hstep : step s e s') (hmeets : meets s e)
      (rest : Run step meets s' es s'') : Run step meets s (e :: es) s''

namespace Run

variable {step : σ → ε → σ → Prop} {meets : σ → ε → Prop} {s s' s'' : σ} {es es' : List ε}

/-- **The invariant rule.** -/
theorem invariant {I : σ → Prop} (h : Run step meets s es s') (hs : I s)
    (hkeeps : ∀ {a e b}, I a → step a e b → meets a e → I b) : I s' := by
  induction h with
  | nil => exact hs
  | cons hstep hmeets _ ih => exact ih (hkeeps hs hstep hmeets)

theorem keeps {I Q : σ → Prop} {quiet : ε → Prop} (h : Run step meets s es s') (hs : I s)
    (hkeeps : ∀ {a e b}, I a → step a e b → meets a e → I b)
    (hquiet : ∀ e ∈ es, quiet e)
    (hQ : ∀ {a e b}, I a → step a e b → meets a e → quiet e → Q a → Q b) (hq : Q s) : Q s' := by
  induction h with
  | nil => exact hq
  | @cons s s' s'' e es hstep hmeets _ ih =>
    have he := hquiet e List.mem_cons_self
    exact ih (hkeeps hs hstep hmeets) (fun x hx => hquiet x (List.mem_cons_of_mem e hx))
      (hQ hs hstep hmeets he hq)

section Checked

variable (next : σ → ε → Option σ) (meets : σ → ε → Prop) [∀ s e, Decidable (meets s e)]

/-- The steps of a function, as long as the condition is met. -/
def checked : σ → List ε → Option σ
  | s, [] => some s
  | s, e :: es => if meets s e then (next s e).bind fun s' => checked s' es else none

variable {next meets}

theorem of_checked (h : checked next meets s es = some s') :
    Run (fun s e s' => next s e = some s') meets s es s' := by
  induction es generalizing s with
  | nil => exact Option.some.inj h ▸ .nil s
  | cons e es ih =>
    rw [checked] at h
    by_cases hmeets : meets s e
    · rw [if_pos hmeets] at h
      obtain ⟨s₁, hstep, hrest⟩ := Option.bind_eq_some_iff.mp h
      exact .cons hstep hmeets (ih hrest)
    · rw [if_neg hmeets] at h
      exact nomatch h

end Checked

end Run

end Sandboxie
