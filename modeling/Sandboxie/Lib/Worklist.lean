import Mathlib.Algebra.Order.Ring.Int
import Mathlib.Data.List.Perm.Basic

/-!
# Work that comes with more work

Each item of a queue gives something, and comes with items that go to the end of the queue.  What
the queue gives is, but for the order, what each of its items gives by itself with all that comes
with it.
-/

namespace Worklist

variable {α β : Type*} (ok : α → Prop) (give : α → List β) (next : α → List α)

/-- The queue is worked off from its front; every item has to be a good one. -/
inductive Visits : List α → List β → Prop
  | nil : Visits [] []
  | cons {a : α} {as : List α} {ys : List β} (hok : ok a) (h : Visits (as ++ next a) ys) :
      Visits (a :: as) (give a ++ ys)

/-- Each item is worked off with what comes with it.  The number is that of all the items. -/
inductive Yields : Nat → List α → List β → Prop
  | nil : Yields 0 [] []
  | cons {n m : Nat} {a : α} {as : List α} {ys zs : List β} (hok : ok a)
      (hnext : Yields n (next a) ys) (h : Yields m as zs) :
      Yields (n + m + 1) (a :: as) (give a ++ (ys ++ zs))

variable {ok : α → Prop} {give : α → List β} {next : α → List α} {as bs : List α}
  {ys zs : List β} {n m : Nat}

/-! ### Queues behind each other -/

theorem Yields.append (h : Yields ok give next n as ys) (h' : Yields ok give next m bs zs) :
    Yields ok give next (n + m) (as ++ bs) (ys ++ zs) := by
  induction h with
  | nil =>
    rw [Nat.zero_add]
    exact h'
  | @cons i j a as us vs hok hnext _ _ ih =>
    have hcons := Yields.cons hok hnext ih
    have hcount : i + (j + m) + 1 = i + j + 1 + m := by omega
    rw [hcount] at hcons
    rw [List.append_assoc, List.append_assoc]
    exact hcons

theorem Yields.split (h : Yields ok give next n (as ++ bs) zs) :
    ∃ i j us vs, Yields ok give next i as us ∧ Yields ok give next j bs vs ∧ n = i + j ∧
      zs = us ++ vs := by
  induction as generalizing n zs with
  | nil => exact ⟨0, n, [], zs, .nil, h, (Nat.zero_add n).symm, rfl⟩
  | cons a as ih =>
    cases h with
    | @cons i j _ _ us vs hok hnext h =>
      obtain ⟨j₁, j₂, vs₁, vs₂, has, hbs, rfl, rfl⟩ := ih h
      refine ⟨i + j₁ + 1, j₂, _, vs₂, .cons hok hnext has, hbs, by omega, ?_⟩
      rw [List.append_assoc, List.append_assoc]

/-! ### The two orders -/

theorem Yields.visits (h : Yields ok give next n as ys) :
    ∃ zs, Visits ok give next as zs ∧ zs.Perm ys := by
  induction n using Nat.strongRecOn generalizing as ys with
  | ind n ih =>
    cases h with
    | nil => exact ⟨[], .nil, List.Perm.refl _⟩
    | @cons i j a as us vs hok hnext hrest =>
      obtain ⟨zs, hzs, hperm⟩ := ih (j + i) (by omega) (hrest.append hnext)
      exact ⟨_, .cons hok hzs, (hperm.trans List.perm_append_comm).append_left (give a)⟩

theorem Visits.yields (h : Visits ok give next as zs) :
    ∃ n ys, Yields ok give next n as ys ∧ zs.Perm ys := by
  induction h with
  | nil => exact ⟨0, [], .nil, List.Perm.refl _⟩
  | @cons a as ys hok _ ih =>
    obtain ⟨n, us, hyields, hperm⟩ := ih
    obtain ⟨i, j, vs, ws, hrest, hnext, -, rfl⟩ := hyields.split
    exact ⟨_, _, .cons hok hnext hrest, (hperm.trans List.perm_append_comm).append_left (give a)⟩

theorem Visits.append (h : Visits ok give next as ys) (h' : Visits ok give next bs zs) :
    ∃ us, Visits ok give next (as ++ bs) us ∧ us.Perm (ys ++ zs) := by
  obtain ⟨n, vs, hvs, hperm⟩ := h.yields
  obtain ⟨m, ws, hws, hperm'⟩ := h'.yields
  obtain ⟨us, hus, hperm''⟩ := (hvs.append hws).visits
  exact ⟨us, hus, hperm''.trans (hperm.symm.append hperm'.symm)⟩

/-! ### Special items -/

/-- Items that give nothing and come with nothing. -/
def Idle (ok : α → Prop) (give : α → List β) (next : α → List α) (a : α) : Prop :=
  ok a ∧ give a = [] ∧ next a = []

theorem visits_of_idle (h : ∀ a ∈ as, Idle ok give next a) (h' : Visits ok give next bs zs) :
    Visits ok give next (as ++ bs) zs := by
  induction as with
  | nil => exact h'
  | cons a as ih =>
    obtain ⟨hok, hgive, hnext⟩ := h a (.head _)
    have hrest := ih fun b hb => h b (.tail _ hb)
    rw [← List.append_nil (as ++ bs), ← hnext] at hrest
    have hcons := Visits.cons hok hrest
    rw [hgive] at hcons
    exact hcons

theorem visits_idle (h : ∀ a ∈ as, Idle ok give next a) : Visits ok give next as [] := by
  have hvisits := visits_of_idle h (.nil : Visits ok give next [] [])
  rwa [List.append_nil] at hvisits

theorem Visits.congr {ok' : α → Prop} {give' : α → List β} {next' : α → List α}
    (heq : ∀ a, ok a → ok' a ∧ give' a = give a ∧ next' a = next a)
    (h : Visits ok give next as zs) : Visits ok' give' next' as zs := by
  induction h with
  | nil => exact .nil
  | cons hok _ ih =>
    obtain ⟨hok', hgive, hnext⟩ := heq _ hok
    rw [← hgive]
    rw [← hnext] at ih
    exact .cons hok' ih

end Worklist
