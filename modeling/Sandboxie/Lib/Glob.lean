import Mathlib.Algebra.Order.Ring.Int
import Mathlib.Data.List.Forall2
import Mathlib.Tactic.Common

/-!
# Globs

A glob is a list of tokens: one character of a kind, or any text of characters of a kind.
-/

namespace Glob

variable {α β : Type*}

inductive Token (α : Type*)
  | one (p : α → Prop)
  | any (p : α → Prop)

/-- **The language of a glob.** -/
inductive Matches : List (Token α) → List α → Prop
  | nil : Matches [] []
  | one {p : α → Prop} {x : α} {ts : List (Token α)} {s : List α} (hx : p x) (h : Matches ts s) :
    Matches (.one p :: ts) (x :: s)
  | any {p : α → Prop} {gap : List α} {ts : List (Token α)} {s : List α} (hgap : ∀ x ∈ gap, p x)
    (h : Matches ts s) : Matches (.any p :: ts) (gap ++ s)

@[simp] theorem matches_nil {s : List α} : Matches [] s ↔ s = [] := by
  constructor
  · rintro ⟨⟩
    rfl
  · rintro rfl
    exact .nil

theorem matches_any {p : α → Prop} {ts : List (Token α)} {s : List α} :
    Matches (.any p :: ts) s ↔ ∃ gap rest, s = gap ++ rest ∧ (∀ x ∈ gap, p x) ∧
      Matches ts rest := by
  constructor
  · intro h
    cases h with
    | any hgap h => exact ⟨_, _, rfl, hgap, h⟩
  · rintro ⟨gap, rest, rfl, hgap, h⟩
    exact .any hgap h

theorem matches_append {ts us : List (Token α)} : ∀ {s : List α},
    Matches (ts ++ us) s ↔ ∃ front rest, s = front ++ rest ∧ Matches ts front ∧
      Matches us rest := by
  induction ts with
  | nil =>
    intro s
    constructor
    · exact fun h => ⟨[], s, rfl, .nil, h⟩
    · rintro ⟨front, rest, rfl, hfront, hrest⟩
      obtain rfl := matches_nil.mp hfront
      exact hrest
  | cons t ts ih =>
    intro s
    constructor
    · intro h
      cases h with
      | one hx h =>
        obtain ⟨front, rest, rfl, hfront, hrest⟩ := ih.mp h
        exact ⟨_ :: front, rest, rfl, .one hx hfront, hrest⟩
      | any hgap h =>
        obtain ⟨front, rest, rfl, hfront, hrest⟩ := ih.mp h
        exact ⟨_ ++ front, rest, (List.append_assoc ..).symm, .any hgap hfront, hrest⟩
    · rintro ⟨front, rest, rfl, hfront, hrest⟩
      cases hfront with
      | one hx h => exact .one hx (ih.mpr ⟨_, rest, rfl, h, hrest⟩)
      | any hgap h =>
        rw [List.append_assoc]
        exact .any hgap (ih.mpr ⟨_, rest, rfl, h, hrest⟩)

theorem matches_ones {R : β → α → Prop} {l : List β} : ∀ {s : List α},
    Matches (l.map fun b => .one (R b)) s ↔ List.Forall₂ R l s := by
  induction l with
  | nil =>
    intro s
    rw [List.map_nil, matches_nil, List.forall₂_nil_left_iff]
  | cons b l ih =>
    intro s
    constructor
    · intro h
      cases h with
      | one hx h => exact .cons hx (ih.mp h)
    · intro h
      cases h with
      | cons hx h => exact .one hx (ih.mpr h)

end Glob
