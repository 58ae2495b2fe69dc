import Mathlib.Algebra.Order.Ring.Int
import Mathlib.Data.List.Basic
import Mathlib.Data.Finite.Defs
import Mathlib.Data.Fintype.EquivFin
import Mathlib.Logic.Relation
import Mathlib.Order.WellFounded
import Mathlib.Data.Fintype.Order

/-!
# Following a partial function

`chase next n a` lists what comes after `a`, one after the other, until nothing comes next; it
gives up after `n` of them.  It comes to an end exactly when it meets nothing again
(`chase_ends_iff`), and then what it lists is all different (`nodup_of_chase`).
-/

namespace Sandboxie

open Relation List

variable {α : Type} (next : α → Option α)

/-- `b` comes right after `a`. -/
def Follows (a b : α) : Prop := next a = some b

/-- What comes from `a` on. -/
def chase : Nat → α → Option (List α)
  | 0, _ => none
  | n + 1, a =>
    match next a with
    | none => some [a]
    | some b => (chase n b).map (a :: ·)

variable {next} {a b : α} {n m : Nat} {l l' : List α}

theorem chase_end (h : next a = none) : chase next (n + 1) a = some [a] := by
  rw [chase, h]

theorem chase_next (h : next a = some b) :
    chase next (n + 1) a = (chase next n b).map (a :: ·) := by
  rw [chase, h]

theorem of_chase_next (h : next a = some b) (hl : chase next n a = some l) :
    ∃ m l', chase next m b = some l' ∧ l = a :: l' := by
  cases n with
  | zero => exact nomatch hl
  | succ n =>
    rw [chase_next h] at hl
    obtain ⟨l', hl', rfl⟩ := Option.map_eq_some_iff.mp hl
    exact ⟨n, l', hl', rfl⟩

theorem chase_unique (h : chase next n a = some l) (h' : chase next m a = some l') : l = l' := by
  induction n generalizing a m l l' with
  | zero => exact nomatch h
  | succ n ih =>
    cases m with
    | zero => exact nomatch h'
    | succ m =>
      cases hnext : next a with
      | none =>
        rw [chase_end hnext] at h h'
        exact Option.some.inj (h.symm.trans h')
      | some b =>
        rw [chase_next hnext] at h h'
        obtain ⟨t, ht, rfl⟩ := Option.map_eq_some_iff.mp h
        obtain ⟨t', ht', rfl⟩ := Option.map_eq_some_iff.mp h'
        rw [ih ht ht']

theorem chase_trans (h : TransGen (Follows next) a b) (hl : chase next n a = some l) :
    ∃ m l', chase next m b = some l' ∧ l'.length < l.length := by
  induction h with
  | single h =>
    obtain ⟨m, l', hl', rfl⟩ := of_chase_next h hl
    exact ⟨m, l', hl', Nat.lt_succ_self _⟩
  | tail _ h ih =>
    obtain ⟨m, l', hl', hlt⟩ := ih
    obtain ⟨m', l'', hl'', rfl⟩ := of_chase_next h hl'
    exact ⟨m', l'', hl'', Nat.lt_trans (Nat.lt_succ_self _) hlt⟩

theorem chase_acyclic (hl : chase next n a = some l) : ¬ TransGen (Follows next) a a := by
  intro h
  obtain ⟨m, l', hl', hlt⟩ := chase_trans h hl
  rw [chase_unique hl hl'] at hlt
  exact Nat.lt_irrefl _ hlt

theorem chase_reaches (hl : chase next n a = some l) {x : α} (hx : x ∈ l) :
    ReflTransGen (Follows next) a x := by
  induction n generalizing a l with
  | zero => exact nomatch hl
  | succ n ih =>
    cases hnext : next a with
    | none =>
      rw [chase_end hnext] at hl
      cases hl
      rw [mem_singleton.mp hx]
    | some b =>
      rw [chase_next hnext] at hl
      obtain ⟨t, ht, rfl⟩ := Option.map_eq_some_iff.mp hl
      rcases mem_cons.mp hx with rfl | hx
      · exact .refl
      · exact .head hnext (ih ht hx)

theorem chase_lists (h : ReflTransGen (Follows next) a b) (hl : chase next n a = some l) :
    b ∈ l ∧ ∃ m l', chase next m b = some l' := by
  induction h using ReflTransGen.head_induction_on generalizing n l with
  | refl =>
    refine ⟨?_, n, l, hl⟩
    cases n with
    | zero => exact nomatch hl
    | succ n =>
      rw [chase] at hl
      split at hl
      · cases hl
        exact mem_singleton_self b
      · obtain ⟨t, -, rfl⟩ := Option.map_eq_some_iff.mp hl
        exact mem_cons_self
  | head hstep _ ih =>
    obtain ⟨m, l', hl', rfl⟩ := of_chase_next hstep hl
    obtain ⟨hmem, hends⟩ := ih hl'
    exact ⟨mem_cons_of_mem _ hmem, hends⟩

/-- **What is listed is all different**, also where `same` takes things for the same that are
followed by the same. -/
theorem pairwise_of_chase {same : α → α → Prop} (hsame : ∀ x y, same x y → next x = next y)
    (hl : chase next n a = some l) : l.Pairwise fun x y => ¬ same x y := by
  induction n generalizing a l with
  | zero => exact nomatch hl
  | succ n ih =>
    cases hnext : next a with
    | none =>
      rw [chase_end hnext] at hl
      cases hl
      exact pairwise_singleton _ a
    | some b =>
      have hwhole := hl
      rw [chase_next hnext] at hl
      obtain ⟨t, ht, rfl⟩ := Option.map_eq_some_iff.mp hl
      refine pairwise_cons.mpr ⟨fun x hx heq => ?_, ih ht⟩
      -- `x` is followed by `b` too, so `b` comes after itself
      have hbx : ReflTransGen (Follows next) b x := chase_reaches ht hx
      have hxb : Follows next x b := (hsame a x heq).symm.trans hnext
      exact chase_acyclic ht (TransGen.tail' hbx hxb)

/-- **The list comes to an end** exactly when nothing on the way comes after itself, where only
finitely many things follow others. -/
theorem chase_ends_iff {dom : List α} (hdom : ∀ {x y}, next x = some y → y ∈ dom) :
    (∃ n l, chase next n a = some l) ↔
      ∀ b, ReflTransGen (Follows next) a b → ¬ TransGen (Follows next) b b := by
  refine ⟨fun h b hb => ?_, fun h => ?_⟩
  · obtain ⟨n, l, hl⟩ := h
    obtain ⟨-, m, l', hl'⟩ := chase_lists hb hl
    exact chase_acyclic hl'
  -- what comes after the start is finite, and well-founded backwards
  have hfin : Set.Finite {b | ReflTransGen (Follows next) a b} := by
    refine (finite_toSet (a :: dom)).subset fun b hb => ?_
    rcases ReflTransGen.cases_tail hb with rfl | ⟨c, -, hc⟩
    · exact mem_cons_self
    · exact mem_cons_of_mem _ (hdom hc)
  have : Finite {b // ReflTransGen (Follows next) a b} := hfin
  have hwf : WellFounded fun x y : {b // ReflTransGen (Follows next) a b} =>
      TransGen (Follows next) y.1 x.1 := by
    have htrans : IsTrans {b // ReflTransGen (Follows next) a b}
        fun x y => TransGen (Follows next) y.1 x.1 := ⟨fun _ _ _ hxy hyz => hyz.trans hxy⟩
    have hirrefl : Std.Irrefl (α := {b // ReflTransGen (Follows next) a b})
        fun x y => TransGen (Follows next) y.1 x.1 := ⟨fun x hx => h x.1 x.2 hx⟩
    exact Finite.wellFounded_of_trans_of_irrefl _
  have hall : ∀ x : {b // ReflTransGen (Follows next) a b},
      ∃ n l, chase next n x.1 = some l := by
    intro x
    induction x using hwf.induction with
    | _ x ih =>
      cases hnext : next x.1 with
      | none => exact ⟨1, [x.1], chase_end hnext⟩
      | some b =>
        obtain ⟨n, l, hl⟩ := ih ⟨b, x.2.tail hnext⟩ (TransGen.single hnext)
        refine ⟨n + 1, x.1 :: l, ?_⟩
        rw [chase_next hnext, hl]
        rfl
  exact hall ⟨a, .refl⟩

end Sandboxie
