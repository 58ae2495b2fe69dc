import Mathlib.Algebra.Order.Ring.Int
import Mathlib.Order.Defs.LinearOrder
import Mathlib.Order.Basic
import Mathlib.Data.List.Induction

/-!
# Keeping the best element of a list

`keepBest better l` scans `l` and replaces the element it holds whenever
`better` says that the next one is better.  Nothing makes `better` an order: a
scan in a program compares whatever it compares, and the result may depend on
the order of the list.

`Ranked better rank` says that `better` follows `rank` wherever two ranks differ.
Then the element kept is of greatest rank (`Ranked.rank_le`), so that `better`
decides only between elements of one rank.
-/

namespace KeepBest

open List

variable {α ρ : Type*}

def step (better : α → α → Bool) : Option α → α → Option α
  | none, x => some x
  | some b, x => if better x b then some x else some b

def keepBest (better : α → α → Bool) (l : List α) : Option α := l.foldl (step better) none

variable {better : α → α → Bool}

@[simp] theorem keepBest_nil : keepBest better [] = none := rfl

theorem keepBest_concat (l : List α) (x : α) :
    keepBest better (l ++ [x]) = step better (keepBest better l) x := by
  rw [keepBest, foldl_append]
  rfl

variable {l : List α}

theorem keepBest_eq_none_iff : keepBest better l = none ↔ l = [] := by
  induction l using List.reverseRecOn with
  | nil => simp
  | append_singleton l x _ =>
    rw [keepBest_concat]
    refine iff_of_false ?_ (by simp)
    cases keepBest better l with
    | none => simp [step]
    | some b => simp only [step]; split <;> simp

theorem mem_of_keepBest : ∀ {b : α}, keepBest better l = some b → b ∈ l := by
  induction l using List.reverseRecOn with
  | nil => simp
  | append_singleton l x ih =>
    intro b hb
    rw [keepBest_concat] at hb
    cases hl : keepBest better l with
    | none =>
      rw [hl, step, Option.some.injEq] at hb
      simp [hb]
    | some a =>
      rw [hl] at hb
      simp only [step] at hb
      split at hb
      · simp [Option.some.inj hb]
      · exact mem_append_left _ (ih (hl.trans hb))

theorem exists_split_of_keepBest : ∀ {b : α}, keepBest better l = some b →
    ∃ xs ys, l = xs ++ b :: ys ∧ ∀ a ∈ ys, better a b = false := by
  induction l using List.reverseRecOn with
  | nil => simp
  | append_singleton l x ih =>
    intro b hb
    rw [keepBest_concat] at hb
    cases hl : keepBest better l with
    | none =>
      rw [hl, step, Option.some.injEq] at hb
      exact ⟨l, [], by rw [hb], by simp⟩
    | some a =>
      rw [hl] at hb
      simp only [step] at hb
      split at hb
      · exact ⟨l, [], by rw [Option.some.inj hb], by simp⟩
      · rename_i hbet
        obtain ⟨xs, ys, rfl, hys⟩ := ih (hl.trans hb)
        refine ⟨xs, ys ++ [x], by simp, fun c hc => ?_⟩
        rcases mem_append.mp hc with hc | hc
        · exact hys c hc
        · rw [mem_singleton.mp hc, ← Option.some.inj hb]
          simpa using hbet

variable [LinearOrder ρ] {rank : α → ρ}

/-- `better` follows `rank` where two ranks differ. -/
structure Ranked (better : α → α → Bool) (rank : α → ρ) : Prop where
  above : ∀ {a b : α}, rank b < rank a → better a b = true
  below : ∀ {a b : α}, rank a < rank b → better a b = false

/-- **The element kept is of greatest rank.** -/
theorem Ranked.rank_le (h : Ranked better rank) :
    ∀ {b : α}, keepBest better l = some b → ∀ a ∈ l, rank a ≤ rank b := by
  induction l using List.reverseRecOn with
  | nil => simp
  | append_singleton l x ih =>
    intro b hb a ha
    rw [keepBest_concat] at hb
    cases hl : keepBest better l with
    | none =>
      rw [keepBest_eq_none_iff] at hl
      subst hl
      simp only [keepBest_nil, step, Option.some.injEq, nil_append,
        mem_singleton] at hb ha
      rw [ha, hb]
    | some c =>
      rw [hl] at hb
      simp only [step] at hb
      rcases mem_append.mp ha with ha | ha
      · have hac := ih hl a ha
        split at hb
        · rename_i hbet
          refine hac.trans (not_lt.mp fun hlt => ?_)
          rw [← Option.some.inj hb] at hlt
          rw [h.below hlt] at hbet
          exact absurd hbet (by simp)
        · rw [← Option.some.inj hb]
          exact hac
      · rw [mem_singleton.mp ha]
        split at hb
        · rw [← Option.some.inj hb]
        · rename_i hbet
          rw [← Option.some.inj hb]
          refine not_lt.mp fun hlt => hbet (h.above hlt)

theorem Ranked.getLast?_of_keepBest (h : Ranked better rank)
    (hties : ∀ {a b : α}, rank a = rank b → better a b = true) {b : α}
    (hb : keepBest better l = some b) :
    (l.filter fun a => decide (rank b ≤ rank a)).getLast? = some b := by
  have hle := h.rank_le hb
  obtain ⟨xs, ys, rfl, hys⟩ := exists_split_of_keepBest hb
  have hnone : ys.filter (fun a => decide (rank b ≤ rank a)) = [] := by
    refine filter_eq_nil_iff.mpr fun a ha hrank => ?_
    have hbelow := hle a (by simp [ha])
    have hbetter := hties (le_antisymm hbelow (of_decide_eq_true hrank))
    rw [hys a ha] at hbetter
    cases hbetter
  rw [filter_append, filter_cons_of_pos (by simp), hnone]
  exact getLast?_concat

theorem Ranked.keepBest_filter (h : Ranked better rank) (r : ρ) :
    (∃ m ∈ l, r ≤ rank m) →
      keepBest better (l.filter fun m => decide (r ≤ rank m)) = keepBest better l := by
  induction l using List.reverseRecOn with
  | nil => simp
  | append_singleton l x ih =>
    intro hex
    rw [filter_append, keepBest_concat]
    by_cases hx : r ≤ rank x
    · have hfx : [x].filter (fun m => decide (r ≤ rank m)) = [x] := by simp [hx]
      rw [hfx, keepBest_concat]
      by_cases hl : ∃ m ∈ l, r ≤ rank m
      · rw [ih hl]
      have hnil : l.filter (fun m => decide (r ≤ rank m)) = [] :=
        filter_eq_nil_iff.mpr (fun m hm => by simpa using fun hle => hl ⟨m, hm, hle⟩)
      rw [hnil, keepBest_nil, step]
      cases hb : keepBest better l with
      | none => rfl
      | some b =>
        have hlt : rank b < r := not_le.mp fun hle => hl ⟨b, mem_of_keepBest hb, hle⟩
        rw [step, if_pos (h.above (hlt.trans_le hx))]
    · have hfx : [x].filter (fun m => decide (r ≤ rank m)) = [] := by simp [hx]
      obtain ⟨m, hm, hrm⟩ := hex
      rcases mem_append.mp hm with hm | hm
      · rw [hfx, append_nil, ih ⟨m, hm, hrm⟩]
        cases hb : keepBest better l with
        | none => rw [keepBest_eq_none_iff.mp hb] at hm; simp at hm
        | some b =>
          have hlt : rank x < rank b :=
            (not_le.mp hx).trans_le (hrm.trans (h.rank_le hb m hm))
          rw [step, h.below hlt]
          simp
      · rw [mem_singleton.mp hm] at hrm
        exact absurd hrm hx

theorem Ranked.keepBest_filter_of_keepBest (h : Ranked better rank)
    (hstrict : ∀ {a b : α}, better a b = true → rank b < rank a) (p : α → Bool) :
    ∀ {b : α}, keepBest better l = some b → p b = true → keepBest better (l.filter p) = some b := by
  induction l using List.reverseRecOn with
  | nil => simp
  | append_singleton l x ih =>
    intro b hb hpb
    rw [keepBest_concat] at hb
    rw [filter_append]
    cases hl : keepBest better l with
    | none =>
      rw [hl, step, Option.some.injEq] at hb
      rw [keepBest_eq_none_iff.mp hl, hb]
      simp [hpb, keepBest, step]
    | some c =>
      rw [hl] at hb
      simp only [step] at hb
      split at hb
      · rename_i hbet
        cases hb
        have hx : [x].filter p = [x] := by simp [hpb]
        rw [hx, keepBest_concat]
        cases hf : keepBest better (l.filter p) with
        | none => rfl
        | some d =>
          have hdc := h.rank_le hl d (mem_filter.mp (mem_of_keepBest hf)).1
          rw [step, if_pos (h.above (hdc.trans_lt (hstrict hbet)))]
      · rename_i hbet
        cases hb
        have hkeep := ih hl hpb
        by_cases hx : p x = true
        · have hfx : [x].filter p = [x] := by simp [hx]
          rw [hfx, keepBest_concat, hkeep, step, if_neg hbet]
        · have hfx : [x].filter p = [] := by simp [hx]
          rw [hfx, append_nil, hkeep]

end KeepBest
