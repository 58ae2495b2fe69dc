import Mathlib.Algebra.Order.Ring.Int
import Mathlib.Data.List.Induction

/-!
# Scans through a buffer

A pointer into a buffer is an offset, and reading outside of the buffer gives `none`.  The
scans go over the cells of a kind (`skip`), look for a cell up to the terminator (`find`) and
go back over the cells of a kind (`back`); `slice` is what stands between two pointers, which
there is only when they are in order.

`Rest` is the text from a pointer up to the terminator, and each scan of it stays inside.
-/

namespace Scan

open List

variable {α : Type}

/-- The first place at which the property does not hold. -/
def skipFrom (p : α → Bool) : List α → Nat → Option Nat
  | [], _ => none
  | c :: rest, i => if p c then skipFrom p rest (i + 1) else some i

def skip (p : α → Bool) (buf : List α) (i : Nat) : Option Nat := skipFrom p (buf.drop i) i

/-- The first place of a cell, if it is there before the terminator. -/
def findFrom [DecidableEq α] (zero c : α) : List α → Nat → Option (Option Nat)
  | [], _ => none
  | x :: rest, i =>
    if x = c then some (some i) else if x = zero then some none else findFrom zero c rest (i + 1)

def find [DecidableEq α] (zero c : α) (buf : List α) (i : Nat) : Option (Option Nat) :=
  findFrom zero c (buf.drop i) i

/-- Going back from a place, at most to another one, while the property holds of the cell in
front. -/
def back (p : α → Bool) (buf : List α) (low : Nat) : Nat → Option Nat
  | 0 => some 0
  | i + 1 =>
    if i + 1 ≤ low then some (i + 1)
    else
      match buf[i]? with
      | none => none
      | some c => if p c then back p buf low i else some (i + 1)

/-- The cells between two places. -/
def slice (buf : List α) (start stop : Nat) : Option (List α) :=
  if stop < start ∨ buf.length < stop then none else some ((buf.drop start).take (stop - start))

/-! ### What the scans find -/

theorem skipFrom_append {p : α → Bool} {zero : α} (hz : p zero = false) (s t : List α) (i : Nat) :
    skipFrom p (s ++ zero :: t) i = some (i + (s.takeWhile p).length) := by
  induction s generalizing i with
  | nil =>
    rw [nil_append, skipFrom, if_neg (by simp [hz])]
    rfl
  | cons x s ih =>
    rw [cons_append, skipFrom]
    by_cases hx : p x = true
    · rw [if_pos hx, ih, takeWhile_cons_of_pos hx, length_cons]
      congr 1
      omega
    · rw [if_neg hx, takeWhile_cons_of_neg hx]
      rfl

theorem findFrom_append [DecidableEq α] {zero c : α} {s : List α} (hc : c ∉ s) (hz : zero ∉ s)
    (t : List α) (i : Nat) :
    findFrom zero c (s ++ t) i = findFrom zero c t (i + s.length) := by
  induction s generalizing i with
  | nil => rfl
  | cons x s ih =>
    rw [mem_cons, not_or] at hc hz
    rw [cons_append, findFrom, if_neg (Ne.symm hc.1), if_neg (Ne.symm hz.1),
      ih hc.2 hz.2, length_cons]
    congr 1
    omega

theorem findFrom_total [DecidableEq α] {zero c : α} {t : List α} (hz : zero ∈ t) (i : Nat) :
    findFrom zero c t i = some none ∨ ∃ k, findFrom zero c t i = some (some k) ∧ i ≤ k := by
  induction t generalizing i with
  | nil => cases hz
  | cons x t ih =>
    rw [findFrom]
    by_cases hx : x = c
    · exact .inr ⟨i, if_pos hx, Nat.le_refl i⟩
    · rw [if_neg hx]
      by_cases hxz : x = zero
      · exact .inl (if_pos hxz)
      · rw [if_neg hxz]
        rcases ih ((mem_cons.mp hz).resolve_left (Ne.symm hxz)) (i + 1) with h | ⟨k, h, hk⟩
        · exact .inl h
        · exact .inr ⟨k, h, by omega⟩

theorem back_spec {p : α → Bool} {buf : List α} {low : Nat} (s : List α) {t : List α}
    (h : buf.drop low = s ++ t) :
    back p buf low (low + s.length) = some (low + (s.reverse.dropWhile p).length) := by
  induction s using List.reverseRecOn generalizing t with
  | nil =>
    rw [length_nil, Nat.add_zero]
    cases low with
    | zero => rfl
    | succ low =>
      rw [back, if_pos (Nat.le_refl _)]
      rfl
  | append_singleton s c ih =>
    have hget : buf[low + s.length]? = some c := by
      rw [← getElem?_drop, h]
      simp
    rw [length_append, length_singleton, ← Nat.add_assoc, back, if_neg (by omega), hget,
      reverse_append, reverse_singleton, singleton_append]
    dsimp only
    by_cases hc : p c = true
    · rw [if_pos hc, dropWhile_cons_of_pos hc]
      exact ih (t := c :: t) (by rw [h, append_assoc]; rfl)
    · rw [if_neg hc, dropWhile_cons_of_neg hc, length_cons, length_reverse]
      rfl

/-! ### Texts -/

/-- The text from a pointer on, up to the terminator. -/
def Rest (zero : α) (buf : List α) (ptr : Nat) (s : List α) : Prop :=
  zero ∉ s ∧ ∃ t, buf.drop ptr = s ++ zero :: t

namespace Rest

variable {zero : α} {buf : List α} {ptr : Nat} {s u : List α}

theorem move (h : Rest zero buf ptr (s ++ u)) : Rest zero buf (ptr + s.length) u := by
  obtain ⟨hz, t, ht⟩ := h
  refine ⟨fun hmem => hz (mem_append_right s hmem), t, ?_⟩
  rw [← drop_drop, ht, append_assoc, drop_left]

theorem cell (h : Rest zero buf ptr s) : buf[ptr]? = some (s.headD zero) := by
  obtain ⟨hz, t, ht⟩ := h
  have hcell : (buf.drop ptr)[0]? = some (s.headD zero) := by
    rw [ht]
    cases s <;> rfl
  rwa [getElem?_drop, Nat.add_zero] at hcell

theorem length_le (h : Rest zero buf ptr s) : ptr + s.length < buf.length := by
  obtain ⟨hz, t, ht⟩ := h
  have hlen := congrArg List.length ht
  rw [length_drop, length_append, length_cons] at hlen
  omega

theorem skip_eq {p : α → Bool} (h : Rest zero buf ptr s) (hz : p zero = false) :
    skip p buf ptr = some (ptr + (s.takeWhile p).length) := by
  obtain ⟨_, t, ht⟩ := h
  rw [skip, ht, skipFrom_append hz]

theorem find_eq [DecidableEq α] {c : α} (h : Rest zero buf ptr (s ++ c :: u)) (hc : c ∉ s) :
    find zero c buf ptr = some (some (ptr + s.length)) := by
  obtain ⟨hz, t, ht⟩ := h
  rw [find, ht, append_assoc,
    findFrom_append hc (fun hmem => hz (mem_append_left _ hmem)), cons_append, findFrom,
    if_pos rfl]

theorem find_none [DecidableEq α] {c : α} (h : Rest zero buf ptr s) (hc : c ∉ s) (hne : c ≠ zero) :
    find zero c buf ptr = some none := by
  obtain ⟨hz, t, ht⟩ := h
  rw [find, ht, findFrom_append hc hz, findFrom, if_neg (Ne.symm hne), if_pos rfl]

theorem find_zero [DecidableEq α] (h : Rest zero buf ptr s) :
    find zero zero buf ptr = some (some (ptr + s.length)) := by
  obtain ⟨hz, t, ht⟩ := h
  rw [find, ht, findFrom_append hz hz, findFrom, if_pos rfl]

theorem find_beyond [DecidableEq α] {c : α} (h : Rest zero buf ptr (s ++ u)) (hc : c ∉ s) :
    find zero c buf ptr = some none ∨
      ∃ k, find zero c buf ptr = some (some k) ∧ ptr + s.length ≤ k := by
  obtain ⟨hz, t, ht⟩ := h
  rw [find, ht, append_assoc,
    findFrom_append hc (fun hmem => hz (mem_append_left _ hmem))]
  exact findFrom_total (by simp) _

theorem back_eq {p : α → Bool} (h : Rest zero buf ptr (s ++ u)) :
    back p buf ptr (ptr + s.length) = some (ptr + (s.reverse.dropWhile p).length) := by
  obtain ⟨_, t, ht⟩ := h
  exact back_spec s (by rw [ht, append_assoc])

theorem slice_eq {n k : Nat} (h : Rest zero buf ptr s) (hn : n ≤ s.length) :
    slice buf (ptr + k) (ptr + n) = if n < k then none else some ((s.take n).drop k) := by
  have hlen := h.length_le
  obtain ⟨_, t, ht⟩ := h
  rw [slice]
  by_cases hk : n < k
  · rw [if_pos (.inl (by omega)), if_pos hk]
  · rw [if_neg (by omega), if_neg hk, ← drop_drop, ht, drop_take]
    have hnk : ptr + n - (ptr + k) = n - k := by omega
    rw [hnk, drop_append_of_le_length (by omega),
      take_append_of_le_length (by rw [length_drop]; omega)]

end Rest

end Scan
