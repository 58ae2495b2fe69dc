import Mathlib.Algebra.Order.Ring.Int
import Mathlib.Data.List.Basic
import Mathlib.Data.List.InsertIdx
import Mathlib.Data.List.Nodup
import Mathlib.Data.List.Perm.Basic

/-!
# Arranging the elements of a list

`move` takes one element to another place.  `buckets` puts the elements in the order of their
rank and keeps the order of those with the same rank.
-/

namespace Arrange

open List

variable {α : Type}

/-! ### Moving one element -/

/-- The element at `i` goes to place `t`. -/
def move (l : List α) (i t : Nat) : List α :=
  match l[i]? with
  | some a => (l.eraseIdx i).insertIdx t a
  | none => l

theorem insertIdx_append (a b : List α) (x : α) :
    (a ++ b).insertIdx a.length x = a ++ x :: b := by
  induction a with
  | nil => rfl
  | cons y a ih =>
    show (y :: (a ++ b)).insertIdx (a.length + 1) x = _
    rw [insertIdx_succ_cons, ih]
    rfl

theorem eraseIdx_append_cons (a b : List α) (x : α) :
    (a ++ x :: b).eraseIdx a.length = a ++ b := by
  rw [eraseIdx_append_of_length_le (Nat.le_refl _), Nat.sub_self]
  rfl

theorem move_left (a b c : List α) (x : α) :
    move (a ++ (b ++ x :: c)) (a.length + b.length) a.length = a ++ x :: (b ++ c) := by
  have hsplit : a ++ (b ++ x :: c) = (a ++ b) ++ x :: c := (append_assoc ..).symm
  have hlen : (a ++ b).length = a.length + b.length := length_append
  unfold move
  rw [hsplit, ← hlen, getElem?_append_right (Nat.le_refl _), Nat.sub_self]
  show ((a ++ b ++ x :: c).eraseIdx (a ++ b).length).insertIdx a.length x = _
  rw [eraseIdx_append_cons, append_assoc, insertIdx_append]

theorem move_right (a b c : List α) (x : α) :
    move (a ++ x :: (b ++ c)) a.length (a.length + b.length) = a ++ (b ++ x :: c) := by
  have hlen : (a ++ b).length = a.length + b.length := length_append
  unfold move
  rw [getElem?_append_right (Nat.le_refl _), Nat.sub_self]
  show ((a ++ x :: (b ++ c)).eraseIdx a.length).insertIdx (a.length + b.length) x = _
  rw [eraseIdx_append_cons, ← append_assoc, ← hlen, insertIdx_append, append_assoc]

theorem move_perm (l : List α) {i t : Nat} (h : i < l.length) (ht : t < l.length) :
    (move l i t).Perm l := by
  unfold move
  rw [getElem?_eq_getElem h]
  have hlen : t ≤ (l.eraseIdx i).length := by
    rw [length_eraseIdx, if_pos h]
    omega
  exact (perm_insertIdx l[i] (l.eraseIdx i) hlen).trans (getElem_cons_eraseIdx_perm h)

theorem move_cases {l : List α} {i t : Nat} (hi : i < l.length) (ht : t < l.length) :
    ∃ a b c x, l[i]? = some x ∧
      (∀ y ∈ b, ∃ j, min i t ≤ j ∧ j ≤ max i t ∧ l[j]? = some y) ∧
      (l = a ++ (b ++ x :: c) ∧ move l i t = a ++ x :: (b ++ c) ∨
        l = a ++ x :: (b ++ c) ∧ move l i t = a ++ (b ++ x :: c)) := by
  have hsplit : l = l.take i ++ l[i] :: l.drop (i + 1) := by
    rw [← List.drop_eq_getElem_cons hi, List.take_append_drop]
  by_cases hle : t ≤ i
  · have hlen : ((l.take i).take t).length = t := by
      rw [List.length_take, List.length_take]
      omega
    have hlen' : ((l.take i).drop t).length = i - t := by
      rw [List.length_drop, List.length_take]
      omega
    have hmid : l = (l.take i).take t ++ ((l.take i).drop t ++ l[i] :: l.drop (i + 1)) := by
      rw [← List.append_assoc, List.take_append_drop]
      exact hsplit
    refine ⟨(l.take i).take t, (l.take i).drop t, l.drop (i + 1), l[i],
      List.getElem?_eq_getElem hi, fun y hy => ?_, Or.inl ⟨hmid, ?_⟩⟩
    · obtain ⟨j, hj⟩ := List.mem_iff_getElem?.mp hy
      have hjlt := (List.getElem?_eq_some_iff.mp hj).1
      refine ⟨t + j, by omega, by omega, ?_⟩
      rw [List.getElem?_drop, List.getElem?_take_of_lt (by omega)] at hj
      exact hj
    · have hmove := move_left ((l.take i).take t) ((l.take i).drop t) (l.drop (i + 1)) l[i]
      rw [← hmid, hlen, hlen', Nat.add_sub_cancel' hle] at hmove
      exact hmove
  · have hlen : (l.take i).length = i := by
      rw [List.length_take]
      omega
    have hlen' : ((l.drop (i + 1)).take (t - i)).length = t - i := by
      rw [List.length_take, List.length_drop]
      omega
    have hmid : l = l.take i ++ l[i] :: ((l.drop (i + 1)).take (t - i) ++
        (l.drop (i + 1)).drop (t - i)) := by
      rw [List.take_append_drop]
      exact hsplit
    refine ⟨l.take i, (l.drop (i + 1)).take (t - i), (l.drop (i + 1)).drop (t - i), l[i],
      List.getElem?_eq_getElem hi, fun y hy => ?_, Or.inr ⟨hmid, ?_⟩⟩
    · obtain ⟨j, hj⟩ := List.mem_iff_getElem?.mp hy
      have hjlt := (List.getElem?_eq_some_iff.mp hj).1
      rw [hlen'] at hjlt
      refine ⟨i + 1 + j, by omega, by omega, ?_⟩
      rw [List.getElem?_take_of_lt hjlt, List.getElem?_drop] at hj
      exact hj
    · have hmove := move_right (l.take i) ((l.drop (i + 1)).take (t - i))
        ((l.drop (i + 1)).drop (t - i)) l[i]
      rw [← hmid, hlen, hlen', Nat.add_sub_cancel' (by omega)] at hmove
      exact hmove

theorem pairwise_move {rank : α → Nat} {l : List α} {i t : Nat} (hi : i < l.length)
    (ht : t < l.length) (hsame : ∀ j x y, l[i]? = some x → l[j]? = some y → min i t ≤ j →
      j ≤ max i t → rank y = rank x) (h : l.Pairwise fun a b => rank a ≤ rank b) :
    (move l i t).Pairwise fun a b => rank a ≤ rank b := by
  obtain ⟨a, b, c, x, hx, hb, hcases⟩ := move_cases hi ht
  have hranks : ∀ y ∈ b, rank y = rank x := by
    intro y hy
    obtain ⟨j, hmin, hmax, hj⟩ := hb y hy
    exact hsame j x y hx hj hmin hmax
  have hmap : (b ++ x :: c).map rank = (x :: (b ++ c)).map rank := by
    clear hcases hb
    induction b with
    | nil => rfl
    | cons y b ih =>
      have hrest := ih fun z hz => hranks z (mem_cons_of_mem y hz)
      rw [cons_append, map_cons, hrest, map_cons, map_cons, cons_append,
        map_cons, hranks y mem_cons_self]
  rw [← pairwise_map] at h ⊢
  rcases hcases with ⟨hl, hmove⟩ | ⟨hl, hmove⟩
  · rw [hl, map_append, hmap] at h
    rw [hmove, map_append]
    exact h
  · rw [hl, map_append, ← hmap] at h
    rw [hmove, map_append]
    exact h

/-! ### Leaving elements out -/

theorem idxOf_filter_le [BEq α] [LawfulBEq α] {p : α → Bool} {a b : α} (ha : p a = true) :
    ∀ {l : List α}, l.idxOf a ≤ l.idxOf b → (l.filter p).idxOf a ≤ (l.filter p).idxOf b := by
  intro l
  induction l with
  | nil => exact fun _ => Nat.le_refl _
  | cons x l ih =>
    intro hle
    by_cases hxa : x = a
    · subst hxa
      rw [filter_cons_of_pos ha, idxOf_cons_self]
      exact Nat.zero_le _
    have hxb : x ≠ b := by
      rintro rfl
      rw [idxOf_cons_self, idxOf_cons_ne _ hxa] at hle
      exact absurd hle (Nat.not_succ_le_zero _)
    rw [idxOf_cons_ne _ hxa, idxOf_cons_ne _ hxb] at hle
    have hrest := ih (Nat.le_of_succ_le_succ hle)
    by_cases hx : p x = true
    · rw [filter_cons_of_pos hx, idxOf_cons_ne _ hxa, idxOf_cons_ne _ hxb]
      exact Nat.succ_le_succ hrest
    · rw [filter_cons_of_neg hx]
      exact hrest

/-! ### Buckets -/

/-- The elements with the ranks below `n`, by their rank. -/
def buckets (rank : α → Nat) (n : Nat) (l : List α) : List α :=
  (List.range n).flatMap fun i => l.filter (rank · = i)

theorem flatMap_eq_range {β : Type} (f : β → List α) : ∀ (l : List β) (g : Nat → List α),
    (∀ (i : Nat) (h : i < l.length), f l[i] = g i) → l.flatMap f =
      (List.range l.length).flatMap g := by
  intro l
  induction l with
  | nil => exact fun _ _ => rfl
  | cons b l ih =>
    intro g h
    rw [flatMap_cons, length_cons, range_succ_eq_map, flatMap_cons,
      flatMap_map, ih (fun i => g (i + 1)) fun i hi => h (i + 1) (Nat.succ_lt_succ hi)]
    exact congrArg (· ++ _) (h 0 (Nat.succ_pos _))

variable {rank : α → Nat} {n : Nat} {l : List α}

theorem mem_buckets {a : α} : a ∈ buckets rank n l ↔ a ∈ l ∧ rank a < n := by
  rw [buckets, mem_flatMap]
  constructor
  · rintro ⟨i, hi, ha⟩
    obtain ⟨hmem, hrank⟩ := mem_filter.mp ha
    rw [of_decide_eq_true hrank]
    exact ⟨hmem, mem_range.mp hi⟩
  · rintro ⟨hmem, hlt⟩
    exact ⟨rank a, mem_range.mpr hlt, mem_filter.mpr ⟨hmem, decide_eq_true rfl⟩⟩

theorem buckets_succ (rank : α → Nat) (n : Nat) (l : List α) :
    buckets rank (n + 1) l = buckets rank n l ++ l.filter (rank · = n) := by
  rw [buckets, range_succ, flatMap_append, flatMap_singleton]
  rfl

theorem buckets_sorted (rank : α → Nat) (n : Nat) (l : List α) :
    (buckets rank n l).Pairwise fun a b => rank a ≤ rank b := by
  induction n with
  | zero => exact List.Pairwise.nil
  | succ n ih =>
    rw [buckets_succ]
    refine pairwise_append.mpr ⟨ih, ?_, ?_⟩
    · refine pairwise_of_forall_mem_list fun a ha b hb => ?_
      have ha' : rank a = n := of_decide_eq_true (mem_filter.mp ha).2
      have hb' : rank b = n := of_decide_eq_true (mem_filter.mp hb).2
      exact Nat.le_of_eq (ha'.trans hb'.symm)
    · intro a ha b hb
      rw [of_decide_eq_true (mem_filter.mp hb).2]
      exact Nat.le_of_lt (mem_buckets.mp ha).2

theorem buckets_nodup (h : l.Nodup) : (buckets rank n l).Nodup := by
  induction n with
  | zero => exact nodup_nil
  | succ n ih =>
    rw [buckets_succ]
    refine nodup_append.mpr ⟨ih, h.filter _, fun a ha b hb hab => ?_⟩
    have hrank := of_decide_eq_true (mem_filter.mp hb).2
    rw [← hab] at hrank
    have hlt := (mem_buckets.mp ha).2
    omega

theorem buckets_perm (h : l.Nodup) (hrank : ∀ a ∈ l, rank a < n) : (buckets rank n l).Perm l := by
  refine (perm_ext_iff_of_nodup (buckets_nodup h) h).mpr fun a => ?_
  rw [mem_buckets]
  exact ⟨And.left, fun ha => ⟨ha, hrank a ha⟩⟩

end Arrange
