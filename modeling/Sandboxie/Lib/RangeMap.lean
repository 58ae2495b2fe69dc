import Mathlib.Algebra.Order.Ring.Int
import Mathlib.Order.Defs.LinearOrder
import Mathlib.Order.Basic
import Mathlib.Data.List.Basic

/-!
# Maps of ranges keyed by their first element

A `RangeMap α` is what an ordered tree of ranges holds when the tree is keyed by
where a range begins: a list of ranges whose first elements strictly increase.
Ranges may overlap or be nested, only equal beginnings are excluded.

* `insert` drops a range whose beginning is already present.
* `findLessEqual m k` is the range with the greatest beginning `≤ k`;
  `findLessEqual_eq_some_iff` says so without the search.
* `merge m n` inserts the ranges of `n` into `m`.  `mem_merge` says what it
  holds, and `findLessEqual_merge` says that a search in it is decided by the two
  searches in the parts.
-/

namespace RangeMap

open List

/-- A range from `first` to `last`, both included.  Nothing says `first ≤ last`. -/
structure Range (α : Type*) where
  first : α
  last : α
deriving DecidableEq, Repr

variable {α : Type*} [LinearOrder α]

def Sorted (l : List (Range α)) : Prop := l.Pairwise (fun x y => x.first < y.first)

instance (l : List (Range α)) : Decidable (Sorted l) :=
  inferInstanceAs (Decidable (l.Pairwise _))

/-! ### Insertion -/

/-- Ordered insertion; a beginning that is present already wins. -/
def insertRange (x : Range α) : List (Range α) → List (Range α)
  | [] => [x]
  | y :: ys =>
    if x.first < y.first then x :: y :: ys
    else if x.first = y.first then y :: ys
    else y :: insertRange x ys

variable {l : List (Range α)}

theorem first_ne_of_sorted_cons {x y : Range α} (h : Sorted (x :: l))
    (hy : y ∈ l) : y.first ≠ x.first :=
  ne_of_gt (rel_of_pairwise_cons h hy)

theorem mem_insertRange {x z : Range α} (h : Sorted l) :
    z ∈ insertRange x l ↔ z ∈ l ∨ (z = x ∧ ∀ y ∈ l, y.first ≠ x.first) := by
  induction l with
  | nil => simp [insertRange]
  | cons y ys ih =>
    have hys : Sorted ys := List.Pairwise.of_cons h
    unfold insertRange
    rcases lt_trichotomy x.first y.first with hlt | heq | hgt
    · have hne : ∀ w ∈ y :: ys, w.first ≠ x.first := by
        intro w hw
        rcases mem_cons.mp hw with rfl | hw
        · exact ne_of_gt hlt
        · exact ne_of_gt (hlt.trans (rel_of_pairwise_cons h hw))
      rw [if_pos hlt, mem_cons]
      tauto
    · have hex : ¬ ∀ w ∈ y :: ys, w.first ≠ x.first := fun hall =>
        hall y mem_cons_self heq.symm
      rw [if_neg (not_lt_of_ge heq.ge), if_pos heq]
      tauto
    · rw [if_neg (not_lt_of_gt hgt), if_neg (ne_of_gt hgt), mem_cons, ih hys,
        mem_cons, forall_mem_cons]
      have hne : y.first ≠ x.first := ne_of_lt hgt
      tauto

theorem sorted_insertRange {x : Range α} (h : Sorted l) :
    Sorted (insertRange x l) := by
  induction l with
  | nil => exact pairwise_singleton _ x
  | cons y ys ih =>
    have hys : Sorted ys := List.Pairwise.of_cons h
    unfold insertRange
    rcases lt_trichotomy x.first y.first with hlt | heq | hgt
    · rw [if_pos hlt]
      refine List.Pairwise.cons (fun w hw => ?_) h
      rcases mem_cons.mp hw with rfl | hw
      · exact hlt
      · exact hlt.trans (rel_of_pairwise_cons h hw)
    · rw [if_neg (not_lt_of_ge heq.ge), if_pos heq]
      exact h
    · rw [if_neg (not_lt_of_gt hgt), if_neg (ne_of_gt hgt)]
      refine List.Pairwise.cons (fun w hw => ?_) (ih hys)
      rcases (mem_insertRange hys).mp hw with hw | ⟨rfl, _⟩
      · exact rel_of_pairwise_cons h hw
      · exact hgt

/-! ### The greatest beginning below a key -/

/-- The last range that begins at or before `k`. -/
def findLE (k : α) : List (Range α) → Option (Range α)
  | [] => none
  | y :: ys => if k < y.first then none else (findLE k ys).or (some y)

theorem findLE_eq_none_iff {k : α} (h : Sorted l) :
    findLE k l = none ↔ ∀ y ∈ l, k < y.first := by
  induction l with
  | nil => simp [findLE]
  | cons y ys ih =>
    unfold findLE
    by_cases hk : k < y.first
    · rw [if_pos hk]
      refine iff_of_true rfl (fun w hw => ?_)
      rcases mem_cons.mp hw with rfl | hw
      · exact hk
      · exact hk.trans (rel_of_pairwise_cons h hw)
    · rw [if_neg hk]
      refine iff_of_false ?_ (fun hall => hk (hall y mem_cons_self))
      cases findLE k ys <;> simp

theorem findLE_eq_some_iff {k : α} {z : Range α} (h : Sorted l) :
    findLE k l = some z ↔
      z ∈ l ∧ z.first ≤ k ∧ ∀ y ∈ l, y.first ≤ k → y.first ≤ z.first := by
  induction l generalizing z with
  | nil => simp [findLE]
  | cons y ys ih =>
    have hys : Sorted ys := List.Pairwise.of_cons h
    have hgt : ∀ w ∈ ys, y.first < w.first := fun w hw => rel_of_pairwise_cons h hw
    unfold findLE
    by_cases hk : k < y.first
    · rw [if_pos hk]
      refine iff_of_false (by simp) ?_
      rintro ⟨hz, hzk, _⟩
      rcases mem_cons.mp hz with rfl | hz
      · exact not_le_of_gt hk hzk
      · exact not_le_of_gt (hk.trans (hgt z hz)) hzk
    · rw [if_neg hk]
      have hyk : y.first ≤ k := not_lt.mp hk
      cases hf : findLE k ys with
      | none =>
        have hno := (findLE_eq_none_iff hys).mp hf
        rw [Option.none_or, Option.some.injEq]
        constructor
        · rintro rfl
          refine ⟨mem_cons_self, hyk, fun w hw hwk => ?_⟩
          rcases mem_cons.mp hw with rfl | hw
          · exact le_rfl
          · exact absurd hwk (not_le_of_gt (hno w hw))
        · rintro ⟨hz, hzk, _⟩
          rcases mem_cons.mp hz with rfl | hz
          · rfl
          · exact absurd hzk (not_le_of_gt (hno z hz))
      | some u =>
        obtain ⟨hu, huk, hmax⟩ := (ih hys).mp hf
        rw [Option.some_or, Option.some.injEq]
        constructor
        · rintro rfl
          refine ⟨mem_cons_of_mem y hu, huk, fun w hw hwk => ?_⟩
          rcases mem_cons.mp hw with rfl | hw
          · exact (hgt u hu).le
          · exact hmax w hw hwk
        · rintro ⟨hz, hzk, hzmax⟩
          rcases mem_cons.mp hz with rfl | hz
          · exact absurd (hzmax u (mem_cons_of_mem _ hu) huk) (not_le_of_gt (hgt u hu))
          · have := (ih hys).mpr ⟨hz, hzk, fun w hw => hzmax w (mem_cons_of_mem y hw)⟩
            rw [hf] at this
            exact Option.some.inj this

end RangeMap

open RangeMap in
/-- Ranges in the order of their beginnings, no two beginning at one place. -/
structure RangeMap (α : Type*) [LinearOrder α] where
  ranges : List (Range α)
  sorted : Sorted ranges := by decide

namespace RangeMap

variable {α : Type*} [LinearOrder α]

instance : DecidableEq (RangeMap α) := fun m n =>
  decidable_of_iff (m.ranges = n.ranges) (by cases m; cases n; simp)

theorem ext_ranges {m n : RangeMap α} (h : m.ranges = n.ranges) : m = n := by
  cases m; cases n; simp_all

instance : Membership (Range α) (RangeMap α) := ⟨fun m x => x ∈ m.ranges⟩

variable {m : RangeMap α}

theorem mem_def {x : Range α} : x ∈ m ↔ x ∈ m.ranges := Iff.rfl

def empty : RangeMap α := ⟨[], List.Pairwise.nil⟩

def count (m : RangeMap α) : Nat := m.ranges.length

def insert (m : RangeMap α) (x : Range α) : RangeMap α :=
  ⟨insertRange x m.ranges, sorted_insertRange m.sorted⟩

def findLessEqual (m : RangeMap α) (k : α) : Option (Range α) := findLE k m.ranges

/-- Insert the ranges of `n`, in order, into `m`. -/
def merge (m n : RangeMap α) : RangeMap α := n.ranges.foldl insert m

theorem count_eq_zero : m.count = 0 ↔ m.ranges = [] := List.length_eq_zero_iff

theorem mem_insert {x z : Range α} :
    z ∈ m.insert x ↔ z ∈ m ∨ (z = x ∧ ∀ y ∈ m, y.first ≠ x.first) :=
  mem_insertRange m.sorted

theorem findLessEqual_eq_none_iff {k : α} :
    m.findLessEqual k = none ↔ ∀ y ∈ m, k < y.first :=
  findLE_eq_none_iff m.sorted

theorem findLessEqual_eq_some_iff {k : α} {z : Range α} :
    m.findLessEqual k = some z ↔ z ∈ m ∧ z.first ≤ k ∧ ∀ y ∈ m, y.first ≤ k → y.first ≤ z.first :=
  findLE_eq_some_iff m.sorted

theorem mem_of_findLessEqual {k : α} {z : Range α}
    (h : m.findLessEqual k = some z) : z ∈ m := (findLessEqual_eq_some_iff.mp h).1

/-! ### Merging -/

theorem mem_foldl_insert {l : List (Range α)} (hl : Sorted l) :
    ∀ {m : RangeMap α} {z : Range α},
      z ∈ l.foldl insert m ↔ z ∈ m ∨ (z ∈ l ∧ ∀ y ∈ m, y.first ≠ z.first) := by
  induction l with
  | nil => simp
  | cons x xs ih =>
    intro m z
    have hxs : Sorted xs := List.Pairwise.of_cons hl
    rw [List.foldl_cons, ih hxs, mem_insert, List.mem_cons]
    constructor
    · rintro ((hz | ⟨rfl, hne⟩) | ⟨hz, hne⟩)
      · exact .inl hz
      · exact .inr ⟨.inl rfl, hne⟩
      · exact .inr ⟨.inr hz, fun y hy => hne y (mem_insert.mpr (.inl hy))⟩
    · rintro (hz | ⟨rfl | hz, hne⟩)
      · exact .inl (.inl hz)
      · exact .inl (.inr ⟨rfl, hne⟩)
      · refine .inr ⟨hz, fun y hy => ?_⟩
        rcases mem_insert.mp hy with hy | ⟨rfl, _⟩
        · exact hne y hy
        · exact (first_ne_of_sorted_cons hl hz).symm

/-- **What a merge holds**: the ranges of the first map, and those of the second that
begin where no range of the first does. -/
theorem mem_merge {m n : RangeMap α} {z : Range α} :
    z ∈ m.merge n ↔ z ∈ m ∨ (z ∈ n ∧ ∀ y ∈ m, y.first ≠ z.first) :=
  mem_foldl_insert n.sorted

theorem merge_ranges_ne_nil {m n : RangeMap α} (h : m.ranges ≠ []) : (m.merge n).ranges ≠ [] := by
  obtain ⟨x, hx⟩ := List.exists_mem_of_ne_nil _ h
  exact List.ne_nil_of_mem (mem_merge.mpr (.inl hx))

/-- The nearer of two ranges below a key: the one that begins later, the first at a tie. -/
def nearer : Option (Range α) → Option (Range α) → Option (Range α)
  | none, y => y
  | x, none => x
  | some x, some y => if x.first < y.first then some y else some x

/-- **A search in a merge is the nearer of the searches in its parts.** -/
theorem findLessEqual_merge (m n : RangeMap α) (k : α) :
    (m.merge n).findLessEqual k = nearer (m.findLessEqual k) (n.findLessEqual k) := by
  cases hm : m.findLessEqual k with
  | none =>
    have hmk := findLessEqual_eq_none_iff.mp hm
    cases hn : n.findLessEqual k with
    | none =>
      refine findLessEqual_eq_none_iff.mpr (fun y hy => ?_)
      rcases mem_merge.mp hy with hy | ⟨hy, _⟩
      · exact hmk y hy
      · exact findLessEqual_eq_none_iff.mp hn y hy
    | some y =>
      obtain ⟨hy, hyk, hmax⟩ := findLessEqual_eq_some_iff.mp hn
      refine findLessEqual_eq_some_iff.mpr ⟨mem_merge.mpr (.inr ⟨hy, fun x hx => ?_⟩), hyk, ?_⟩
      · exact ne_of_gt (hyk.trans_lt (hmk x hx))
      · intro w hw hwk
        rcases mem_merge.mp hw with hw | ⟨hw, _⟩
        · exact absurd hwk (not_le_of_gt (hmk w hw))
        · exact hmax w hw hwk
  | some x =>
    obtain ⟨hx, hxk, hxmax⟩ := findLessEqual_eq_some_iff.mp hm
    cases hn : n.findLessEqual k with
    | none =>
      have hnk := findLessEqual_eq_none_iff.mp hn
      refine findLessEqual_eq_some_iff.mpr ⟨mem_merge.mpr (.inl hx), hxk, ?_⟩
      intro w hw hwk
      rcases mem_merge.mp hw with hw | ⟨hw, _⟩
      · exact hxmax w hw hwk
      · exact absurd hwk (not_le_of_gt (hnk w hw))
    | some y =>
      obtain ⟨hy, hyk, hymax⟩ := findLessEqual_eq_some_iff.mp hn
      simp only [nearer]
      by_cases hxy : x.first < y.first
      · rw [if_pos hxy]
        refine findLessEqual_eq_some_iff.mpr ⟨mem_merge.mpr (.inr ⟨hy, ?_⟩), hyk, ?_⟩
        · intro w hw heq
          exact not_le_of_gt hxy (heq ▸ hxmax w hw (heq ▸ hyk))
        · intro w hw hwk
          rcases mem_merge.mp hw with hw | ⟨hw, _⟩
          · exact (hxmax w hw hwk).trans hxy.le
          · exact hymax w hw hwk
      · rw [if_neg hxy]
        refine findLessEqual_eq_some_iff.mpr ⟨mem_merge.mpr (.inl hx), hxk, ?_⟩
        intro w hw hwk
        rcases mem_merge.mp hw with hw | ⟨hw, _⟩
        · exact hxmax w hw hwk
        · exact (hymax w hw hwk).trans (not_lt.mp hxy)

end RangeMap
