import Mathlib.Algebra.Order.Ring.Int
import Mathlib.Data.List.Lex
import Mathlib.Data.List.Sigma

/-!
# Sorted maps

Maps as lists of entries in the order of their keys.  Insertion and lookup are functions on
lists of entries, `SortedMap` is a list that is sorted, and two sorted maps with the same
lookups are equal.
-/

namespace SortedMap

open List

variable {κ ν : Type} [LinearOrder κ]

/-! ### Lists of entries -/

/-- The entry of a key goes to its place, and replaces the one that is there. -/
def insertEntry (k : κ) (v : ν) : List (κ × ν) → List (κ × ν)
  | [] => [(k, v)]
  | (k', v') :: rest =>
    if k < k' then (k, v) :: (k', v') :: rest
    else if k = k' then (k, v) :: rest
    else (k', v') :: insertEntry k v rest

def valueOf (k : κ) : List (κ × ν) → Option ν
  | [] => none
  | (k', v') :: rest => if k = k' then some v' else valueOf k rest

theorem valueOf_insertEntry (k k' : κ) (v : ν) (l : List (κ × ν)) :
    valueOf k (insertEntry k' v l) = if k = k' then some v else valueOf k l := by
  induction l with
  | nil => rfl
  | cons e rest ih =>
    obtain ⟨k₁, v₁⟩ := e
    rw [insertEntry]
    by_cases hlt : k' < k₁
    · rw [if_pos hlt]
      rfl
    rw [if_neg hlt]
    by_cases heq : k' = k₁
    · subst heq
      rw [if_pos rfl]
      by_cases hk : k = k'
      · rw [valueOf, if_pos hk, if_pos hk]
      · rw [valueOf, if_neg hk, if_neg hk, valueOf, if_neg hk]
    · rw [if_neg heq, valueOf, valueOf, ih]
      by_cases hk : k = k₁
      · subst hk
        rw [if_pos rfl, if_neg (Ne.symm heq), if_pos rfl]
      · rw [if_neg hk, if_neg hk]

def Sorted (l : List (κ × ν)) : Prop := l.Pairwise fun a b => a.1 < b.1

theorem mem_insertEntry {k : κ} {v : ν} {e : κ × ν} {l : List (κ × ν)}
    (h : e ∈ insertEntry k v l) : e = (k, v) ∨ e ∈ l := by
  induction l with
  | nil => exact .inl (mem_singleton.mp h)
  | cons e' rest ih =>
    obtain ⟨k₁, v₁⟩ := e'
    rw [insertEntry] at h
    split at h
    · exact (mem_cons.mp h).imp_right id
    · split at h
      · exact (mem_cons.mp h).imp_right (mem_cons_of_mem _)
      · rcases mem_cons.mp h with h | h
        · exact .inr (h ▸ mem_cons_self)
        · exact (ih h).imp_right (mem_cons_of_mem _)

theorem sorted_insertEntry (k : κ) (v : ν) {l : List (κ × ν)} (h : Sorted l) :
    Sorted (insertEntry k v l) := by
  induction l with
  | nil => exact pairwise_singleton _ _
  | cons e rest ih =>
    obtain ⟨k₁, v₁⟩ := e
    have hsplit := pairwise_cons.mp h
    rw [insertEntry]
    by_cases hlt : k < k₁
    · rw [if_pos hlt]
      refine pairwise_cons.mpr ⟨fun e he => ?_, h⟩
      rcases mem_cons.mp he with rfl | he
      · exact hlt
      · exact hlt.trans (hsplit.1 e he)
    · rw [if_neg hlt]
      by_cases heq : k = k₁
      · subst heq
        rw [if_pos rfl]
        exact pairwise_cons.mpr ⟨hsplit.1, hsplit.2⟩
      · rw [if_neg heq]
        refine pairwise_cons.mpr ⟨fun e he => ?_, ih hsplit.2⟩
        rcases mem_insertEntry he with rfl | he
        · exact lt_of_le_of_ne (not_lt.mp hlt) (Ne.symm heq)
        · exact hsplit.1 e he

theorem valueOf_eq_some {k : κ} {v : ν} {l : List (κ × ν)} (h : Sorted l) :
    valueOf k l = some v ↔ (k, v) ∈ l := by
  induction l with
  | nil => exact ⟨fun h => (nomatch h), fun h => absurd h not_mem_nil⟩
  | cons e rest ih =>
    obtain ⟨k₁, v₁⟩ := e
    have hsplit := pairwise_cons.mp h
    rw [valueOf, mem_cons, Prod.mk.injEq]
    by_cases hk : k = k₁
    · subst hk
      rw [if_pos rfl, Option.some.injEq]
      refine ⟨fun hv => .inl ⟨rfl, hv.symm⟩, ?_⟩
      rintro (⟨-, rfl⟩ | hmem)
      · rfl
      · exact absurd (hsplit.1 _ hmem) (lt_irrefl k)
    · rw [if_neg hk, ih hsplit.2]
      exact ⟨.inr, fun hor => hor.resolve_left fun hkv => hk hkv.1⟩

theorem eq_of_valueOf_eq {l l' : List (κ × ν)} (h : Sorted l) (h' : Sorted l')
    (hsame : ∀ k, valueOf k l = valueOf k l') : l = l' := by
  have hmem : ∀ e, e ∈ l ↔ e ∈ l' := by
    rintro ⟨k, v⟩
    rw [← valueOf_eq_some h, ← valueOf_eq_some h', hsame]
  have hperm : l.Perm l' := by
    refine (perm_ext_iff_of_nodup ?_ ?_).mpr hmem
    · exact h.imp fun hlt heq => absurd hlt (by rw [heq]; exact lt_irrefl _)
    · exact h'.imp fun hlt heq => absurd hlt (by rw [heq]; exact lt_irrefl _)
  exact hperm.eq_of_pairwise (fun a b _ _ hab hba => absurd hab (not_lt.mpr hba.le)) h h'

end SortedMap

/-- A map whose entries stand in the order of their keys. -/
structure SortedMap (κ ν : Type) [LinearOrder κ] where
  entries : List (κ × ν)
  sorted : SortedMap.Sorted entries

namespace SortedMap

variable {κ ν : Type} [LinearOrder κ]

instance [DecidableEq ν] : DecidableEq (SortedMap κ ν) := fun m m' =>
  decidable_of_iff (m.entries = m'.entries) (by cases m; cases m'; simp)

def empty : SortedMap κ ν := ⟨[], List.Pairwise.nil⟩

def insert (m : SortedMap κ ν) (k : κ) (v : ν) : SortedMap κ ν :=
  ⟨insertEntry k v m.entries, sorted_insertEntry k v m.sorted⟩

def value (m : SortedMap κ ν) (k : κ) : Option ν := valueOf k m.entries

@[simp] theorem value_empty (k : κ) : (empty : SortedMap κ ν).value k = none := rfl

theorem value_insert (m : SortedMap κ ν) (k k' : κ) (v : ν) :
    (m.insert k' v).value k = if k = k' then some v else m.value k :=
  valueOf_insertEntry k k' v m.entries

/-- The entries whose keys are kept. -/
def filter (p : κ → Bool) (m : SortedMap κ ν) : SortedMap κ ν :=
  ⟨m.entries.filter fun e => p e.1, m.sorted.filter _⟩

def keys (m : SortedMap κ ν) : List κ := m.entries.map Prod.fst

theorem value_eq_some {m : SortedMap κ ν} {k : κ} {v : ν} :
    m.value k = some v ↔ (k, v) ∈ m.entries :=
  valueOf_eq_some m.sorted

theorem value_filter (p : κ → Bool) (m : SortedMap κ ν) (k : κ) :
    (m.filter p).value k = if p k then m.value k else none := by
  apply Option.ext
  intro v
  rw [value_eq_some]
  show (k, v) ∈ m.entries.filter (fun e => p e.1) ↔ _
  rw [List.mem_filter, ← value_eq_some]
  by_cases hp : p k = true
  · simp only [hp, and_true, if_true]
  · simp only [hp, and_false, false_iff, Bool.false_eq_true, if_false]
    exact fun h => nomatch h

theorem mem_keys {m : SortedMap κ ν} {k : κ} : k ∈ m.keys ↔ m.value k ≠ none := by
  rw [keys, List.mem_map, Option.ne_none_iff_exists']
  constructor
  · rintro ⟨⟨k', v⟩, hmem, rfl⟩
    exact ⟨v, value_eq_some.mpr hmem⟩
  · rintro ⟨v, hv⟩
    exact ⟨(k, v), value_eq_some.mp hv, rfl⟩

def values (m : SortedMap κ ν) : List ν := m.entries.map Prod.snd

theorem mem_values {m : SortedMap κ ν} {v : ν} : v ∈ m.values ↔ ∃ k, m.value k = some v := by
  rw [values, List.mem_map]
  constructor
  · rintro ⟨⟨k, v'⟩, hmem, rfl⟩
    exact ⟨k, value_eq_some.mpr hmem⟩
  · rintro ⟨k, hk⟩
    exact ⟨(k, v), value_eq_some.mp hk, rfl⟩

variable {ν' : Type}

/-- The entries whose values a function keeps, with what it makes of them. -/
def mapSome (f : ν → Option ν') (m : SortedMap κ ν) : SortedMap κ ν' where
  entries := m.entries.filterMap fun e => (f e.2).map fun v => (e.1, v)
  sorted := by
    refine List.pairwise_filterMap.mpr (m.sorted.imp ?_)
    intro a b hlt a' ha b' hb
    obtain ⟨v, -, rfl⟩ := Option.map_eq_some_iff.mp ha
    obtain ⟨w, -, rfl⟩ := Option.map_eq_some_iff.mp hb
    exact hlt

theorem value_mapSome (f : ν → Option ν') (m : SortedMap κ ν) (k : κ) :
    (m.mapSome f).value k = (m.value k).bind f := by
  apply Option.ext
  intro v
  rw [value_eq_some, Option.bind_eq_some_iff]
  show (k, v) ∈ m.entries.filterMap (fun e => (f e.2).map fun v => (e.1, v)) ↔ _
  rw [List.mem_filterMap]
  constructor
  · rintro ⟨⟨k', w⟩, hmem, hsome⟩
    obtain ⟨v', hv', hpair⟩ := Option.map_eq_some_iff.mp hsome
    cases hpair
    exact ⟨w, value_eq_some.mpr hmem, hv'⟩
  · rintro ⟨w, hw, hv⟩
    exact ⟨(k, w), value_eq_some.mp hw, by rw [hv]; rfl⟩

@[ext] theorem ext {m m' : SortedMap κ ν} (h : ∀ k, m.value k = m'.value k) : m = m' := by
  obtain ⟨entries, sorted⟩ := m
  obtain ⟨entries', sorted'⟩ := m'
  obtain rfl : entries = entries' := eq_of_valueOf_eq sorted sorted' h
  rfl

end SortedMap
