import Mathlib.Algebra.Order.Ring.Int
import Mathlib.Data.List.Basic

/-!
# Cells of memory

A block of memory as a list of cells.  A store is refused where it would leave the block.  After
a row of stores a cell has what the last one of them that covers it has put there.
-/

namespace Cells

open List Option

variable {α : Type*}

/-- Copies `d` to the cells from `off` on. -/
def splice (m : List α) (off : Nat) (d : List α) : List α :=
  m.take off ++ d ++ m.drop (off + d.length)

def store (m : List α) (off : Nat) (d : List α) : Option (List α) :=
  if off + d.length ≤ m.length then some (splice m off d) else none

/-- Copies `n` cells; nothing where they do not fit. -/
def move (m : List α) (dst src n : Nat) : Option (List α) :=
  if src + n ≤ m.length then store m dst ((m.drop src).take n) else none

def storeAll (m : List α) : List (Nat × List α) → Option (List α)
  | [] => some m
  | s :: ss => (store m s.1 s.2).bind fun m' => storeAll m' ss

def Covers (s : Nat × List α) (i : Nat) : Prop := s.1 ≤ i ∧ i < s.1 + s.2.length

variable {m m' d : List α} {off i : Nat} {s : Nat × List α}

/-! ### One store -/

theorem length_splice (h : off + d.length ≤ m.length) : (splice m off d).length = m.length := by
  simp only [splice, length_append, length_take, length_drop]
  omega

theorem splice_nil : splice m off [] = m := by
  rw [splice, append_nil]
  exact take_append_drop off m

theorem splice_append (a : List α) :
    splice (a ++ m) a.length d = a ++ (d ++ m.drop d.length) := by
  rw [splice, take_left, drop_append, Nat.add_sub_cancel_left,
    drop_eq_nil_of_le (Nat.le_add_right _ _), nil_append, append_assoc]

theorem drop_splice (h : off ≤ m.length) :
    (splice m off d).drop off = d ++ m.drop (off + d.length) := by
  rw [splice, append_assoc]
  exact drop_left' (length_take_of_le h)

theorem getElem?_splice_of_lt (h : off ≤ m.length) (hi : i < off) :
    (splice m off d)[i]? = m[i]? := by
  rw [splice, append_assoc, getElem?_append_left (by rw [length_take]; omega),
    getElem?_take_of_lt hi]

theorem getElem?_splice_of_mem (h : off ≤ m.length) (hi : i < d.length) :
    (splice m off d)[off + i]? = d[i]? := by
  have hlen : (m.take off).length = off := by
    rw [length_take]
    omega
  rw [splice, append_assoc, getElem?_append_right (by omega), hlen,
    Nat.add_sub_cancel_left, getElem?_append_left hi]

theorem getElem?_splice_of_ge (h : off + d.length ≤ m.length) (hi : off + d.length ≤ i) :
    (splice m off d)[i]? = m[i]? := by
  have hlen : (m.take off ++ d).length = off + d.length := by
    rw [length_append, length_take]
    omega
  rw [splice, getElem?_append_right (by omega), hlen, getElem?_drop]
  congr 1
  omega

theorem store_eq (h : off + d.length ≤ m.length) : store m off d = some (splice m off d) :=
  if_pos h

theorem move_eq {dst src n : Nat} (hdst : dst + n ≤ m.length) (hsrc : src + n ≤ m.length) :
    move m dst src n = some (splice m dst ((m.drop src).take n)) := by
  rw [move, if_pos hsrc, store_eq]
  rw [length_take, length_drop]
  omega

theorem store_none (h : m.length < off + d.length) : store m off d = none :=
  if_neg (Nat.not_le.mpr h)

theorem store_some (h : store m off d = some m') :
    off + d.length ≤ m.length ∧ m' = splice m off d := by
  unfold store at h
  split at h
  · rename_i hfit
    exact ⟨hfit, (Option.some.inj h).symm⟩
  · cases h

theorem getElem?_store (h : store m off d = some m') (hi : i < d.length) :
    m'[off + i]? = d[i]? := by
  obtain ⟨hfit, rfl⟩ := store_some h
  exact getElem?_splice_of_mem (by omega) hi

theorem getElem?_store_of_not_covers (h : store m off d = some m') (hi : ¬Covers (off, d) i) :
    m'[i]? = m[i]? := by
  obtain ⟨hfit, rfl⟩ := store_some h
  by_cases hlt : i < off
  · exact getElem?_splice_of_lt (by omega) hlt
  · refine getElem?_splice_of_ge hfit (Nat.not_lt.mp fun hge => hi ⟨by omega, hge⟩)

theorem length_store (h : store m off d = some m') : m'.length = m.length := by
  obtain ⟨hfit, rfl⟩ := store_some h
  exact length_splice hfit

/-! ### A row of stores -/

theorem length_storeAll : ∀ {ss : List (Nat × List α)} {m : List α},
    storeAll m ss = some m' → m'.length = m.length := by
  intro ss
  induction ss with
  | nil =>
    intro m h
    rw [Option.some.inj h]
  | cons s ss ih =>
    intro m h
    obtain ⟨m₁, h₁, hrest⟩ := bind_eq_some_iff.mp h
    exact (ih hrest).trans (length_store h₁)

theorem storeAll_isSome_iff : ∀ {ss : List (Nat × List α)} {m : List α},
    (storeAll m ss).isSome = true ↔ ∀ s ∈ ss, s.1 + s.2.length ≤ m.length := by
  intro ss
  induction ss with
  | nil => exact fun {m} => ⟨fun _ => nofun, fun _ => rfl⟩
  | cons s ss ih =>
    intro m
    rw [storeAll, forall_mem_cons]
    by_cases hfit : s.1 + s.2.length ≤ m.length
    · rw [store_eq hfit, bind_some, ih, length_splice hfit]
      exact (and_iff_right hfit).symm
    · rw [store_none (Nat.not_le.mp hfit)]
      exact ⟨nofun, fun h => absurd h.1 hfit⟩

theorem getElem?_storeAll_of_not_covers : ∀ {ss : List (Nat × List α)} {m : List α},
    storeAll m ss = some m' → (∀ s ∈ ss, ¬Covers s i) → m'[i]? = m[i]? := by
  intro ss
  induction ss with
  | nil =>
    intro m h _
    rw [Option.some.inj h]
  | cons s ss ih =>
    intro m h hcovers
    obtain ⟨m₁, h₁, hrest⟩ := bind_eq_some_iff.mp h
    rw [ih hrest fun t ht => hcovers t (.tail _ ht)]
    exact getElem?_store_of_not_covers h₁ (hcovers s (.head _))

theorem storeAll_append : ∀ {ss ss' : List (Nat × List α)} {m : List α},
    storeAll m (ss ++ ss') = (storeAll m ss).bind fun m' => storeAll m' ss' := by
  intro ss ss'
  induction ss with
  | nil => exact fun {_} => rfl
  | cons s ss ih =>
    intro m
    show (store m s.1 s.2).bind _ = ((store m s.1 s.2).bind _).bind _
    cases store m s.1 s.2 with
    | none => rfl
    | some m₁ => exact ih

theorem getElem?_storeAll_of_last (before after : List (Nat × List α))
    (h : storeAll m (before ++ s :: after) = some m') (hi : i < s.2.length)
    (hafter : ∀ t ∈ after, ¬Covers t (s.1 + i)) : m'[s.1 + i]? = s.2[i]? := by
  rw [storeAll_append] at h
  obtain ⟨m₁, -, hrest⟩ := bind_eq_some_iff.mp h
  obtain ⟨m₂, h₂, hrest⟩ := bind_eq_some_iff.mp hrest
  rw [getElem?_storeAll_of_not_covers hrest hafter]
  exact getElem?_store h₂ hi

/-! ### A string that is changed in place -/

/-- Each cell up to the first zero is changed; with no zero the end of the block is passed. -/
def mapToZero (zero : α → Bool) (f : α → α) : List α → Option (List α)
  | [] => none
  | c :: rest => if zero c then some (c :: rest) else (mapToZero zero f rest).map (f c :: ·)

variable {zero : α → Bool} {f : α → α} {l l' : List α}

theorem mapToZero_isSome_iff :
    (mapToZero zero f l).isSome = true ↔ ∃ c ∈ l, zero c = true := by
  induction l with
  | nil => exact ⟨nofun, fun ⟨_, h, _⟩ => nomatch h⟩
  | cons c rest ih =>
    rw [mapToZero, exists_mem_cons_iff]
    by_cases hc : zero c = true
    · rw [if_pos hc]
      exact ⟨fun _ => Or.inl hc, fun _ => rfl⟩
    · rw [if_neg hc, isSome_map, ih]
      exact (or_iff_right hc).symm

theorem length_mapToZero (h : mapToZero zero f l = some l') : l'.length = l.length := by
  induction l generalizing l' with
  | nil => cases h
  | cons c rest ih =>
    rw [mapToZero] at h
    split at h
    · rw [← Option.some.inj h]
    · obtain ⟨r, hr, rfl⟩ := map_eq_some_iff.mp h
      rw [length_cons, length_cons, ih hr]

theorem mapToZero_zero {c : α} (h : mapToZero zero f l = some l') (hc : zero c = true)
    (hi : l[i]? = some c) : l'[i]? = some c := by
  induction l generalizing l' i with
  | nil => cases h
  | cons b rest ih =>
    rw [mapToZero] at h
    split at h
    · rw [← Option.some.inj h]
      exact hi
    rename_i hb
    obtain ⟨r, hr, rfl⟩ := map_eq_some_iff.mp h
    cases i with
    | zero =>
      rw [Option.some.inj hi] at hb
      exact absurd hc hb
    | succ i =>
      rw [getElem?_cons_succ] at hi ⊢
      exact ih hr hi

theorem mapToZero_eq (h : ∃ c ∈ l, zero c = true) : mapToZero zero f l =
    some ((l.takeWhile fun c => !zero c).map f ++ l.dropWhile fun c => !zero c) := by
  induction l with
  | nil =>
    obtain ⟨c, hc, -⟩ := h
    cases hc
  | cons c l ih =>
    rw [mapToZero, takeWhile_cons, dropWhile_cons]
    by_cases hc : zero c = true
    · rw [hc]
      rfl
    · have hrest := ((exists_mem_cons_iff ..).mp h).resolve_left hc
      rw [if_neg hc, ih hrest, eq_false_of_ne_true hc]
      rfl

end Cells
