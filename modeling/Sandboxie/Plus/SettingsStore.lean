import Sandboxie.Common.Text
import Sandboxie.Lib.SortedMap

/-!
# The settings store

`MiscHelpers/Common/Settings.cpp` on a `QSettings`: values under keys with sections.  A key
that is removed takes the keys below it with it.  The keys below `History/` are no part of a
snapshot.

A key stands for its sections, so that doubled slashes and those at the ends make no
difference, as `QSettings` has it.  Keys are compared as they are written.
-/

namespace Sandboxie.History

open List

abbrev QString := List WChar

def text (s : String) : QString := wide s.toList

/-! ### Keys -/

/-- The sections of a key, which slashes separate, behind a section that has begun. -/
def sections : QString → QString → List QString
  | [], current => if current = [] then [] else [current]
  | c :: rest, current =>
    if c = 47 then if current = [] then sections rest [] else current :: sections rest []
    else sections rest (current ++ [c])

/-- A key that `QSettings` has values for. -/
abbrev Key := { sections : List QString // sections ≠ [] }

/-- The key that a text names, if it names one. -/
def keyOf (s : QString) : Option Key :=
  if h : sections s [] = [] then none else some ⟨sections s [], h⟩

namespace Key

def isUnder (k k' : Key) : Bool := k'.val.isPrefixOf k.val

/-- `startsWith("History/")` -/
def isHidden (k : Key) : Bool :=
  match k.val with
  | first :: _ :: _ => first = text "History"
  | _ => false

/-- The key `History` itself. -/
def history : Key := ⟨[text "History"], List.cons_ne_nil _ _⟩

def size (k : Key) : Nat := (k.val.map List.length).sum + (k.val.length - 1)

theorem isUnder_self (k : Key) : k.isUnder k = true :=
  isPrefixOf_iff_prefix.mpr prefix_rfl

theorem eq_history {k k' : Key} (hunder : k.isUnder k' = true) (hhidden : k.isHidden = true)
    (hvisible : k'.isHidden = false) : k' = history := by
  obtain ⟨l, hl⟩ := k
  obtain ⟨l', hl'⟩ := k'
  have hpart : l' <+: l := isPrefixOf_iff_prefix.mp hunder
  match l, l' with
  | [], _ => exact absurd rfl hl
  | _, [] => exact absurd rfl hl'
  | [a], _ => exact nomatch hhidden
  | a :: b :: rest, [c] =>
    obtain ⟨rfl, -⟩ := cons_prefix_cons.mp hpart
    have ha : c = text "History" := of_decide_eq_true hhidden
    exact Subtype.ext (congrArg (fun s => [s]) ha)
  | a :: b :: rest, c :: d :: rest' =>
    obtain ⟨rfl, -⟩ := cons_prefix_cons.mp hpart
    have hboth : (Key.isHidden ⟨c :: d :: rest', hl'⟩) = Key.isHidden ⟨c :: b :: rest, hl⟩ := rfl
    rw [hboth, hhidden] at hvisible
    exact Bool.noConfusion hvisible

end Key

/-! ### Values -/

variable {V : Type}

/-- The values of a `QSettings`, and a `QVariantMap`. -/
abbrev Store (V : Type) := SortedMap Key V

namespace Store

/-- `QSettings::remove` of a key. -/
def remove (k : Key) (s : Store V) : Store V := s.filter fun k' => !k'.isUnder k

def snapshotValues (s : Store V) : Store V := s.filter fun k => !k.isHidden

/-- The loop of `CSettings::ApplySnapshot` that removes what the snapshot does not have. -/
def removeOthers (values : Store V) (keys : List Key) (s : Store V) : Store V :=
  keys.foldl (fun s k => if k.isHidden = false ∧ values.value k = none then s.remove k else s) s

/-- The values that `CSettings::ApplySnapshot` leaves. -/
def applySnapshot (values s : Store V) : Store V :=
  values.entries.foldl (fun s e => s.insert e.1 e.2) (removeOthers values s.keys s)

theorem value_remove (k k' : Key) (s : Store V) :
    (s.remove k).value k' = if k'.isUnder k then none else s.value k' := by
  rw [remove, SortedMap.value_filter]
  cases k'.isUnder k <;> rfl

theorem value_snapshotValues (s : Store V) (k : Key) :
    s.snapshotValues.value k = if k.isHidden then none else s.value k := by
  rw [snapshotValues, SortedMap.value_filter]
  cases k.isHidden <;> rfl

theorem value_removeOthers (values : Store V) (k : Key) : ∀ (keys : List Key) (s : Store V),
    (removeOthers values keys s).value k =
      if ∃ k' ∈ keys, (k'.isHidden = false ∧ values.value k' = none) ∧ k.isUnder k' = true then none
      else s.value k := by
  intro keys
  induction keys with
  | nil =>
    intro s
    rw [if_neg]
    · rfl
    · rintro ⟨k', hmem, -⟩
      exact not_mem_nil hmem
  | cons k' keys ih =>
    intro s
    have hcons : removeOthers values (k' :: keys) s = removeOthers values keys
        (if k'.isHidden = false ∧ values.value k' = none then s.remove k' else s) := rfl
    rw [hcons, ih]
    by_cases hmore : ∃ k'' ∈ keys, (k''.isHidden = false ∧ values.value k'' = none) ∧
        k.isUnder k'' = true
    · obtain ⟨k'', hmem, hfacts⟩ := hmore
      rw [if_pos ⟨k'', hmem, hfacts⟩, if_pos ⟨k'', mem_cons_of_mem k' hmem, hfacts⟩]
    rw [if_neg hmore]
    by_cases hother : k'.isHidden = false ∧ values.value k' = none
    · rw [if_pos hother, value_remove]
      by_cases hunder : k.isUnder k' = true
      · rw [if_pos hunder, if_pos ⟨k', mem_cons_self, hother, hunder⟩]
      · rw [if_neg hunder, if_neg]
        rintro ⟨k'', hmem, hfacts⟩
        rcases mem_cons.mp hmem with rfl | hmem
        · exact hunder hfacts.2
        · exact hmore ⟨k'', hmem, hfacts⟩
    · rw [if_neg hother, if_neg]
      rintro ⟨k'', hmem, hfacts⟩
      rcases mem_cons.mp hmem with rfl | hmem
      · exact hother hfacts.1
      · exact hmore ⟨k'', hmem, hfacts⟩

theorem value_insertAll (k : Key) : ∀ (entries : List (Key × V)) (s : Store V),
    SortedMap.Sorted entries →
      (entries.foldl (fun s e => s.insert e.1 e.2) s).value k =
        (SortedMap.valueOf k entries).or (s.value k) := by
  intro entries
  induction entries with
  | nil => exact fun _ _ => rfl
  | cons e entries ih =>
    intro s hsorted
    have hsplit := pairwise_cons.mp hsorted
    rw [foldl_cons, ih _ hsplit.2, SortedMap.value_insert, SortedMap.valueOf]
    by_cases hk : k = e.1
    · subst hk
      have hnone : SortedMap.valueOf e.1 entries = none := by
        cases hvalue : SortedMap.valueOf e.1 entries with
        | none => rfl
        | some w =>
          have hmem := (SortedMap.valueOf_eq_some hsplit.2).mp hvalue
          exact absurd (hsplit.1 _ hmem) (lt_irrefl e.1)
      rw [hnone, if_pos rfl, if_pos rfl]
      rfl
    · rw [if_neg hk, if_neg hk]

theorem snapshotValues_applySnapshot {values s : Store V}
    (hvalues : ∀ k, k.isHidden = true → values.value k = none) :
    (applySnapshot values s).snapshotValues = values := by
  ext1 k
  have happly : (applySnapshot values s).value k =
      (values.value k).or ((removeOthers values s.keys s).value k) :=
    value_insertAll k values.entries _ values.sorted
  rw [value_snapshotValues]
  by_cases hhidden : k.isHidden = true
  · rw [if_pos hhidden, hvalues k hhidden]
  rw [if_neg hhidden, happly, value_removeOthers]
  rw [Bool.not_eq_true] at hhidden
  cases hvalue : values.value k with
  | some v => rfl
  | none =>
    rw [Option.none_or]
    by_cases hmem : k ∈ s.keys
    · rw [if_pos ⟨k, hmem, ⟨hhidden, hvalue⟩, k.isUnder_self⟩]
    · have hnone := not_not.mp (mt SortedMap.mem_keys.mpr hmem)
      rw [hnone]
      split_ifs <;> rfl

theorem value_applySnapshot_hidden {values s : Store V}
    (hvalues : ∀ k, k.isHidden = true → values.value k = none)
    (hhistory : s.value Key.history = none ∨ values.value Key.history ≠ none) {k : Key}
    (hhidden : k.isHidden = true) : (applySnapshot values s).value k = s.value k := by
  have happly : (applySnapshot values s).value k =
      (values.value k).or ((removeOthers values s.keys s).value k) :=
    value_insertAll k values.entries _ values.sorted
  rw [happly, hvalues k hhidden, Option.none_or, value_removeOthers, if_neg]
  rintro ⟨k', hmem, ⟨hvisible, hnone⟩, hunder⟩
  obtain rfl := Key.eq_history hunder hhidden hvisible
  rcases hhistory with hs | hv
  · exact SortedMap.mem_keys.mp hmem hs
  · exact hv hnone

end Store

end Sandboxie.History
