import Sandboxie.Common.Text
import Sandboxie.Lib.ChainMap

/-!
# Maps with strings as keys

`common/map.c` with `str_map_hash` and `str_map_match`: the hash is that of the string as it
is written, and keys match when they are the same without regard to case.
-/

namespace Sandboxie

open Text

def strMapHash (s : List WChar) : UInt32 :=
  s.foldl (fun hash c => ((hash <<< 5) + hash) ^^^ UInt32.ofNat c) 5381

/-- The hash of a node whose key is `name x`. -/
def nodeHash {α : Type} (name : α → List WChar) (x : α) : Nat := (strMapHash (name x)).toNat

/-- A map whose nodes have their key from `name`. -/
abbrev StrMap {α : Type} (name : α → List WChar) := ChainMap (nodeHash name)

variable {α : Type} {name : α → List WChar} (towlower : WChar → WChar)

/-- The name is found under `q`: the hashes are equal, and `str_map_match` is true. -/
def sameKey (q n : List WChar) : Bool := strMapHash n == strMapHash q && sameNoCase towlower n q

namespace StrMap

def mapAppend (m : StrMap name) (x : α) : StrMap name := ChainMap.add m x true

def mapInsert (m : StrMap name) (x : α) : StrMap name := ChainMap.add m x false

def mapGet (m : StrMap name) (q : List WChar) : Option α :=
  ChainMap.get m (strMapHash q).toNat fun x => sameNoCase towlower (name x) q

def mapRemove (m : StrMap name) (q : List WChar) : StrMap name :=
  ChainMap.remove m (strMapHash q).toNat fun x => sameNoCase towlower (name x) q

/-- `map_next` from `map_key_iter` on. -/
def keyIter (m : StrMap name) (q : List WChar) : List α :=
  ChainMap.keyed (fun x y => sameNoCase towlower (name y) (name x)) m (strMapHash q).toNat
    fun x => sameNoCase towlower (name x) q

end StrMap

/-! ### Keys -/

theorem sameNoCase_iff {s t : List WChar} :
    sameNoCase towlower s t = true ↔ s.map towlower = t.map towlower := beq_iff_eq

theorem sameNoCase_refl (s : List WChar) : sameNoCase towlower s s = true := beq_self_eq_true _

theorem sameNoCase_comm (s t : List WChar) : sameNoCase towlower s t = sameNoCase towlower t s :=
  Bool.eq_iff_iff.mpr
    ((sameNoCase_iff towlower).trans (eq_comm.trans (sameNoCase_iff towlower).symm))

variable {towlower}

theorem sameNoCase_trans {s t u : List WChar} (h : sameNoCase towlower s t = true)
    (h' : sameNoCase towlower t u = true) : sameNoCase towlower s u = true :=
  (sameNoCase_iff towlower).mpr
    (((sameNoCase_iff towlower).mp h).trans ((sameNoCase_iff towlower).mp h'))

theorem sameNoCase_congr {s t : List WChar} (h : sameNoCase towlower s t = true)
    (u : List WChar) : sameNoCase towlower u s = sameNoCase towlower u t := by
  rw [sameNoCase, sameNoCase, (sameNoCase_iff towlower).mp h]

theorem sameKey_iff {q n : List WChar} : sameKey towlower q n = true ↔
    strMapHash n = strMapHash q ∧ sameNoCase towlower n q = true := by
  rw [sameKey, Bool.and_eq_true, beq_iff_eq]

theorem sameKey_refl (q : List WChar) : sameKey towlower q q = true :=
  sameKey_iff.mpr ⟨rfl, sameNoCase_refl towlower q⟩

theorem sameKey_comm (q n : List WChar) : sameKey towlower q n = sameKey towlower n q := by
  rw [sameKey, sameKey, sameNoCase_comm, Bool.beq_comm]

theorem sameKey_congr {q q' : List WChar} (h : sameKey towlower q q' = true)
    (n : List WChar) : sameKey towlower q n = sameKey towlower q' n := by
  obtain ⟨hhash, hmatch⟩ := sameKey_iff.mp h
  rw [sameKey, sameKey, hhash, sameNoCase_congr hmatch]

theorem sameKey_trans {q s t : List WChar} (h : sameKey towlower q s = true)
    (h' : sameKey towlower q t = true) : sameKey towlower s t = true := by
  rw [← sameKey_congr h]
  exact h'

/-! ### The operations -/

namespace StrMap

/-- The nodes of the hash of `q`, in the order of their chain. -/
def nodesFor (m : StrMap name) (q : List WChar) : List α := m.withHash (strMapHash q).toNat

variable {m : StrMap name} {q : List WChar} {x : α}

theorem mem_nodesFor :
    x ∈ m.nodesFor q ↔ x ∈ m.nodes ∧ strMapHash (name x) = strMapHash q := by
  rw [nodesFor, ChainMap.mem_withHash, nodeHash, UInt32.toNat_inj]

/-- **`map_get`** finds a node exactly when one with the key is there. -/
theorem mapGet_isSome_iff :
    (m.mapGet towlower q).isSome = true ↔ ∃ x ∈ m.nodes, sameKey towlower q (name x) = true := by
  rw [mapGet, ChainMap.get_eq, List.find?_isSome]
  refine ⟨fun h => ?_, fun h => ?_⟩
  · obtain ⟨x, hx, hmatch⟩ := h
    obtain ⟨hmem, hhash⟩ := mem_nodesFor.mp hx
    exact ⟨x, hmem, sameKey_iff.mpr ⟨hhash, hmatch⟩⟩
  · obtain ⟨x, hx, hkey⟩ := h
    obtain ⟨hhash, hmatch⟩ := sameKey_iff.mp hkey
    exact ⟨x, mem_nodesFor.mpr ⟨hx, hhash⟩, hmatch⟩

theorem mapGet_mem (h : m.mapGet towlower q = some x) :
    x ∈ m.nodes ∧ sameKey towlower q (name x) = true := by
  rw [mapGet, ChainMap.get_eq] at h
  obtain ⟨hmem, hhash⟩ := mem_nodesFor.mp (List.mem_of_find?_eq_some h)
  have hmatch := List.find?_some h
  exact ⟨hmem, sameKey_iff.mpr ⟨hhash, hmatch⟩⟩

theorem keyIter_eq (m : StrMap name) (q : List WChar) :
    m.keyIter towlower q = (m.nodesFor q).filter fun x => sameNoCase towlower (name x) q := by
  refine ChainMap.keyed_eq fun x hx => ?_
  funext y
  exact sameNoCase_congr hx (name y)

theorem mem_keyIter :
    x ∈ m.keyIter towlower q ↔ x ∈ m.nodes ∧ sameKey towlower q (name x) = true := by
  rw [keyIter_eq, List.mem_filter, mem_nodesFor, sameKey_iff, and_assoc]

inductive Op (α : Type)
  | append (x : α)
  | insert (x : α)
  | remove (q : List WChar)
  | resize (nbuckets : Nat) (h : 0 < nbuckets)

variable (towlower) in
def step (m : StrMap name) : Op α → StrMap name
  | .append x => m.mapAppend x
  | .insert x => m.mapInsert x
  | .remove q => m.mapRemove towlower q
  | .resize nbuckets _ => ChainMap.resize m nbuckets

variable (towlower name) in
def build (ops : List (Op α)) : StrMap name := ops.foldl (step towlower) ChainMap.empty

end StrMap

variable (towlower) in
/-- When an element has the name without regard to case, one of them has it under the hash
of `q`. -/
def Spelled (name : α → List WChar) (l : List α) (q : List WChar) : Prop :=
  (∃ x ∈ l, sameNoCase towlower (name x) q = true) →
    ∃ x ∈ l, sameNoCase towlower (name x) q = true ∧ strMapHash (name x) = strMapHash q

theorem sameKey_iff' {q n : List WChar} : sameKey towlower q n = true ↔
    sameNoCase towlower n q = true ∧ strMapHash n = strMapHash q :=
  sameKey_iff.trans and_comm

theorem lookup_iff_spelled {name : α → List WChar} {l : List α} {q : List WChar} :
    ((∃ x ∈ l, sameKey towlower q (name x) = true) ↔
      ∃ x ∈ l, sameNoCase towlower (name x) q = true) ↔ Spelled towlower name l q := by
  have hkey : (∃ x ∈ l, sameKey towlower q (name x) = true) ↔
      ∃ x ∈ l, sameNoCase towlower (name x) q = true ∧ strMapHash (name x) = strMapHash q :=
    exists_congr fun x => and_congr_right fun _ => sameKey_iff'
  rw [hkey]
  refine ⟨fun h => h.mpr, fun h => ⟨fun hex => ?_, h⟩⟩
  obtain ⟨x, hx, hmatch, _⟩ := hex
  exact ⟨x, hx, hmatch⟩

end Sandboxie
