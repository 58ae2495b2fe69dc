import Sandboxie.Dll.KeyDel
import Sandboxie.Lib.SortedList

/-!
# The merge of two registry keys

The lists of subkeys and values that a program of a box gets of a key, from the true key and
from the copy of it in the box (`key_merge.c`).  The true key is read into a cached list, and the
entries of the copy key are laid over it: a copy replaces what has the same name without case,
and one with a delete mark removes it.

`Key_MergeSubkeys` takes only the names over from the cached list, so the other fields of these
entries are what the memory held before.
-/

namespace Sandboxie.KeyMerge

open Text SortedList List

structure KeyNodeInformation where
  name : List WChar
  lastWriteTime : Int
  titleIndex : Nat
  classOffset : Nat
  classLength : Nat

structure KeyValueFullInformation where
  name : List WChar
  type : Nat
  data : List Nat

/-- A status that is not `STATUS_SUCCESS`. -/
abbrev NTSTATUS := Nat

/-- What the system answers for a handle: the time of the key, and the entries one after the
other, or the status of the call that fails.  A buffer that is too small is made larger. -/
structure KeyHandle where
  lastWriteTime : Except NTSTATUS Int
  subkeys : Except NTSTATUS (List KeyNodeInformation)
  values : Except NTSTATUS (List KeyValueFullInformation)

/-- `KEY_MERGE_SUBKEY` -/
structure Subkey where
  name : List WChar
  lastWriteTime : Int
  titleOrClass : Bool
deriving DecidableEq

/-- `KEY_MERGE_VALUE` -/
structure Value where
  name : List WChar
  dataType : Nat
  data : List Nat
deriving DecidableEq

/-- `KEY_MERGE` -/
structure Merge where
  name : List WChar
  lastWriteTime : Int
  subkeys : List Subkey
  values : List Value

/-- The settings of the process, and its tree of deleted keys and values. -/
structure Env where
  towlower : WChar → WChar
  keyDeleteV2 : Bool
  root : PathTree.PathNodes

section Merge

variable (env : Env)

/-- `_wcsicmp` compares these, up to the terminators. -/
def fold (name : List WChar) : List WChar := (cut name).map env.towlower

/-- `Key_IsDeletedEx_v2` for a subkey or a value of a key, if `Key_Delete_v2` is set. -/
def isDeleted (truePath name : List WChar) (isValue : Bool) : Bool :=
  env.keyDeleteV2 &&
    PathTree.keyIsDeletedEx env.towlower env.root truePath (some (cut name)) isValue ≠ 0

def isDeleteMark (lastWriteTime : Int) : Bool := lastWriteTime = 0x01B01234DEAD44A0

def tzuk : Nat := 0x786F6273

def titleOrClass (info : KeyNodeInformation) : Bool :=
  info.titleIndex ≠ 0 || info.classOffset ≠ 0xFFFFFFFF || info.classLength ≠ 0

def subkeyOf (info : KeyNodeInformation) : Subkey :=
  { name := info.name, lastWriteTime := info.lastWriteTime, titleOrClass := titleOrClass info }

def valueOf (info : KeyValueFullInformation) : Value :=
  { name := info.name, dataType := info.type, data := info.data }

/-- A round of `Key_MergeCacheSubkeys` -/
def cacheSubkey (truePath : List WChar) (subkeys : List Subkey) (info : KeyNodeInformation) :
    List Subkey :=
  if isDeleted env truePath info.name false then subkeys
  else insertSorted (fun s => fold env s.name) (subkeyOf info) subkeys

/-- `Key_MergeCacheSubkeys` -/
def mergeCacheSubkeys (merge : Merge) (trueHandle : KeyHandle) : Except NTSTATUS Merge := do
  let infos ← trueHandle.subkeys
  pure { merge with subkeys := infos.foldl (cacheSubkey env merge.name) merge.subkeys }

/-- A round of `Key_MergeCacheValues` -/
def cacheValue (truePath : List WChar) (values : List Value) (info : KeyValueFullInformation) :
    List Value :=
  if isDeleted env truePath info.name true then values
  else insertBefore (fun v => fold env v.name) (valueOf info) values

/-- `Key_MergeCacheValues` -/
def mergeCacheValues (merge : Merge) (trueHandle : KeyHandle) : Except NTSTATUS Merge := do
  let infos ← trueHandle.values
  pure { merge with values := infos.foldl (cacheValue env merge.name) merge.values }

/-- `Key_MergeCache` for a key that is not in the cache yet. -/
def mergeCache (truePath : List WChar) (trueHandle : KeyHandle) : Except NTSTATUS Merge := do
  let lastWriteTime ← trueHandle.lastWriteTime
  let merge ← mergeCacheSubkeys env ⟨truePath, lastWriteTime, [], []⟩ trueHandle
  mergeCacheValues env merge trueHandle

/-- What `Key_MergeSubkeys` takes over of a cached subkey: memory that `Dll_Alloc` gives is not
cleared. -/
def cloneSubkey (stale : Nat → Int × Bool) (subkey : Subkey × Nat) : Subkey :=
  { name := subkey.1.name, lastWriteTime := (stale subkey.2).1
    titleOrClass := (stale subkey.2).2 }

def subkeyDeleted (info : KeyNodeInformation) : Bool :=
  !env.keyDeleteV2 && isDeleteMark info.lastWriteTime

/-- A subkey of the copy key has the name of one that is listed. -/
def subkeyFound (info : KeyNodeInformation) (subkey2 : Subkey) : Option Subkey :=
  if subkeyDeleted env info then none
  else some { subkey2 with
    lastWriteTime := info.lastWriteTime
    titleOrClass := if titleOrClass info then true else subkey2.titleOrClass }

def subkeyNew (info : KeyNodeInformation) : Option Subkey :=
  if subkeyDeleted env info then none else some (subkeyOf info)

/-- A round of `Key_MergeSubkeys` -/
def mergeSubkey (subkeys : List Subkey) (info : KeyNodeInformation) : List Subkey :=
  overlay (fun s => fold env s.name) (fold env info.name) (subkeyFound env info)
    (subkeyNew env info) subkeys

/-- `Key_MergeSubkeys` -/
def mergeSubkeys (stale : Nat → Int × Bool) (merge : Merge) (trueMerge : Option Merge)
    (copyHandle : KeyHandle) : Except NTSTATUS Merge := do
  let copyTime ← copyHandle.lastWriteTime
  let lastWriteTime := match trueMerge with
    | some t => if t.lastWriteTime > copyTime then t.lastWriteTime else copyTime
    | none => copyTime
  let cloned := match trueMerge with
    | some t => t.subkeys.zipIdx.map (cloneSubkey stale)
    | none => []
  let infos ← copyHandle.subkeys
  pure { merge with
    lastWriteTime := lastWriteTime
    subkeys := infos.foldl (mergeSubkey env) (merge.subkeys ++ cloned) }

def valueDeleted (info : KeyValueFullInformation) : Bool := !env.keyDeleteV2 && info.type = tzuk

/-- What a value of the copy key leaves in its place. -/
def valueNew (info : KeyValueFullInformation) : Option Value :=
  if valueDeleted env info then none else some (valueOf info)

/-- A round of `Key_MergeValues` -/
def mergeValue (values : List Value) (info : KeyValueFullInformation) : List Value :=
  overlay (fun v => fold env v.name) (fold env info.name) (fun _ => valueNew env info)
    (valueNew env info) values

/-- `Key_MergeValues` -/
def mergeValues (merge : Merge) (trueMerge : Option Merge) (copyHandle : KeyHandle) :
    Except NTSTATUS Merge := do
  let cloned := match trueMerge with
    | some t => t.values
    | none => []
  let infos ← copyHandle.values
  pure { merge with values := infos.foldl (mergeValue env) (merge.values ++ cloned) }

/-- The part of `Key_Merge` that builds both lists, for a true key that could be opened. -/
def keyMerge (stale : Nat → Int × Bool) (truePath : List WChar)
    (trueHandle copyHandle : KeyHandle) : Except NTSTATUS Merge := do
  let trueMerge ← mergeCache env truePath trueHandle
  let merge ← mergeSubkeys env stale ⟨truePath, 0, [], []⟩ (some trueMerge) copyHandle
  mergeValues env merge (some trueMerge) copyHandle

end Merge

/-! ### The overlay -/

/-- What is in a key: the names are told apart without case. -/
structure KeyContent (env : Env) where
  lastWriteTime : Int
  subkeys : List KeyNodeInformation
  values : List KeyValueFullInformation
  subkeys_distinct : subkeys.Pairwise fun a b => fold env a.name ≠ fold env b.name
  values_distinct : values.Pairwise fun a b => fold env a.name ≠ fold env b.name

def KeyContent.handle {env : Env} (content : KeyContent env) : KeyHandle :=
  { lastWriteTime := .ok content.lastWriteTime, subkeys := .ok content.subkeys
    values := .ok content.values }

variable {env : Env} {truePath : List WChar}

/-- A subkey stands under the name it has in the true key, if it is there. -/
def listedName (truePath : List WChar) (trueKey : KeyContent env) (name : List WChar) :
    List WChar :=
  match trueKey.subkeys.find? fun t =>
    fold env t.name = fold env name && !isDeleted env truePath t.name false with
  | some t => t.name
  | none => name

/-- The copy key is laid over the true key. -/
structure Overlaid (truePath : List WChar) (trueKey copyKey : KeyContent env) (merge : Merge) :
    Prop where
  subkeys_sorted : merge.subkeys.Pairwise fun a b => fold env a.name < fold env b.name
  values_sorted : merge.values.Pairwise fun a b => fold env a.name < fold env b.name
  subkeys : ∀ s, s ∈ merge.subkeys ↔
    (∃ c ∈ copyKey.subkeys, subkeyDeleted env c = false ∧
      s = { subkeyOf c with name := listedName truePath trueKey c.name }) ∨
    ∃ t ∈ trueKey.subkeys, isDeleted env truePath t.name false = false ∧
      (∀ c ∈ copyKey.subkeys, fold env c.name ≠ fold env t.name) ∧ s = subkeyOf t
  values : ∀ v, v ∈ merge.values ↔
    (∃ c ∈ copyKey.values, valueDeleted env c = false ∧ v = valueOf c) ∨
    ∃ t ∈ trueKey.values, isDeleted env truePath t.name true = false ∧
      (∀ c ∈ copyKey.values, fold env c.name ≠ fold env t.name) ∧ v = valueOf t

/-! ### The cached lists -/

variable {infos : List KeyNodeInformation}

theorem cachedSubkeys (truePath : List WChar)
    (h : infos.Pairwise fun a b => fold env a.name ≠ fold env b.name) :
    Ascending (fun s : Subkey => fold env s.name) (infos.foldl (cacheSubkey env truePath) []) ∧
      ∀ s, s ∈ infos.foldl (cacheSubkey env truePath) [] ↔
        ∃ t ∈ infos, isDeleted env truePath t.name false = false ∧ subkeyOf t = s := by
  refine mem_foldl_insert (fun _ => rfl) (fun l t hl hfresh => ?_) h
  unfold cacheSubkey
  rw [insertSorted_eq_overlay hl hfresh]

theorem cachedValues (truePath : List WChar) {infos : List KeyValueFullInformation}
    (h : infos.Pairwise fun a b => fold env a.name ≠ fold env b.name) :
    Ascending (fun v : Value => fold env v.name) (infos.foldl (cacheValue env truePath) []) ∧
      ∀ v, v ∈ infos.foldl (cacheValue env truePath) [] ↔
        ∃ t ∈ infos, isDeleted env truePath t.name true = false ∧ valueOf t = v := by
  refine mem_foldl_insert (fun _ => rfl) (fun l t hl hfresh => ?_) h
  unfold cacheValue
  rw [insertBefore_eq_overlay hfresh]

/-- The entries that `Key_MergeSubkeys` starts with. -/
def clonedSubkeys (env : Env) (stale : Nat → Int × Bool) (truePath : List WChar)
    (infos : List KeyNodeInformation) : List Subkey :=
  (infos.foldl (cacheSubkey env truePath) []).zipIdx.map (cloneSubkey stale)

theorem mem_clonedSubkeys {stale : Nat → Int × Bool}
    (h : infos.Pairwise fun a b => fold env a.name ≠ fold env b.name) {s : Subkey}
    (hs : s ∈ clonedSubkeys env stale truePath infos) :
    ∃ t ∈ infos, isDeleted env truePath t.name false = false ∧ t.name = s.name ∧
      ∃ i, s.lastWriteTime = (stale i).1 ∧ s.titleOrClass = (stale i).2 := by
  obtain ⟨⟨s', i⟩, hmem, rfl⟩ := mem_map.mp hs
  have hmem := mem_of_getElem? (mem_zipIdx_iff_getElem?.mp hmem)
  obtain ⟨t, ht, hkept, rfl⟩ := ((cachedSubkeys truePath h).2 s').mp hmem
  exact ⟨t, ht, hkept, rfl, i, rfl, rfl⟩

theorem exists_clonedSubkeys (stale : Nat → Int × Bool)
    (h : infos.Pairwise fun a b => fold env a.name ≠ fold env b.name) {t : KeyNodeInformation}
    (ht : t ∈ infos) (hkept : isDeleted env truePath t.name false = false) :
    ∃ i, { subkeyOf t with lastWriteTime := (stale i).1, titleOrClass := (stale i).2 } ∈
      clonedSubkeys env stale truePath infos := by
  have hmem := ((cachedSubkeys truePath h).2 (subkeyOf t)).mpr ⟨t, ht, hkept, rfl⟩
  obtain ⟨i, hi⟩ := mem_iff_getElem?.mp hmem
  exact ⟨i, mem_map.mpr ⟨(subkeyOf t, i), mem_zipIdx_iff_getElem?.mpr hi, rfl⟩⟩

theorem ascending_clonedSubkeys (stale : Nat → Int × Bool) (truePath : List WChar)
    (h : infos.Pairwise fun a b => fold env a.name ≠ fold env b.name) :
    Ascending (fun s : Subkey => fold env s.name) (clonedSubkeys env stale truePath infos) := by
  refine pairwise_map.mpr ?_
  have hsorted := (cachedSubkeys truePath h).1
  refine pairwise_iff_getElem.mpr fun i j hi hj hij => ?_
  rw [getElem_zipIdx, getElem_zipIdx]
  exact pairwise_iff_getElem.mp hsorted i j _ _ hij

/-! ### The merged lists -/

theorem subkeyFound_name {c : KeyNodeInformation} {a b : Subkey}
    (h : subkeyFound env c a = some b) : a.name = b.name := by
  unfold subkeyFound at h
  split at h
  · exact absurd h (fun h => nomatch h)
  · rw [← Option.some.inj h]

theorem subkeyNew_name {c : KeyNodeInformation} {b : Subkey} (h : subkeyNew env c = some b) :
    fold env b.name = fold env c.name := by
  unfold subkeyNew at h
  split at h
  · exact absurd h (fun h => nomatch h)
  · rw [← Option.some.inj h]
    rfl

theorem valueNew_name {c : KeyValueFullInformation} {b : Value} (h : valueNew env c = some b) :
    fold env b.name = fold env c.name := by
  unfold valueNew at h
  split at h
  · exact absurd h (fun h => nomatch h)
  · rw [← Option.some.inj h]
    rfl

/-- What `Key_Merge` makes of two keys. -/
def merged (env : Env) (stale : Nat → Int × Bool) (truePath : List WChar)
    (trueKey copyKey : KeyContent env) : Merge :=
  { name := truePath
    lastWriteTime := if trueKey.lastWriteTime > copyKey.lastWriteTime then trueKey.lastWriteTime
      else copyKey.lastWriteTime
    subkeys := copyKey.subkeys.foldl (mergeSubkey env)
      (clonedSubkeys env stale truePath trueKey.subkeys)
    values := copyKey.values.foldl (mergeValue env)
      (trueKey.values.foldl (cacheValue env truePath) []) }

theorem keyMerge_handle (stale : Nat → Int × Bool) (trueKey copyKey : KeyContent env) :
    keyMerge env stale truePath trueKey.handle copyKey.handle =
      .ok (merged env stale truePath trueKey copyKey) := rfl

section Merged

variable {stale : Nat → Int × Bool} {trueKey copyKey : KeyContent env}

theorem ascending_merged_subkeys :
    Ascending (fun s : Subkey => fold env s.name)
      (merged env stale truePath trueKey copyKey).subkeys := by
  refine ascending_foldl_overlay (fun c a b h ha => ?_) (fun c b h => subkeyNew_name h) _
    (ascending_clonedSubkeys stale truePath trueKey.subkeys_distinct)
  rw [← subkeyFound_name h]
  exact ha

theorem mem_merged_subkeys {s : Subkey} :
    s ∈ (merged env stale truePath trueKey copyKey).subkeys ↔
      (∃ c ∈ copyKey.subkeys,
        (lookup (fun s : Subkey => fold env s.name) (fold env c.name)
          (clonedSubkeys env stale truePath trueKey.subkeys)).elim (subkeyNew env c)
            (subkeyFound env c) = some s) ∨
      s ∈ clonedSubkeys env stale truePath trueKey.subkeys ∧
        ∀ c ∈ copyKey.subkeys, fold env c.name ≠ fold env s.name := by
  refine mem_foldl_overlay (fun c a b h ha => ?_) (fun c b h => subkeyNew_name h)
    (ascending_clonedSubkeys stale truePath trueKey.subkeys_distinct) copyKey.subkeys_distinct
  rw [← subkeyFound_name h]
  exact ha

theorem ascending_merged_values :
    Ascending (fun v : Value => fold env v.name)
      (merged env stale truePath trueKey copyKey).values :=
  ascending_foldl_overlay (fun _ _ _ h _ => valueNew_name h) (fun _ _ h => valueNew_name h) _
    (cachedValues truePath trueKey.values_distinct).1

theorem mem_merged_values {v : Value} :
    v ∈ (merged env stale truePath trueKey copyKey).values ↔
      (∃ c ∈ copyKey.values, valueDeleted env c = false ∧ v = valueOf c) ∨
      ∃ t ∈ trueKey.values, isDeleted env truePath t.name true = false ∧
        (∀ c ∈ copyKey.values, fold env c.name ≠ fold env t.name) ∧ v = valueOf t := by
  obtain ⟨hsorted, hcached⟩ := cachedValues truePath trueKey.values_distinct
  refine (mem_foldl_overlay (fun _ _ _ h _ => valueNew_name h) (fun _ _ h => valueNew_name h)
    hsorted copyKey.values_distinct).trans (or_congr ?_ ?_)
  · refine exists_congr fun c => and_congr_right fun _ => ?_
    have hnew : valueNew env c = some v ↔ valueDeleted env c = false ∧ v = valueOf c := by
      unfold valueNew
      cases valueDeleted env c with
      | true => exact ⟨fun h => (nomatch h), fun h => absurd h.1 Bool.noConfusion⟩
      | false => exact ⟨fun h => ⟨rfl, (Option.some.inj h).symm⟩, fun h => congrArg some h.2.symm⟩
    rw [← hnew]
    cases lookup (fun v : Value => fold env v.name) (fold env c.name)
      (trueKey.values.foldl (cacheValue env truePath) []) <;> rfl
  · rw [hcached]
    constructor
    · rintro ⟨⟨t, ht, hkept, rfl⟩, hnone⟩
      exact ⟨t, ht, hkept, hnone, rfl⟩
    · rintro ⟨t, ht, hkept, hnone, rfl⟩
      exact ⟨⟨t, ht, hkept, rfl⟩, hnone⟩

theorem fold_listedName (truePath : List WChar) (trueKey : KeyContent env) (name : List WChar) :
    fold env (listedName truePath trueKey name) = fold env name := by
  unfold listedName
  split
  next t hfind =>
    have hsame := find?_some hfind
    exact of_decide_eq_true (Bool.and_eq_true_iff.mp hsame).1
  next => rfl

theorem listedName_of_kept {t : KeyNodeInformation} (ht : t ∈ trueKey.subkeys)
    (hkept : isDeleted env truePath t.name false = false) {name : List WChar}
    (hsame : fold env t.name = fold env name) : listedName truePath trueKey name = t.name := by
  unfold listedName
  split
  next t' hfind =>
    have hsame' := find?_some hfind
    have heq : fold env t'.name = fold env name :=
      of_decide_eq_true (Bool.and_eq_true_iff.mp hsame').1
    rw [eq_of_key_eq trueKey.subkeys_distinct (mem_of_find?_eq_some hfind) ht
      (heq.trans hsame.symm)]
  next hfind =>
    refine absurd ?_ (find?_eq_none.mp hfind t ht)
    rw [hsame, hkept, decide_eq_true rfl]
    rfl

theorem listedName_of_none {name : List WChar}
    (hnone : ∀ t ∈ trueKey.subkeys, isDeleted env truePath t.name false = false →
      fold env t.name ≠ fold env name) : listedName truePath trueKey name = name := by
  unfold listedName
  split
  next t hfind =>
    have hboth := find?_some hfind
    obtain ⟨hsame, hkept⟩ := Bool.and_eq_true_iff.mp hboth
    refine absurd (of_decide_eq_true hsame) (hnone t (mem_of_find?_eq_some hfind) ?_)
    rw [Bool.not_eq_true'] at hkept
    exact hkept
  next => rfl

theorem mem_merged_of_shared (stale : Nat → Int × Bool) (truePath : List WChar)
    {c t : KeyNodeInformation} (hc : c ∈ copyKey.subkeys)
    (ht : t ∈ trueKey.subkeys) (hkept : isDeleted env truePath t.name false = false)
    (hsame : fold env c.name = fold env t.name) (hdeleted : subkeyDeleted env c = false) :
    ∃ i, ⟨t.name, c.lastWriteTime, if titleOrClass c then true else (stale i).2⟩ ∈
      (merged env stale truePath trueKey copyKey).subkeys := by
  obtain ⟨i, hi⟩ := exists_clonedSubkeys stale trueKey.subkeys_distinct ht hkept
  have hlookup := (lookup_eq_some (k := fold env c.name)
    (ascending_clonedSubkeys stale truePath trueKey.subkeys_distinct)).mpr
      ⟨hi, hsame.symm⟩
  refine ⟨i, mem_merged_subkeys.mpr (.inl ⟨c, hc, ?_⟩)⟩
  rw [hlookup]
  show subkeyFound env c _ = _
  unfold subkeyFound
  rw [hdeleted]
  rfl

theorem mem_merged_of_trueOnly {t : KeyNodeInformation} (ht : t ∈ trueKey.subkeys)
    (hkept : isDeleted env truePath t.name false = false)
    (hnone : ∀ c ∈ copyKey.subkeys, fold env c.name ≠ fold env t.name) :
    ∃ i, ⟨t.name, (stale i).1, (stale i).2⟩ ∈
      (merged env stale truePath trueKey copyKey).subkeys := by
  obtain ⟨i, hi⟩ := exists_clonedSubkeys stale trueKey.subkeys_distinct ht hkept
  exact ⟨i, mem_merged_subkeys.mpr (.inr ⟨hi, hnone⟩)⟩

theorem mem_merged_of_copyOnly {c : KeyNodeInformation} (hc : c ∈ copyKey.subkeys)
    (hdeleted : subkeyDeleted env c = false)
    (hnone : ∀ t ∈ trueKey.subkeys, isDeleted env truePath t.name false = false →
      fold env t.name ≠ fold env c.name) :
    subkeyOf c ∈ (merged env stale truePath trueKey copyKey).subkeys := by
  have hlookup : lookup (fun s : Subkey => fold env s.name) (fold env c.name)
      (clonedSubkeys env stale truePath trueKey.subkeys) = none := by
    refine lookup_eq_none.mpr fun b hb hkey => ?_
    obtain ⟨t, ht, hkept, hname, -⟩ := mem_clonedSubkeys trueKey.subkeys_distinct hb
    exact hnone t ht hkept (hname ▸ hkey)
  refine mem_merged_subkeys.mpr (.inl ⟨c, hc, ?_⟩)
  rw [hlookup]
  show subkeyNew env c = _
  unfold subkeyNew
  rw [hdeleted]
  rfl

theorem merged_subkeys_cases {s : Subkey}
    (h : s ∈ (merged env stale truePath trueKey copyKey).subkeys) :
    (∃ c ∈ copyKey.subkeys, subkeyDeleted env c = false ∧ s = subkeyOf c ∧
      ∀ t ∈ trueKey.subkeys, isDeleted env truePath t.name false = false →
        fold env t.name ≠ fold env c.name) ∨
    (∃ c ∈ copyKey.subkeys, subkeyDeleted env c = false ∧ ∃ t ∈ trueKey.subkeys,
      isDeleted env truePath t.name false = false ∧ fold env t.name = fold env c.name ∧
        ∃ i, s = ⟨t.name, c.lastWriteTime, if titleOrClass c then true else (stale i).2⟩) ∨
    ∃ t ∈ trueKey.subkeys, isDeleted env truePath t.name false = false ∧ t.name = s.name ∧
      ∀ c ∈ copyKey.subkeys, fold env c.name ≠ fold env t.name := by
  rcases mem_merged_subkeys.mp h with ⟨c, hc, hmade⟩ | ⟨hs, hnone⟩
  · cases hlookup : lookup (fun s : Subkey => fold env s.name) (fold env c.name)
      (clonedSubkeys env stale truePath trueKey.subkeys) with
    | none =>
      rw [hlookup] at hmade
      have hmade : subkeyNew env c = some s := hmade
      unfold subkeyNew at hmade
      cases hdeleted : subkeyDeleted env c with
      | true =>
        rw [hdeleted] at hmade
        exact absurd hmade (fun h => nomatch h)
      | false =>
        rw [hdeleted] at hmade
        refine .inl ⟨c, hc, hdeleted, (Option.some.inj hmade).symm, fun t ht hkept hsame => ?_⟩
        obtain ⟨i, hi⟩ := exists_clonedSubkeys stale trueKey.subkeys_distinct ht hkept
        exact lookup_eq_none.mp hlookup _ hi hsame
    | some b =>
      rw [hlookup] at hmade
      have hmade : subkeyFound env c b = some s := hmade
      unfold subkeyFound at hmade
      cases hdeleted : subkeyDeleted env c with
      | true =>
        rw [hdeleted] at hmade
        exact absurd hmade (fun h => nomatch h)
      | false =>
        rw [hdeleted] at hmade
        obtain ⟨hb, hkey⟩ := lookup_some hlookup
        obtain ⟨t, ht, hkept, hname, i, -, hmarker⟩ :=
          mem_clonedSubkeys trueKey.subkeys_distinct hb
        refine .inr (.inl ⟨c, hc, hdeleted, t, ht, hkept, ?_, i, ?_⟩)
        · rw [hname]
          exact hkey
        · rw [← Option.some.inj hmade, hname, ← hmarker]
  · obtain ⟨t, ht, hkept, hname, -⟩ := mem_clonedSubkeys trueKey.subkeys_distinct hs
    exact .inr (.inr ⟨t, ht, hkept, hname, fun c hc hsame => hnone c hc (hname ▸ hsame)⟩)

theorem covered_of_overlaid {t : KeyNodeInformation} (ht : t ∈ trueKey.subkeys)
    (hkept : isDeleted env truePath t.name false = false)
    (h : Overlaid truePath trueKey copyKey
      (merged env (fun _ => (t.lastWriteTime + 1, true)) truePath trueKey copyKey)) :
    ∃ c ∈ copyKey.subkeys, fold env c.name = fold env t.name ∧
      (subkeyDeleted env c = true ∨ titleOrClass c = true) := by
  by_cases hin : ∃ c ∈ copyKey.subkeys, fold env c.name = fold env t.name
  · obtain ⟨c, hc, hsame⟩ := hin
    refine ⟨c, hc, hsame, ?_⟩
    by_contra hneither
    obtain ⟨hdeleted, hmarker⟩ := not_or.mp hneither
    rw [Bool.not_eq_true] at hdeleted hmarker
    obtain ⟨i, hi⟩ := mem_merged_of_shared _ truePath hc ht hkept hsame hdeleted
    rw [hmarker] at hi
    rcases (h.subkeys _).mp hi with ⟨c', hc', -, heq⟩ | ⟨t', -, -, hnone, heq⟩
    · have hname : fold env c'.name = fold env c.name := by
        rw [hsame, ← fold_listedName truePath trueKey c'.name]
        exact (congrArg (fun s : Subkey => fold env s.name) heq).symm
      obtain rfl := eq_of_key_eq copyKey.subkeys_distinct hc' hc hname
      have htrue : true = titleOrClass c' := congrArg Subkey.titleOrClass heq
      rw [hmarker] at htrue
      exact Bool.noConfusion htrue
    · refine hnone c hc (hsame.trans ?_)
      exact congrArg (fun s : Subkey => fold env s.name) heq
  · have hnone : ∀ c ∈ copyKey.subkeys, fold env c.name ≠ fold env t.name :=
      fun c hc hsame => hin ⟨c, hc, hsame⟩
    obtain ⟨i, hi⟩ := mem_merged_of_trueOnly ht hkept hnone
    rcases (h.subkeys _).mp hi with ⟨c', hc', -, heq⟩ | ⟨t', ht', -, -, heq⟩
    · refine absurd ?_ (hnone c' hc')
      rw [← fold_listedName truePath trueKey c'.name]
      exact (congrArg (fun s : Subkey => fold env s.name) heq).symm
    · have hname : fold env t.name = fold env t'.name :=
        congrArg (fun s : Subkey => fold env s.name) heq
      obtain rfl := eq_of_key_eq trueKey.subkeys_distinct ht ht' hname
      have htime : t.lastWriteTime + 1 = t.lastWriteTime := congrArg Subkey.lastWriteTime heq
      omega

theorem overlaid_of_covered (h : ∀ t ∈ trueKey.subkeys,
    isDeleted env truePath t.name false = false →
      ∃ c ∈ copyKey.subkeys, fold env c.name = fold env t.name ∧
        (subkeyDeleted env c = true ∨ titleOrClass c = true)) :
    Overlaid truePath trueKey copyKey (merged env stale truePath trueKey copyKey) := by
  have hshared : ∀ c ∈ copyKey.subkeys, ∀ t ∈ trueKey.subkeys,
      isDeleted env truePath t.name false = false → fold env t.name = fold env c.name →
        subkeyDeleted env c = false → titleOrClass c = true := by
    intro c hc t ht hkept hsame hdeleted
    obtain ⟨c', hc', hsame', hor⟩ := h t ht hkept
    obtain rfl := eq_of_key_eq copyKey.subkeys_distinct hc' hc (hsame'.trans hsame)
    refine hor.resolve_left fun htrue => ?_
    rw [hdeleted] at htrue
    exact Bool.noConfusion htrue
  refine ⟨ascending_merged_subkeys, ascending_merged_values, fun s => ⟨fun hs => ?_, ?_⟩,
    fun v => mem_merged_values⟩
  · rcases merged_subkeys_cases hs with ⟨c, hc, hdeleted, rfl, hnone⟩ |
      ⟨c, hc, hdeleted, t, ht, hkept, hsame, i, rfl⟩ | ⟨t, ht, hkept, -, hnone⟩
    · refine .inl ⟨c, hc, hdeleted, ?_⟩
      rw [listedName_of_none hnone]
      rfl
    · refine .inl ⟨c, hc, hdeleted, ?_⟩
      rw [listedName_of_kept ht hkept hsame, subkeyOf, hshared c hc t ht hkept hsame hdeleted]
      rfl
    · obtain ⟨c, hc, hsame, -⟩ := h t ht hkept
      exact absurd hsame (hnone c hc)
  · rintro (⟨c, hc, hdeleted, rfl⟩ | ⟨t, ht, hkept, hnone, -⟩)
    · by_cases hin : ∃ t ∈ trueKey.subkeys, isDeleted env truePath t.name false = false ∧
        fold env t.name = fold env c.name
      · obtain ⟨t, ht, hkept, hsame⟩ := hin
        obtain ⟨i, hi⟩ := mem_merged_of_shared stale truePath hc ht hkept hsame.symm hdeleted
        rw [hshared c hc t ht hkept hsame hdeleted] at hi
        rw [listedName_of_kept ht hkept hsame, subkeyOf, hshared c hc t ht hkept hsame hdeleted]
        exact hi
      · have hnone : ∀ t ∈ trueKey.subkeys, isDeleted env truePath t.name false = false →
            fold env t.name ≠ fold env c.name :=
          fun t ht hkept hsame => hin ⟨t, ht, hkept, hsame⟩
        rw [listedName_of_none hnone]
        exact mem_merged_of_copyOnly hc hdeleted hnone
    · obtain ⟨c, hc, hsame, -⟩ := h t ht hkept
      exact absurd hsame (hnone c hc)

end Merged

/-- Both lists are the copy key laid over the true key, whatever the memory held, exactly if each
subkey of the true key that is not deleted is also in the copy key, where it is deleted or has a
title or a class. -/
theorem keyMerge_iff (env : Env) (truePath : List WChar) (trueKey copyKey : KeyContent env) :
    (∀ stale, ∃ merge, keyMerge env stale truePath trueKey.handle copyKey.handle = .ok merge ∧
      Overlaid truePath trueKey copyKey merge) ↔
    ∀ t ∈ trueKey.subkeys, isDeleted env truePath t.name false = false →
      ∃ c ∈ copyKey.subkeys, fold env c.name = fold env t.name ∧
        (subkeyDeleted env c = true ∨ titleOrClass c = true) := by
  constructor
  · intro h t ht hkept
    obtain ⟨merge, hmerge, hoverlaid⟩ := h fun _ => (t.lastWriteTime + 1, true)
    obtain rfl := Except.ok.inj ((keyMerge_handle _ trueKey copyKey).symm.trans hmerge)
    exact covered_of_overlaid ht hkept hoverlaid
  · intro h stale
    exact ⟨_, keyMerge_handle stale trueKey copyKey, overlaid_of_covered h⟩

def plainEnv : Env := ⟨asciiLower, false, .nil⟩

def oneSubkey : KeyContent plainEnv :=
  { lastWriteTime := 7, subkeys := [⟨[0x41], 7, 0, 0xFFFFFFFF, 0⟩], values := []
    subkeys_distinct := List.pairwise_singleton _ _, values_distinct := List.Pairwise.nil }

def emptyKey : KeyContent plainEnv :=
  { lastWriteTime := 9, subkeys := [], values := []
    subkeys_distinct := List.Pairwise.nil, values_distinct := List.Pairwise.nil }

/-- The subkey is listed with the time that the memory held. -/
theorem keyMerge_stale_time : ¬ ∃ merge,
    keyMerge plainEnv (fun _ => (0, false)) [0x4B] oneSubkey.handle emptyKey.handle = .ok merge ∧
      Overlaid [0x4B] oneSubkey emptyKey merge := by
  rintro ⟨merge, hmerge, hoverlaid⟩
  obtain rfl := Except.ok.inj ((keyMerge_handle _ oneSubkey emptyKey).symm.trans hmerge)
  have hlisted : (⟨[0x41], 0, false⟩ : Subkey) ∈
      (merged plainEnv (fun _ => (0, false)) [0x4B] oneSubkey emptyKey).subkeys := by decide
  rcases (hoverlaid.subkeys _).mp hlisted with ⟨c, hc, -⟩ | ⟨t, ht, -, -, heq⟩
  · exact absurd hc not_mem_nil
  · rw [mem_singleton.mp ht] at heq
    exact absurd heq (by decide)

end Sandboxie.KeyMerge
