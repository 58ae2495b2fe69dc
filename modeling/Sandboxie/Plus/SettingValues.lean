import Sandboxie.Common.IniValue
import Sandboxie.Svc.IniServer
import Mathlib.Data.List.Count

/-!
# The values of a setting, edited by the user interface

`CSbieIni::UpdateTextList` and `SetBoolSafe` bring the values of a setting to what is asked for
with one request for each value.  A request to delete a value deletes all that are the same but
for case, and one to delete an empty value deletes them all.
-/

namespace Sandboxie.SettingValues

open Ini IniServer Text List

/-- A setting in a section: not the whole section, and not of the registry. -/
structure Setting where
  section_ : List WChar
  name : List WChar
  notEmpty : name ≠ []
  noBreak : containsCRLF name = false
  notWhole : name ≠ [42]
  notRegistry : section_ ≠ [36]

variable (towlower : WChar → WChar) (s : Setting)

def values (ini : CIniFile) : List (List WChar) :=
  match ini.sections.find? (Section.isNamed towlower s.section_) with
  | none => []
  | some sec => (sec.entries.filter (Entry.isNamed towlower s.name)).map Entry.value

/-- `DelValue` -/
def delValue (ini : CIniFile) (value : List WChar) : CIniFile :=
  match delSetting towlower ini s.section_ s.name (given value) with
  | some (ini', _) => ini'
  | none => ini

def appendText (ini : CIniFile) (value : List WChar) : CIniFile :=
  (addSetting towlower ini s.section_ s.name (given value) false).1

/-- The loop of `UpdateTextList`: the old values that are not in the list, and the new ones. -/
def compareLists : List (List WChar) → List (List WChar) → List (List WChar) × List (List WChar)
  | old, [] => (old, [])
  | old, value :: list =>
    if value ∈ old then compareLists (old.erase value) list
    else ((compareLists old list).1, value :: (compareLists old list).2)

def updateTextList (ini : CIniFile) (list : List (List WChar)) : CIniFile :=
  let (oldSettings, newSettings) := compareLists (values towlower s ini) list
  newSettings.foldl (appendText towlower s) (oldSettings.foldl (delValue towlower s) ini)

def strValue (value : Bool) : List WChar := if value then wide ['y'] else wide ['n']

/-- The loop of `SetBoolSafe`: the file, and `bAdd`. -/
def setBoolLoop (str : List WChar) : List (List WChar) → CIniFile × Bool → CIniFile × Bool
  | [], state => state
  | cur :: rest, (ini, bAdd) =>
    if 44 ∈ cur then setBoolLoop str rest (ini, bAdd)
    else if cur = str then setBoolLoop str rest (ini, false)
    else setBoolLoop str rest (delValue towlower s ini cur, bAdd)

def setBoolSafe (ini : CIniFile) (value : Bool) : CIniFile :=
  let (ini', bAdd) := setBoolLoop towlower s (strValue value) (values towlower s ini) (ini, true)
  if bAdd then appendText towlower s ini' (strValue value) else ini'

/-- The loop of `GetBool`. -/
def boolOf (default : Bool) : List (List WChar) → Bool
  | [] => default
  | str :: rest =>
    if 44 ∈ str then boolOf default rest
    else if sameNoCase asciiLower str (wide ['y']) then true
    else if sameNoCase asciiLower str (wide ['n']) then false
    else boolOf default rest

def getBool (ini : CIniFile) (default : Bool) : Bool := boolOf default (values towlower s ini)

/-- A request to delete the value `r` deletes `v`. -/
def Deletes (r v : List WChar) : Prop := r = [] ∨ sameNoCase towlower v r = true

instance (r v : List WChar) : Decidable (Deletes towlower r v) := instDecidableOr

variable {towlower s} {ini : CIniFile} {list old : List (List WChar)} {v : List WChar}

/-! ### One request -/

theorem values_change (f : List Entry → List Entry) :
    values towlower s (ini.change towlower s.section_ f) =
      match ini.sections.find? (Section.isNamed towlower s.section_) with
      | none => []
      | some sec => ((f sec.entries).filter (Entry.isNamed towlower s.name)).map Entry.value := by
  rw [values, CIniFile.change, find?_changeEntries]
  cases ini.sections.find? (Section.isNamed towlower s.section_) <;> rfl

theorem values_getSection :
    values towlower s (getSection towlower ini s.section_) = values towlower s ini := by
  rw [values, values, find?_getSection]
  cases ini.sections.find? (Section.isNamed towlower s.section_) <;> rfl

theorem filter_insertLast (new entries : List Entry)
    (hnew : ∀ e ∈ new, e.isNamed towlower s.name = true) :
    (insertLast towlower s.name new entries).filter (Entry.isNamed towlower s.name) =
      entries.filter (Entry.isNamed towlower s.name) ++ new := by
  obtain ⟨front, behind, hentries, hbehind, hinsert, -⟩ :=
    @replaceEntries_eq towlower s.name new entries
  have hnone : behind.filter (Entry.isNamed towlower s.name) = [] := by
    simpa [filter_eq_nil_iff] using hbehind
  rw [hinsert, hentries]
  simp [hnone, filter_eq_self.mpr hnew]

theorem values_delValue : values towlower s (delValue towlower s ini v) =
    (values towlower s ini).filter fun x => !decide (Deletes towlower v x) := by
  by_cases hv : v = []
  · have hset : delSetting towlower ini s.section_ s.name (given v) =
        some ((getSection towlower ini s.section_).change towlower s.section_
          (replaceEntries towlower s.name []), .success) := by
      simp [hv, given, delSetting, setSetting, setValue, s.notEmpty, s.notRegistry, s.notWhole,
        s.noBreak]
    have hnone : ∀ entries, (replaceEntries towlower s.name [] entries).filter
        (Entry.isNamed towlower s.name) = [] := filter_replaceEntries_self (by simp)
    rw [delValue, hset]
    rw [values_change]
    simp only [hnone, map_nil]
    simp [hv, Deletes]
    split <;> rfl
  · have hremove : delSetting towlower ini s.section_ s.name (given v) =
        some (removeValue towlower ini s.section_ s.name v) := by
      simp [hv, given, delSetting]
    rw [delValue, hremove, removeValue]
    rw [values_change, values]
    cases ini.sections.find? (Section.isNamed towlower s.section_) with
    | none => rfl
    | some sec =>
      simp only [filter_filter, filter_map]
      congr 1
      refine filter_congr fun e _ => ?_
      by_cases he : e.isNamed towlower s.name = true <;> simp [he, hv, Deletes]

theorem values_appendText (hv : containsCRLF v = false) :
    values towlower s (appendText towlower s ini v) =
      values towlower s ini ++ (if v = [] then [] else [v]) := by
  by_cases hempty : v = []
  · simp [appendText, addSetting, given, hempty]
  · have hself : ∀ e ∈ [(⟨s.name, v⟩ : Entry)], e.isNamed towlower s.name = true := by
      simp [Entry.isNamed, sameNoCase]
    rw [appendText, given, if_neg hempty, if_neg hempty, ← @values_getSection towlower s ini]
    simp only [addSetting, addValue, s.noBreak, hv, Bool.or_false, Bool.false_eq_true, if_false]
    rw [values_change, values, find?_getSection]
    simp [filter_insertLast _ _ hself]

theorem values_foldl_delValue (removed : List (List WChar)) :
    values towlower s (removed.foldl (delValue towlower s) ini) =
      (values towlower s ini).filter fun x => !decide (∃ r ∈ removed, Deletes towlower r x) := by
  induction removed generalizing ini with
  | nil => simp
  | cons r removed ih =>
    rw [foldl_cons, ih, values_delValue, filter_filter]
    refine filter_congr fun x _ => ?_
    by_cases h : Deletes towlower r x <;> simp [h]

theorem values_foldl_appendText {added : List (List WChar)}
    (hadded : ∀ v ∈ added, containsCRLF v = false) :
    values towlower s (added.foldl (appendText towlower s) ini) =
      values towlower s ini ++ added.filter fun v => v ≠ [] := by
  induction added generalizing ini with
  | nil => simp
  | cons v added ih =>
    rw [foldl_cons, ih fun w hw => hadded w (mem_cons_of_mem v hw),
      values_appendText (hadded v mem_cons_self)]
    by_cases hv : v = [] <;> simp [hv]

/-! ### Lists -/

theorem compareLists_fst : (compareLists old list).1 = old.diff list := by
  induction list generalizing old with
  | nil => rfl
  | cons v list ih =>
    rw [compareLists, diff_cons]
    split
    · exact ih
    · rename_i hv
      rw [erase_of_not_mem hv]
      exact ih

theorem count_compareLists (x : List WChar) :
    (compareLists old list).2.count x = list.count x - old.count x := by
  induction list generalizing old with
  | nil => simp [compareLists]
  | cons v list ih =>
    rw [compareLists]
    split
    · rename_i hv
      have hpos := count_pos_iff.mpr hv
      rw [ih, count_cons, count_erase]
      by_cases hx : v = x
      · subst hx
        simp
        omega
      · simp [hx]
    · rename_i hv
      by_cases hx : v = x
      · subst hx
        simp [ih, count_eq_zero.mpr hv]
      · simp [ih, hx]

theorem values_updateTextList (hlist : ∀ v ∈ list, containsCRLF v = false) :
    values towlower s (updateTextList towlower s ini list) =
      ((values towlower s ini).filter fun x =>
          !decide (∃ r ∈ (values towlower s ini).diff list, Deletes towlower r x)) ++
        (compareLists (values towlower s ini) list).2.filter fun v => v ≠ [] := by
  have hnew : ∀ v ∈ (compareLists (values towlower s ini) list).2, containsCRLF v = false := by
    intro v hv
    have hpos := count_pos_iff.mpr hv
    rw [count_compareLists] at hpos
    exact hlist v (count_pos_iff.mp (by omega))
  rw [updateTextList, ← compareLists_fst]
  rw [values_foldl_appendText hnew, values_foldl_delValue]

theorem count_updateTextList (hlist : ∀ v ∈ list, containsCRLF v = false) (x : List WChar) :
    (values towlower s (updateTextList towlower s ini list)).count x =
      (if ∃ r ∈ (values towlower s ini).diff list, Deletes towlower r x then 0
        else (values towlower s ini).count x) +
      if x = [] then 0 else list.count x - (values towlower s ini).count x := by
  rw [values_updateTextList hlist, count_append]
  congr 1
  · split
    · rename_i h
      exact count_eq_zero.mpr fun hmem => by simpa [h] using (mem_filter.mp hmem).2
    · rename_i h
      exact count_filter (by simpa using h)
  · split
    · rename_i h
      exact count_eq_zero.mpr fun hmem => by simpa [h] using (mem_filter.mp hmem).2
    · rename_i h
      rw [count_filter (by simpa using h), count_compareLists]

/-- The values of the list are reached: those that are to go do not take along one that stays,
and no empty one is to be added. -/
def ListInOrder (towlower : WChar → WChar) (old list : List (List WChar)) : Prop :=
  (∀ r ∈ old.diff list, ∀ k ∈ old, k ∈ list → ¬ Deletes towlower r k) ∧
    list.count [] ≤ old.count []

theorem updateTextList_perm_iff (hlist : ∀ v ∈ list, containsCRLF v = false) :
    (values towlower s (updateTextList towlower s ini list)).Perm list ↔
      ListInOrder towlower (values towlower s ini) list := by
  simp only [perm_iff_count, count_updateTextList hlist]
  have hself : ∀ x, x ∈ (values towlower s ini).diff list →
      ∃ r ∈ (values towlower s ini).diff list, Deletes towlower r x :=
    fun x hx => ⟨x, hx, Or.inr (beq_self_eq_true _)⟩
  have hdiff : ∀ x, x ∈ (values towlower s ini).diff list ↔
      list.count x < (values towlower s ini).count x := by
    intro x
    rw [← count_pos_iff, count_diff]
    omega
  constructor
  · intro h
    refine ⟨fun r hr k hk hlk hdel => ?_, ?_⟩
    · have hcount := h k
      have hold := count_pos_iff.mpr hk
      have hnew := count_pos_iff.mpr hlk
      rw [if_pos ⟨r, hr, hdel⟩] at hcount
      split at hcount <;> omega
    · have hcount := h []
      simp only [if_true] at hcount
      split at hcount <;> omega
  · rintro ⟨hkeep, hempty⟩ x
    split
    · rename_i hdel
      obtain ⟨r, hr, hdel⟩ := hdel
      by_cases hx : x ∈ list
      · have hold : (values towlower s ini).count x = 0 :=
          count_eq_zero.mpr fun hold => hkeep r hr x hold hx hdel
        split
        · rename_i hnil
          subst hnil
          omega
        · omega
      · have hnew := count_eq_zero.mpr hx
        split <;> omega
    · rename_i hdel
      have hle : (values towlower s ini).count x ≤ list.count x :=
        Nat.not_lt.mp fun hlt => hdel (hself x ((hdiff x).mpr hlt))
      split
      · rename_i hnil
        subst hnil
        omega
      · omega

/-! ### Switches -/

/-- What `SetBoolSafe` deletes. -/
def others (str : List WChar) (vals : List (List WChar)) : List (List WChar) :=
  vals.filter fun x => 44 ∉ x ∧ x ≠ str

theorem mem_others {str x : List WChar} {vals : List (List WChar)} :
    x ∈ others str vals ↔ x ∈ vals ∧ 44 ∉ x ∧ x ≠ str := by
  simp [others]

theorem setBoolLoop_eq (str : List WChar) (hstr : 44 ∉ str) (vals : List (List WChar))
    (bAdd : Bool) : setBoolLoop towlower s str vals (ini, bAdd) =
      ((others str vals).foldl (delValue towlower s) ini, bAdd && !decide (str ∈ vals)) := by
  induction vals generalizing ini bAdd with
  | nil => simp [setBoolLoop, others]
  | cons cur vals ih =>
    rw [setBoolLoop]
    by_cases hcomma : 44 ∈ cur
    · have hne : ¬ str = cur := fun h => hstr (h ▸ hcomma)
      simp [hcomma, ih, hne, others]
    by_cases heq : cur = str
    · simp [heq, ih, hstr, others]
    · simp [hcomma, heq, ih, Ne.symm heq, others]

theorem boolOf_eq (value default : Bool) {vals : List (List WChar)}
    (h : ∀ x ∈ vals, 44 ∈ x ∨ x = strValue value) :
    boolOf default vals = if strValue value ∈ vals then value else default := by
  induction vals with
  | nil => rfl
  | cons x vals ih =>
    have hrest := ih fun y hy => h y (mem_cons_of_mem x hy)
    rw [boolOf]
    rcases h x mem_cons_self with hcomma | rfl
    · have hne : ¬ strValue value = x := fun heq => by
        subst heq
        cases value <;> exact absurd hcomma (by decide)
      simp [hcomma, hrest, hne]
    · cases value <;> rfl

/-- The value is reached: no other value without a comma takes it along. -/
def BoolInOrder (towlower : WChar → WChar) (old : List (List WChar)) (value : Bool) : Prop :=
  strValue value ∈ old → ∀ r ∈ old, 44 ∉ r → r ≠ strValue value →
    ¬ Deletes towlower r (strValue value)

theorem setBoolSafe_getBool_iff (value : Bool) :
    (∀ default, getBool towlower s (setBoolSafe towlower s ini value) default = value) ↔
      BoolInOrder towlower (values towlower s ini) value := by
  have hstr : 44 ∉ strValue value := by cases value <;> decide
  have hcrlf : containsCRLF (strValue value) = false := by cases value <;> rfl
  have hne : strValue value ≠ [] := by cases value <;> decide
  have hafter : values towlower s (setBoolSafe towlower s ini value) =
      ((values towlower s ini).filter fun x => !decide (∃ r ∈ others (strValue value)
        (values towlower s ini), Deletes towlower r x)) ++
      if strValue value ∈ values towlower s ini then [] else [strValue value] := by
    rw [setBoolSafe, setBoolLoop_eq _ hstr]
    by_cases hmem : strValue value ∈ values towlower s ini
    · simp [hmem, values_foldl_delValue]
    · simp [hmem, values_appendText hcrlf, values_foldl_delValue, hne]
  have honly : ∀ x ∈ values towlower s (setBoolSafe towlower s ini value),
      44 ∈ x ∨ x = strValue value := by
    intro x hx
    rw [hafter, mem_append] at hx
    rcases hx with hx | hx
    · obtain ⟨hmem, hkeep⟩ := mem_filter.mp hx
      by_contra hno
      have hdel : ∃ r ∈ others (strValue value) (values towlower s ini), Deletes towlower r x :=
        ⟨x, mem_others.mpr ⟨hmem, not_or.mp hno⟩, Or.inr (beq_self_eq_true _)⟩
      simp [hdel] at hkeep
    · split at hx
      · cases hx
      · exact Or.inr (mem_singleton.mp hx)
  have hread : (∀ default, getBool towlower s (setBoolSafe towlower s ini value) default = value) ↔
      strValue value ∈ values towlower s (setBoolSafe towlower s ini value) := by
    simp only [getBool, boolOf_eq value _ honly]
    constructor
    · intro h
      by_contra hno
      simpa [hno] using h (!value)
    · intro h default
      rw [if_pos h]
  rw [hread, hafter, BoolInOrder, mem_append, mem_filter]
  by_cases hmem : strValue value ∈ values towlower s ini
  · simp [hmem, mem_others]
  · simp [hmem]

/-! ### Both -/

/-- **The values that are asked for are reached**, the list by `UpdateTextList` and the switch by
`SetBoolSafe`, exactly where no deletion takes a value along that is to stay. -/
theorem updates_reach_iff (towlower : WChar → WChar) (s : Setting) (ini : CIniFile)
    (list : List (List WChar)) (value : Bool) (hlist : ∀ v ∈ list, containsCRLF v = false) :
    ((values towlower s (updateTextList towlower s ini list)).Perm list ↔
      ListInOrder towlower (values towlower s ini) list) ∧
    ((∀ default, getBool towlower s (setBoolSafe towlower s ini value) default = value) ↔
      BoolInOrder towlower (values towlower s ini) value) :=
  ⟨updateTextList_perm_iff hlist, setBoolSafe_getBool_iff value⟩

def option : Setting := ⟨wide ['b'], wide ['o'], by decide, rfl, by decide, by decide⟩

def twice (v w : List WChar) : CIniFile := ⟨0, [⟨wide ['b'], [⟨wide ['o'], v⟩, ⟨wide ['o'], w⟩]⟩]⟩

theorem updates_reach_iff_twice : containsCRLF (wide ['x']) = false ∧
    ((values asciiLower option (updateTextList asciiLower option
        (twice (wide ['x']) (wide ['z'])) [wide ['x']])).Perm [wide ['x']] ↔
      ListInOrder asciiLower (values asciiLower option (twice (wide ['x']) (wide ['z'])))
        [wide ['x']]) :=
  ⟨rfl, (updates_reach_iff asciiLower option (twice (wide ['x']) (wide ['z'])) [wide ['x']] true
    (by decide)).1⟩

/-- `X` takes `x` along, and `Y` the `y` that is asked for. -/
theorem updates_take_along :
    ¬ (values asciiLower option (updateTextList asciiLower option
        (twice (wide ['x']) (wide ['X'])) [wide ['x']])).Perm [wide ['x']] ∧
      getBool asciiLower option (setBoolSafe asciiLower option
        (twice (wide ['y']) (wide ['Y'])) true) false = false := by
  decide

end Sandboxie.SettingValues
