import Sandboxie.Plus.SettingValues
import Sandboxie.Lib.SortedMap

/-!
# Maps in the values of a setting

`CSbieIni::SetTextMap` writes a map of groups to lists of names into the values of a setting,
with as many names in a value as the length of a line allows, and `GetTextMap` puts them
together again.
-/

namespace Sandboxie.TextMap

open Ini SettingValues Text List

abbrev Groups := SortedMap (List WChar) (List (List WChar))

/-- What the driver leaves out around a value. -/
def isBlank (c : WChar) : Bool := c ≤ 32

def trim (value : List WChar) : List WChar :=
  ((value.dropWhile isBlank).reverse.dropWhile isBlank).reverse

def lineOf (group payload : List WChar) : List WChar := group ++ 58 :: payload

/-- A turn of the loop over the names of a group, with `Mapping` and `CurrentLine`. -/
def addName (setting group : List WChar) (state : List (List WChar) × List WChar)
    (name : List WChar) : List (List WChar) × List WChar :=
  let (mapping, line) :=
    if confLineLen ≤ setting.length + 1 + group.length + 1 + state.2.length + 1 + name.length then
      (state.1 ++ [lineOf group state.2], [])
    else state
  (mapping, (if line = [] then line else line ++ [44]) ++ name)

def groupLines (setting group : List WChar) (names : List (List WChar)) : List (List WChar) :=
  if names = [] then [lineOf group []]
  else
    let (mapping, line) := names.foldl (addName setting group) ([], [])
    if line = [] then mapping else mapping ++ [lineOf group line]

/-- The values that `SetTextMap` writes. -/
def mapping (setting : List WChar) (map : Groups) : List (List WChar) :=
  map.entries.flatMap fun e => groupLines setting e.1 e.2

/-- A turn of the loop of `GetTextMap`. -/
def readLine (map : Groups) (line : List WChar) : Groups :=
  let payload := (line.reverse.takeWhile (· ≠ 58)).reverse
  let group := if 58 ∈ line then line.take (line.length - payload.length - 1) else []
  if payload = [] then if (map.value group).isSome then map else map.insert group []
  else map.insert group
    ((map.value group).getD [] ++ (payload.splitOn 44).filter fun name => name ≠ [])

variable (towlower : WChar → WChar) (s : Setting)

def setTextMap (ini : CIniFile) (map : Groups) : CIniFile :=
  (mapping s.name map).foldl (appendText towlower s) (delValue towlower s ini [])

/-- `GetTextMap`, of the values as the driver reads them. -/
def getTextMap (ini : CIniFile) : Groups :=
  ((values towlower s ini).map trim).foldl readLine SortedMap.empty

/-! ### Groups that can be written -/

/-- No blank is at the end. -/
def Solid (value : List WChar) : Prop := ∀ c, value.getLast? = some c → isBlank c = false

structure IsName (name : List WChar) : Prop where
  notEmpty : name ≠ []
  plain : 58 ∉ name ∧ 44 ∉ name ∧ containsCRLF name = false
  solid : Solid name

/-- Each group with a single name fits in a line, and an empty group too. -/
structure Writable (setting group : List WChar) (names : List (List WChar)) : Prop where
  noBreak : containsCRLF group = false
  noBlank : ∀ c, group.head? = some c → isBlank c = false
  members : ∀ name ∈ names, IsName name
  single : ∀ name ∈ names, setting.length + 1 + group.length + 1 + name.length < confLineLen
  empty : names = [] → setting.length + 1 + group.length + 1 < confLineLen

variable {towlower s} {setting group : List WChar} {names c : List (List WChar)}

def join (c : List (List WChar)) : List WChar := [44].intercalate c

theorem join_concat (c : List (List WChar)) (name : List WChar) :
    join (c ++ [name]) = (if c = [] then [] else join c ++ [44]) ++ name := by
  induction c with
  | nil => simp [join]
  | cons x c ih =>
    cases c with
    | nil => simp [join]
    | cons y c =>
      rw [join, cons_append, cons_append, intercalate_cons_cons, ← cons_append, ← join, ih]
      simp [join, intercalate_cons_cons]

theorem mem_join {w : WChar} (h : w ∈ join c) : w = 44 ∨ ∃ name ∈ c, w ∈ name := by
  induction c using List.reverseRecOn with
  | nil => cases h
  | append_singleton c name ih =>
    rw [join_concat] at h
    split at h
    · exact Or.inr ⟨name, by simp, by simpa using h⟩
    · rcases mem_append.mp h with h | h
      · rcases mem_append.mp h with h | h
        · rcases ih h with h | ⟨x, hx, hw⟩
          · exact Or.inl h
          · exact Or.inr ⟨x, by simp [hx], hw⟩
        · exact Or.inl (mem_singleton.mp h)
      · exact Or.inr ⟨name, by simp, h⟩

theorem join_eq_nil (hc : ∀ name ∈ c, IsName name) : join c = [] ↔ c = [] := by
  induction c using List.reverseRecOn with
  | nil => simp [join]
  | append_singleton c name ih =>
    have hne := (hc name (by simp)).notEmpty
    simp [join_concat, hne]

theorem solid_join (hc : ∀ name ∈ c, IsName name) : Solid (join c) := by
  intro w hw
  induction c using List.reverseRecOn with
  | nil => cases hw
  | append_singleton c name ih =>
    have hname := hc name (by simp)
    rw [join_concat, getLast?_append_of_ne_nil _ hname.notEmpty] at hw
    exact hname.solid w hw

/-! ### Writing -/

/-- The value of a group for some of its names. -/
def piece (group : List WChar) (c : List (List WChar)) : List WChar := lineOf group (join c)

def Short (setting value : List WChar) : Prop := setting.length + 1 + value.length < confLineLen

theorem addName_eq (cs : List (List (List WChar))) (hc : ∀ x ∈ c, IsName x) (name : List WChar) :
    addName setting group (cs.map (piece group), join c) name =
      if confLineLen ≤ setting.length + 1 + group.length + 1 + (join c).length + 1 + name.length
      then ((cs ++ [c]).map (piece group), join [name])
      else (cs.map (piece group), join (c ++ [name])) := by
  rw [addName]
  dsimp only
  split
  · simp [piece, join]
  · by_cases hnil : c = []
    · simp [hnil, join]
    · simp [join_concat, hnil, join_eq_nil hc]

/-- The turns of the loop cut the names into pieces. -/
theorem foldl_addName (h : Writable setting group names) :
    ∃ (cs : List (List (List WChar))) (c : List (List WChar)), names.foldl
      (addName setting group) ([], []) = (cs.map (piece group), join c) ∧
      cs.flatten ++ c = names ∧ (∀ d ∈ cs, Short setting (piece group d)) ∧
      (names ≠ [] → c ≠ [] ∧ Short setting (piece group c)) := by
  obtain ⟨-, -, hnames, hsingle, -⟩ := h
  induction names using List.reverseRecOn with
  | nil => exact ⟨[], [], rfl, rfl, by simp, fun h => absurd rfl h⟩
  | append_singleton names name ih =>
    obtain ⟨cs, c, hfold, hflat, hcs, hlast⟩ := ih (fun x hx => hnames x (mem_append_left _ hx))
      fun x hx => hsingle x (mem_append_left _ hx)
    have hc : ∀ x ∈ c, IsName x := fun x hx =>
      hnames x (mem_append_left _ (hflat ▸ mem_append_right _ hx))
    have hname := hsingle name (by simp)
    rw [foldl_append, hfold, foldl_cons, foldl_nil, addName_eq cs hc]
    split
    · refine ⟨cs ++ [c], [name], rfl, by simp [← hflat], fun d hd => ?_, fun _ => ⟨by simp, ?_⟩⟩
      · rcases mem_append.mp hd with hd | hd
        · exact hcs d hd
        · cases mem_singleton.mp hd
          by_cases hnil : names = []
          · obtain ⟨-, rfl⟩ := append_eq_nil_iff.mp (hflat.trans hnil)
            simp [Short, piece, lineOf, join]
            omega
          · exact (hlast hnil).2
      · simp [Short, piece, lineOf, join]
        omega
    · rename_i hroom
      refine ⟨cs, c ++ [name], rfl, by simp [← hflat], hcs, fun _ => ⟨by simp, ?_⟩⟩
      simp only [Short, piece, lineOf, join_concat]
      split <;> simp <;> omega

/-- The values of a group are its names in pieces, all of which are short enough. -/
theorem groupLines_eq (h : Writable setting group names) :
    ∃ cs : List (List (List WChar)), cs ≠ [] ∧
      groupLines setting group names = cs.map (piece group) ∧ cs.flatten = names ∧
      ∀ d ∈ cs, Short setting (piece group d) := by
  rw [groupLines]
  split
  · rename_i hnil
    refine ⟨[[]], by simp, rfl, by simp [hnil], ?_⟩
    have hempty := h.empty hnil
    simp [Short, piece, lineOf, join]
    omega
  · rename_i hne
    obtain ⟨cs, c, hfold, hflat, hcs, hlast⟩ := foldl_addName h
    obtain ⟨hc, hshort⟩ := hlast hne
    have hnames : ∀ x ∈ c, IsName x := fun x hx =>
      h.members x (hflat ▸ mem_append_right _ hx)
    rw [hfold]
    dsimp only
    rw [if_neg fun hnil => hc ((join_eq_nil hnames).mp hnil)]
    refine ⟨cs ++ [c], by simp, by simp [piece], by simpa using hflat, fun d hd => ?_⟩
    rcases mem_append.mp hd with hd | hd
    · exact hcs d hd
    · cases mem_singleton.mp hd
      exact hshort

/-! ### Reading -/

theorem trim_piece (hgroup : ∀ c, group.head? = some c → isBlank c = false)
    (hc : ∀ x ∈ c, IsName x) : trim (piece group c) = piece group c := by
  have hfront : (piece group c).dropWhile isBlank = piece group c := by
    cases group with
    | nil => rfl
    | cons w group => simp [piece, lineOf, hgroup w rfl]
  have hback : (piece group c).reverse.dropWhile isBlank = (piece group c).reverse := by
    have hsolid := solid_join hc
    rw [Solid, getLast?_eq_head?_reverse] at hsolid
    rw [piece, lineOf, reverse_append, reverse_cons]
    cases hjoin : (join c).reverse with
    | nil => rfl
    | cons w rest => simp [hsolid w (by rw [hjoin]; rfl)]
  rw [trim, hfront, hback, reverse_reverse]

theorem readLine_piece (map : Groups) (hc : ∀ x ∈ c, IsName x) (k : List WChar) :
    (readLine map (piece group c)).value k =
      if k = group then some ((map.value group).getD [] ++ c) else map.value k := by
  have hnot : ∀ w ∈ (join c).reverse, decide (w ≠ 58) = true := by
    intro w hw
    rcases mem_join (mem_reverse.mp hw) with rfl | ⟨x, hx, hw⟩
    · decide
    · exact decide_eq_true fun h => (hc x hx).plain.1 (h ▸ hw)
  have hpayload : ((piece group c).reverse.takeWhile (· ≠ 58)).reverse = join c := by
    rw [piece, lineOf, reverse_append, reverse_cons, append_assoc, takeWhile_append_of_pos hnot]
    simp
  have hgroup : (piece group c).take ((piece group c).length - (join c).length - 1) = group := by
    have hlen : (piece group c).length - (join c).length - 1 = group.length := by
      simp [piece, lineOf]
      omega
    rw [hlen, piece, lineOf, take_left]
  have hcolon : 58 ∈ piece group c := by simp [piece, lineOf]
  rw [readLine, hpayload, if_pos hcolon, hgroup]
  by_cases hnil : c = []
  · cases hvalue : map.value group with
    | none => simp [hnil, join, SortedMap.value_insert]
    | some v =>
      by_cases hk : k = group
      · simp [hnil, join, hk, hvalue]
      · simp [hnil, join, hk]
  · have hsplit : (join c).splitOn 44 = c :=
      splitOn_intercalate 44 (fun x hx => (hc x hx).plain.2.1) hnil
    have hfilter : c.filter (fun name => name ≠ []) = c :=
      filter_eq_self.mpr fun x hx => decide_eq_true (hc x hx).notEmpty
    rw [if_neg fun h => hnil ((join_eq_nil hc).mp h), hsplit, hfilter, SortedMap.value_insert]
    by_cases hk : k = group <;> simp [hk]

/-- What is read of the pieces of a group. -/
theorem foldl_pieces {cs : List (List (List WChar))} (hcs : ∀ d ∈ cs, ∀ x ∈ d, IsName x)
    (hne : cs ≠ []) (map : Groups) (k : List WChar) :
    ((cs.map (piece group)).foldl readLine map).value k =
      if k = group then some ((map.value group).getD [] ++ cs.flatten) else map.value k := by
  induction cs generalizing map with
  | nil => exact absurd rfl hne
  | cons d cs ih =>
    have hd := @readLine_piece group d map (hcs d mem_cons_self)
    rw [map_cons, foldl_cons]
    by_cases hcs' : cs = []
    · simp [hcs', hd]
    · rw [ih (fun e he => hcs e (mem_cons_of_mem d he)) hcs']
      by_cases hk : k = group <;> simp [hk, hd]

/-- What is read of the groups that are written. -/
theorem foldl_groups {es : List (List WChar × List (List WChar))}
    (hes : ∀ e ∈ es, Writable setting e.1 e.2) (hsorted : SortedMap.Sorted es) (map : Groups)
    (hfresh : ∀ e ∈ es, map.value e.1 = none) (k : List WChar) :
    ((es.flatMap fun e => groupLines setting e.1 e.2).foldl readLine map).value k =
      (SortedMap.valueOf k es).or (map.value k) := by
  induction es generalizing map with
  | nil => rfl
  | cons e es ih =>
    have he := hes e mem_cons_self
    obtain ⟨cs, hne, hlines, hflat, -⟩ := groupLines_eq he
    have hcs : ∀ d ∈ cs, ∀ x ∈ d, IsName x := fun d hd x hx =>
      he.members x (hflat ▸ mem_flatten.mpr ⟨d, hd, hx⟩)
    obtain ⟨hlt, hsorted⟩ := pairwise_cons.mp hsorted
    rw [flatMap_cons, foldl_append, hlines]
    have hread := @foldl_pieces e.1 cs hcs hne map
    rw [ih (fun e' h => hes e' (mem_cons_of_mem e h)) hsorted _ fun e' h => ?_, hread, hflat,
      hfresh e mem_cons_self, SortedMap.valueOf]
    · by_cases hk : k = e.1
      · have hnone : SortedMap.valueOf k es = none := by
          cases hvalue : SortedMap.valueOf k es with
          | none => rfl
          | some v =>
            have hless := hlt _ ((SortedMap.valueOf_eq_some hsorted).mp hvalue)
            exact absurd hk hless.ne'
        simp [hk, hk ▸ hnone]
      · simp [hk]
    · rw [hread, if_neg (hlt e' h).ne']
      exact hfresh e' (mem_cons_of_mem e h)

/-! ### Round trip -/

theorem mem_mapping {map : Groups} {v : List WChar}
    (h : ∀ e ∈ map.entries, Writable setting e.1 e.2) (hv : v ∈ mapping setting map) :
    ∃ group c, v = piece group c ∧ Short setting v ∧ containsCRLF group = false ∧
      (∀ c, group.head? = some c → isBlank c = false) ∧ ∀ x ∈ c, IsName x := by
  obtain ⟨e, he, hv⟩ := mem_flatMap.mp hv
  obtain ⟨cs, -, hlines, hflat, hshort⟩ := groupLines_eq (h e he)
  rw [hlines] at hv
  obtain ⟨d, hd, rfl⟩ := mem_map.mp hv
  exact ⟨e.1, d, rfl, hshort d hd, (h e he).noBreak, (h e he).noBlank, fun x hx =>
    (h e he).members x (hflat ▸ mem_flatten.mpr ⟨d, hd, hx⟩)⟩

theorem containsCRLF_piece (hgroup : containsCRLF group = false) (hc : ∀ x ∈ c, IsName x) :
    containsCRLF (piece group c) = false := by
  have hjoin : containsCRLF (join c) = false := by
    rw [containsCRLF, any_eq_false]
    intro w hw
    rcases mem_join hw with rfl | ⟨x, hx, hw⟩
    · decide
    · exact any_eq_false.mp (hc x hx).plain.2.2 w hw
  rw [containsCRLF] at hgroup hjoin ⊢
  rw [piece, lineOf, any_append, any_cons, hgroup, hjoin]
  decide

/-- **A map comes back** from the values that are written for it, whatever was stored before, and
no line is too long. -/
theorem getTextMap_setTextMap (towlower : WChar → WChar) (s : Setting) (ini : CIniFile)
    (map : Groups) (h : ∀ e ∈ map.entries, Writable s.name e.1 e.2) :
    getTextMap towlower s (setTextMap towlower s ini map) = map ∧
      ∀ v ∈ mapping s.name map, Short s.name v := by
  have hcrlf : ∀ v ∈ mapping s.name map, containsCRLF v = false := by
    intro v hv
    obtain ⟨group, c, rfl, -, hgroup, -, hc⟩ := mem_mapping h hv
    exact containsCRLF_piece hgroup hc
  have hvalues : values towlower s (setTextMap towlower s ini map) = mapping s.name map := by
    have hne : ∀ v ∈ mapping s.name map, v ≠ [] := by
      intro v hv
      obtain ⟨group, c, rfl, -⟩ := mem_mapping h hv
      simp [piece, lineOf]
    rw [setTextMap, values_foldl_appendText hcrlf, values_delValue]
    simpa [Deletes, filter_eq_self] using hne
  have htrim : (mapping s.name map).map trim = mapping s.name map := by
    conv_rhs => rw [← map_id (mapping s.name map)]
    refine map_congr_left fun v hv => ?_
    obtain ⟨group, c, rfl, -, -, hgroup, hc⟩ := mem_mapping h hv
    exact trim_piece hgroup hc
  constructor
  · refine SortedMap.ext fun k => ?_
    rw [getTextMap, hvalues, htrim]
    exact (foldl_groups h map.sorted SortedMap.empty (fun _ _ => rfl) k).trans (Option.or_none ..)
  · intro v hv
    obtain ⟨-, -, -, hshort, -⟩ := mem_mapping h hv
    exact hshort

def pair : Groups := SortedMap.empty.insert (wide ['g']) [wide ['a'], wide ['b']]

theorem getTextMap_setTextMap_pair : (∀ e ∈ pair.entries, Writable option.name e.1 e.2) ∧
    getTextMap asciiLower option (setTextMap asciiLower option ⟨0, []⟩ pair) = pair := by
  have hname : ∀ name ∈ [wide ['a'], wide ['b']], IsName name := by
    intro name hname
    refine ⟨?_, ?_, fun c hc => ?_⟩ <;> rcases mem_pair.mp hname with rfl | rfl <;>
      first | decide | (cases hc; rfl)
  have h : ∀ e ∈ pair.entries, Writable option.name e.1 e.2 := by
    intro e he
    cases mem_singleton.mp he
    refine ⟨rfl, fun c hc => ?_, hname, by decide, nofun⟩
    cases hc
    rfl
  exact ⟨h, (getTextMap_setTextMap asciiLower option ⟨0, []⟩ pair h).1⟩

/-- An empty group with a name of `n` letters. -/
def longGroup (n : Nat) : Groups := SortedMap.empty.insert (replicate n 103) []

/-- The length of a group is not looked at when it is empty. -/
theorem longGroup_tooLong : (∀ e ∈ (longGroup 2000).entries, containsCRLF e.1 = false ∧
      (∀ c, e.1.head? = some c → isBlank c = false) ∧ ∀ name ∈ e.2, IsName name ∧
        option.name.length + 1 + e.1.length + 1 + name.length < confLineLen) ∧
    ∃ v ∈ mapping option.name (longGroup 2000), ¬ Short option.name v := by
  generalize hn : 2000 = n
  refine ⟨fun e he => ?_, lineOf (replicate n 103) [], mem_singleton_self _, ?_⟩
  · cases mem_singleton.mp he
    refine ⟨by simp [containsCRLF], fun c hc => ?_, nofun⟩
    cases mem_replicate.mp (mem_of_head? hc) with
    | intro _ h => rw [h]; rfl
  · simp [Short, lineOf, confLineLen]
    omega

end Sandboxie.TextMap
