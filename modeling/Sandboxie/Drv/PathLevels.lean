import Sandboxie.Dll.Config

/-!
# The levels of path patterns

`Process_AddPath` of `core/drv/process_util.c` makes patterns of the value of a path setting.
Their level is what `Process_MatchImageAndGetValue` leaves in a variable that nothing has been
written to before, and a list of paths that the driver hands out ends at the level -1.
-/

namespace Sandboxie.PathLevels

open Image ProcessConf Config

/-- What the functions use of a process, of `Conf_Expand` for the setting, and of
`File_TranslateReparsePoints`. -/
structure Proc where
  box : Box
  imageName : List WChar
  confExpand : List WChar → Option (List WChar)
  translateReparsePoints : List WChar → Option (List WChar)

/-- `_wcsnicmp` finds no difference in the first characters. -/
def begins (towlower : WChar → WChar) (name : List WChar) (text : String) : Bool :=
  Text.sameNoCase towlower (name.take text.length) (wide text.toList)

/-- `setting_name_ptr`: what follows the first word of the name. -/
def settingNamePtr (towlower : WChar → WChar) (setting_name : List WChar) :
    Option (List WChar) :=
  if begins towlower setting_name "Normal" || begins towlower setting_name "Closed" then
    some (setting_name.drop 6)
  else if begins towlower setting_name "Write" then some (setting_name.drop 5)
  else if begins towlower setting_name "Read" || begins towlower setting_name "Open" then
    some (setting_name.drop 4)
  else none

structure Flags where
  removeBackslashes : Bool := false
  checkReparse : Bool := false
  addDrives : Bool := false

def flags (towlower : WChar → WChar) (setting_name : Option (List WChar)) (addStar : Bool) :
    Flags :=
  match setting_name.bind (settingNamePtr towlower) with
  | none => {}
  | some name =>
    if begins towlower name "Key" || begins towlower name "Conf" then
      { removeBackslashes := addStar }
    else if begins towlower name "File" || begins towlower name "Pipe" then
      { removeBackslashes := addStar, checkReparse := addStar, addDrives := true }
    else {}

/-- The copy without the first of two backslashes. -/
def singleBackslashes : List WChar → List WChar
  | [] => []
  | c :: src =>
    if c = Pattern.backslash ∧ src.head? = some Pattern.backslash then singleBackslashes src
    else c :: singleBackslashes src

/-- What `Process_AddPath_2` leaves: whether it succeeded, `Reparsed` and the list. -/
abbrev Added := Bool × Bool × List Pattern

def processAddPath2 (proc : Proc) (addFirst addStar removeBackslashes checkReparse : Bool)
    (level : Nat) (value : List WChar) (list : List Pattern) : Added :=
  match proc.confExpand value with
  | none => (false, false, list)
  | some expand =>
    let tmp := if removeBackslashes then singleBackslashes expand else expand
    let tmp := if addStar && !expand.contains Pattern.star then tmp ++ [Pattern.star] else tmp
    let tmp2 := if checkReparse then proc.translateReparsePoints tmp else none
    let pat := Pattern.create proc.box.towlower (tmp2.getD tmp) true level
    (true, tmp2.any fun t => !Text.sameNoCase proc.box.towlower tmp t,
      if addFirst then pat :: list else list ++ [pat])

def addReparsed (proc : Proc) (addFirst addStar : Bool) (f : Flags) (level : Nat)
    (value : List WChar) (list : List Pattern) : Bool × List Pattern :=
  match processAddPath2 proc addFirst addStar f.removeBackslashes f.checkReparse level value list
    with
  | (ok, reparsed, list) =>
    if ok && f.checkReparse && reparsed then
      match processAddPath2 proc addFirst addStar f.removeBackslashes false level value list with
      | (ok, _, list) => (ok, list)
    else (ok, list)

/-- `A` to `Z` -/
def drives : List WChar := (List.range 26).map (· + 65)

/-- A path, and the path on each drive where it starts with a wildcard for the drive. -/
def addValue (proc : Proc) (addFirst addStar : Bool) (f : Flags) (level : Nat)
    (value : List WChar) (list : List Pattern) : Bool × List Pattern :=
  let added := addReparsed proc addFirst addStar f level value list
  if f.addDrives && (value.head? == some Pattern.qmark || value.head? == some Pattern.star) &&
      value[1]? == some (':'.toNat) then
    drives.foldl
      (fun added drive =>
        if added.1 then addReparsed proc addFirst addStar f level (value.set 0 drive) added.2
        else added)
      added
  else added

/-- `Process_AddPath`: whether it succeeded, and the list.  `level` is what is on the stack. -/
def processAddPath (proc : Proc) (setting_name : Option (List WChar)) (addFirst addStar : Bool)
    (level : Nat) (value : List WChar) (list : List Pattern) : Bool × List Pattern :=
  let f := flags proc.box.towlower setting_name addStar
  match processMatchImageAndGetValue proc.box proc.imageName value level with
  | (none, _) => (true, list)
  | (some value, level) =>
    if f.removeBackslashes && value.head? == some ('|'.toNat) then
      addValue proc addFirst false f level (value.drop 1) list
    else addValue proc addFirst addStar f level value list

/-! ### Levels -/

/-- Where a value is returned the level is one of 0 to 3. -/
def LevelSet (found : Option (List WChar) × Nat) : Prop := ∀ value, found.1 = some value →
  found.2 ≤ 3

/-- No value follows a comma without an image in front of it. -/
def Imaged (value : List WChar) : Prop :=
  comma ∈ value → (imagePart value).2 ≠ [] ∨ (value.dropWhile (· ≠ comma)).drop 1 = []

instance (value : List WChar) : Decidable (Imaged value) :=
  inferInstanceAs (Decidable (comma ∈ value → (imagePart value).2 ≠ [] ∨
    (value.dropWhile (· ≠ comma)).drop 1 = []))

section Levels

variable {hits : List WChar → Bool} {globalDefault : Nat} {value : List WChar}

theorem levelSet_of_imaged (hdefault : globalDefault ≤ 3) (h : Imaged value) (level : Nat) :
    LevelSet (matchImageAndGetValue hits globalDefault value level) := by
  intro found hfound
  unfold matchImageAndGetValue at hfound ⊢
  by_cases hcomma : comma ∈ value
  · rw [if_pos hcomma] at hfound ⊢
    dsimp only at hfound ⊢
    by_cases himage : (imagePart value).2 = []
    · -- nothing follows the comma
      rw [if_pos himage, (h hcomma).resolve_left fun hne => hne himage] at hfound
      exact nomatch hfound
    rw [if_neg himage] at hfound ⊢
    by_cases hmiss : hits (imagePart value).2 = (imagePart value).1
    · rw [if_pos hmiss] at hfound
      exact nomatch hfound
    · rw [if_neg hmiss]
      show (if _ then 2 else if _ then 1 else 0) ≤ 3
      split_ifs
      · exact Nat.le_succ 2
      · exact Nat.succ_le_succ (Nat.zero_le 2)
      · exact Nat.zero_le 3
  · rw [if_neg hcomma]
    exact hdefault

theorem level_of_not_imaged (h : ¬ Imaged value) (level : Nat) :
    ∃ found, matchImageAndGetValue hits globalDefault value level = (some found, level) := by
  obtain ⟨hcomma, hnot⟩ := Classical.not_imp.mp h
  obtain ⟨himage, hrest⟩ := not_or.mp hnot
  rw [not_not] at himage
  refine ⟨(value.dropWhile (· ≠ comma)).drop 1, ?_⟩
  unfold matchImageAndGetValue
  rw [if_pos hcomma]
  dsimp only
  rw [if_pos himage, nonEmpty, if_neg hrest]

end Levels

section AddPath

variable {proc : Proc} {addFirst addStar : Bool} {level : Nat}

variable {list : List Pattern} {value : List WChar} {pat : Pattern}

theorem level_processAddPath2 {removeBackslashes checkReparse : Bool}
    (h : pat ∈ (processAddPath2 proc addFirst addStar removeBackslashes checkReparse level value
      list).2.2) : pat ∈ list ∨ pat.level = level := by
  unfold processAddPath2 at h
  split at h
  · exact .inl h
  dsimp only at h
  split at h
  · rcases List.mem_cons.mp h with rfl | h
    · exact .inr rfl
    · exact .inl h
  · rcases List.mem_append.mp h with h | h
    · exact .inl h
    · rw [List.mem_singleton.mp h]
      exact .inr rfl

theorem level_addReparsed {f : Flags}
    (h : pat ∈ (addReparsed proc addFirst addStar f level value list).2) :
    pat ∈ list ∨ pat.level = level := by
  unfold addReparsed at h
  dsimp only at h
  split at h
  · rcases level_processAddPath2 h with h | h
    · exact level_processAddPath2 h
    · exact .inr h
  · exact level_processAddPath2 h

theorem level_addValue {f : Flags}
    (h : pat ∈ (addValue proc addFirst addStar f level value list).2) :
    pat ∈ list ∨ pat.level = level := by
  unfold addValue at h
  have hadded : ∀ pat ∈ (addReparsed proc addFirst addStar f level value list).2,
      pat ∈ list ∨ pat.level = level := fun pat => level_addReparsed
  generalize addReparsed proc addFirst addStar f level value list = added at h hadded
  split at h
  · generalize drives = rest at h
    induction rest generalizing added with
    | nil => exact hadded pat h
    | cons drive rest ih =>
      refine ih _ (fun pat hpat => ?_) h
      dsimp only at hpat
      split at hpat
      · rcases level_addReparsed hpat with hpat | hpat
        · exact hadded pat hpat
        · exact .inr hpat
      · exact hadded pat hpat
  · exact hadded pat h

theorem level_processAddPath {setting_name : Option (List WChar)}
    (h : pat ∈ (processAddPath proc setting_name addFirst addStar level value list).2) :
    pat ∈ list ∨
      (processMatchImageAndGetValue proc.box proc.imageName value level).1 ≠ none ∧
        pat.level = (processMatchImageAndGetValue proc.box proc.imageName value level).2 := by
  unfold processAddPath at h
  cases hmatch : processMatchImageAndGetValue proc.box proc.imageName value level with
  | mk found level' =>
    rw [hmatch] at h
    cases found with
    | none => exact .inl h
    | some value' =>
      refine (?_ : pat ∈ list ∨ pat.level = level').imp_right fun heq => ⟨nofun, heq⟩
      dsimp only at h
      split at h
      · exact level_addValue h
      · exact level_addValue h

end AddPath

/-- The driver and the DLL set the level of every value they return, and the patterns that are
made of the value have a level of 0 to 3, exactly where no value follows an empty image. -/
theorem levels_iff (box : Box) (hexMatch : Pattern → List WChar → Bool)
    (imageName value : List WChar) :
    ((∀ level, LevelSet (processMatchImageAndGetValue box imageName value level)) ∧
      (∀ name level, LevelSet (configMatchImageAndGetValue box hexMatch name value level)) ∧
      ∀ proc setting_name addFirst addStar level list, proc.box = box →
        proc.imageName = imageName →
        ∀ pat ∈ (processAddPath proc setting_name addFirst addStar level value list).2,
          pat ∈ list ∨ pat.level ≤ 3 ∧ pat.level ≠ unset) ↔
    Imaged value := by
  constructor
  · rintro ⟨hdriver, -, -⟩
    by_contra hnot
    obtain ⟨found, hfound⟩ : ∃ found, matchImageAndGetValue
        (fun patStr => processMatchImage box patStr imageName) 3 value unset =
          (some found, unset) := level_of_not_imaged hnot unset
    have hlevel := hdriver unset found (by rw [processMatchImageAndGetValue, hfound])
    rw [processMatchImageAndGetValue, hfound] at hlevel
    exact absurd hlevel (show ¬ unset ≤ 3 by decide)
  · intro h
    have hdriver : ∀ level, LevelSet (processMatchImageAndGetValue box imageName value level) :=
      fun level => levelSet_of_imaged (Nat.le_refl 3) h level
    refine ⟨hdriver, fun name level => ?_, fun proc setting_name addFirst addStar level list hbox
      hname pat hpat => ?_⟩
    · cases name with
      | none =>
        rw [configMatchImageAndGetValue]
        split_ifs with hcomma
        · intro found hfound
          cases hfound
        · exact levelSet_of_imaged (Nat.le_succ 2) h level
      | some name => exact levelSet_of_imaged (Nat.le_succ 2) h level
    · subst hbox
      subst hname
      refine (level_processAddPath hpat).imp_right ?_
      rintro ⟨hfound, heq⟩
      obtain ⟨found, hfound⟩ := Option.ne_none_iff_exists'.mp hfound
      have hle := hdriver level found hfound
      rw [heq]
      exact ⟨hle, ne_of_lt (lt_of_le_of_lt hle (by decide))⟩

/-- `,v`: both copies return `v` and leave the level as it was. -/
theorem levels_unset :
    processMatchImageAndGetValue plainBox [97] [44, 118] unset = (some [118], unset) ∧
    configMatchImageAndGetValue plainBox (fun _ _ => false) (some [97]) [44, 118] unset =
      (some [118], unset) ∧
    ((processAddPath ⟨plainBox, [97], some, fun _ => none⟩ none false false unset [44, 118]
      []).2.map fun pat => pat.level) = [unset] := by
  refine ⟨?_, ?_, ?_⟩ <;> decide

end Sandboxie.PathLevels
