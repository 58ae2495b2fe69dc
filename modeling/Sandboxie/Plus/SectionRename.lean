import Sandboxie.Common.IniValue

/-!
# Renaming a section of the ini file

`CSbieIni::RenameSection`: the text of a section is written under the new name and taken away
under the old one, in this order unless the two differ in case only.  The names are compared by
one function, as those of boxes are made of ASCII characters.
-/

namespace Sandboxie.SectionRename

open Ini Text List

/-- Whether the driver knows the new name, and whether the service grants the two requests. -/
structure Env where
  found : Bool
  write : Bool
  delete : Bool

section Names

variable (towlower : WChar → WChar)

/-- `SbieIniGetEx` for the whole section, which is empty where the section is not there. -/
def rawSection (ini : CIniFile) (name : List WChar) : List WChar :=
  (getValue towlower ini name []).2

/-- `SbieIniSet`: a request that is refused, or throws, leaves the file. -/
def sbieIniSet (granted : Bool) (ini : CIniFile) (edited : Option (CIniFile × Status)) :
    CIniFile × Bool :=
  match granted, edited with
  | true, some (ini', status) => (ini', status.ok)
  | _, _ => (ini, false)

def writeSection (env : Env) (newName raw : List WChar) (ini : CIniFile) : CIniFile × Bool :=
  sbieIniSet env.write ini (setValue towlower ini newName [] (given raw))

def deleteSection (env : Env) (name : List WChar) (ini : CIniFile) : CIniFile × Bool :=
  sbieIniSet env.delete ini (some (removeSection towlower ini name))

/-- `RenameSection`: the file, and whether the answer is `SB_OK`. -/
def renameSection (ini : CIniFile) (name newName : List WChar) (deleteOld : Bool) (env : Env) :
    CIniFile × Bool :=
  let sameName := sameNoCase towlower newName name
  let raw := rawSection towlower ini name
  if name = [] ∨ newName = [] then (ini, false)
  else if !sameName && env.found then (ini, false)
  else if raw = [] then (ini, false)
  else if deleteOld && sameName then
    match deleteSection towlower env name ini with
    | (ini, false) => (ini, false)
    | (ini, true) => writeSection towlower env newName raw ini
  else
    match writeSection towlower env newName raw ini with
    | (ini, false) => (ini, false)
    | (ini, true) => if deleteOld then deleteSection towlower env name ini else (ini, true)

/-! ### What is promised -/

structure Kept (ini : CIniFile) (name newName : List WChar) (deleteOld : Bool) (env : Env) :
    Prop where
  error : ∀ ini', renameSection towlower ini name newName deleteOld env = (ini', false) →
    rawSection towlower ini' name = rawSection towlower ini name ∨
      rawSection towlower ini' newName = rawSection towlower ini name
  done : ∀ ini', renameSection towlower ini name newName deleteOld env = (ini', true) →
    rawSection towlower ini' newName = rawSection towlower ini name
  removed : ∀ ini', renameSection towlower ini name newName deleteOld env = (ini', true) →
    deleteOld = true → ¬ sameNoCase towlower newName name = true →
      ini'.sections.any (Section.isNamed towlower name) = false

/-- What is stored for the text of a section, where it can be read. -/
def reread (raw : List WChar) : Option (List WChar) :=
  match readSection (lines raw []) with
  | some (entries, []) => some (entries.foldl (getStep towlower []) [])
  | _ => none

/-- The two names are tried, and there is something to write. -/
def Proceeds (ini : CIniFile) (name newName : List WChar) (env : Env) : Prop :=
  name ≠ [] ∧ newName ≠ [] ∧ (sameNoCase towlower newName name = true ∨ env.found = false) ∧
    rawSection towlower ini name ≠ []

/-- The text is read back as it is when it is written.  Where it is taken away first the write
must come through, unless a second section has the text too; where it is taken away behind the
write there is no second section. -/
def Safe (ini : CIniFile) (name newName : List WChar) (deleteOld : Bool) (env : Env) : Prop :=
  let raw := rawSection towlower ini name
  let others := (removeSection towlower ini name).1
  let written := env.write = true ∧ (reread towlower raw).isSome = true
  if deleteOld = true ∧ sameNoCase towlower newName name = true then
    env.delete = true → (written ∧ reread towlower raw = some raw) ∨
      (¬ written ∧ rawSection towlower others name = raw)
  else
    written → (deleteOld = true → env.delete = true) → reread towlower raw = some raw ∧
      (deleteOld = true → ini.sections.countP (Section.isNamed towlower name) ≤ 1)

end Names

variable {towlower : WChar → WChar} {ini : CIniFile} {name newName other raw : List WChar}
variable {env : Env} {deleteOld : Bool}

/-! ### The two requests -/

theorem rawSection_congr (h : sameNoCase towlower newName name = true) :
    rawSection towlower ini newName = rawSection towlower ini name := by
  rw [rawSection, rawSection, getValue, getValue, Section.isNamed_congr h]

theorem rawSection_getSection : rawSection towlower (getSection towlower ini newName) other =
    rawSection towlower ini other := by
  by_cases h : sameNoCase towlower other newName = true
  · rw [rawSection_congr h, rawSection_congr h, rawSection, rawSection, getValue, getValue,
      find?_getSection]
    cases ini.sections.find? (Section.isNamed towlower newName) <;> rfl
  · rw [rawSection, rawSection, getValue, getValue, find?_getSection_ne h]

theorem rawSection_written (entries : List Entry) :
    rawSection towlower ((getSection towlower ini newName).change towlower newName fun _ => entries)
      newName = entries.foldl (getStep towlower []) [] := by
  rw [rawSection, getValue, CIniFile.change, find?_changeEntries, find?_getSection]
  rfl

theorem names_changeEntries (f : List Entry → List Entry) (secs : List Section) :
    (changeEntries towlower newName f secs).map Section.name = secs.map Section.name := by
  induction secs with
  | nil => rfl
  | cons sec secs ih =>
    rw [changeEntries]
    split <;> simp [ih]

theorem countP_written (h : ¬ sameNoCase towlower name newName = true)
    (f : List Entry → List Entry) :
    ((getSection towlower ini newName).change towlower newName f).sections.countP
      (Section.isNamed towlower name) = ini.sections.countP (Section.isNamed towlower name) := by
  have hname : ∀ secs : List Section, secs.countP (Section.isNamed towlower name) =
      (secs.map Section.name).countP fun n => sameNoCase towlower n name := by
    intro secs
    rw [countP_map]
    rfl
  rw [hname, CIniFile.change, names_changeEntries, ← hname, getSection]
  split
  · rfl
  · have hnew : ¬ Section.isNamed towlower name ⟨newName, []⟩ = true := fun hnamed =>
      h (beq_iff_eq.mpr (beq_iff_eq.mp hnamed).symm)
    simp [hnew]

theorem any_eraseP (p : Section → Bool) (secs : List Section) :
    (secs.eraseP p).any p = false ↔ secs.countP p ≤ 1 := by
  induction secs with
  | nil => simp
  | cons sec secs ih =>
    by_cases h : p sec = true
    · simp [h, countP_eq_zero]
    · simpa [h] using ih

theorem writeSection_eq (hraw : raw ≠ []) (hwrite : env.write = true) {text : List WChar}
    (hread : reread towlower raw = some text) : ∃ entries,
      entries.foldl (getStep towlower []) [] = text ∧ writeSection towlower env newName raw ini =
        ((getSection towlower ini newName).change towlower newName fun _ => entries, true) := by
  rw [reread] at hread
  split at hread
  · rename_i entries hentries
    cases hread
    refine ⟨entries, rfl, ?_⟩
    rw [writeSection, hwrite, setValue, if_neg (by decide), given, if_neg hraw]
    simp [sbieIniSet, hentries, Status.ok]
  · cases hread

theorem writeSection_fails (ini : CIniFile) (newName : List WChar) (hraw : raw ≠ [])
    (hfail : ¬ (env.write = true ∧ (reread towlower raw).isSome = true)) :
    ∃ ini', writeSection towlower env newName raw ini = (ini', false) ∧
      ∀ other, rawSection towlower ini' other = rawSection towlower ini other := by
  cases hwrite : env.write with
  | false => exact ⟨ini, by simp [writeSection, sbieIniSet, hwrite], fun _ => rfl⟩
  | true =>
    rw [writeSection, hwrite, setValue, if_neg (by decide), given, if_neg hraw]
    cases hread : readSection (lines raw []) with
    | none => exact ⟨ini, by simp [sbieIniSet, hread], fun _ => rfl⟩
    | some r =>
      obtain ⟨entries, _ | ⟨line, rest⟩⟩ := r
      · exact absurd ⟨hwrite, by simp [reread, hread]⟩ hfail
      · exact ⟨getSection towlower ini newName, by simp [sbieIniSet, hread, Status.ok],
          fun _ => rawSection_getSection⟩

theorem rawSection_written_ne (h : ¬ sameNoCase towlower name newName = true)
    (entries : List Entry) :
    rawSection towlower ((getSection towlower ini newName).change towlower newName fun _ => entries)
      name = rawSection towlower ini name := by
  rw [rawSection, rawSection, getValue, getValue, CIniFile.change, find?_changeEntries_ne h,
    find?_getSection_ne h]

theorem find?_eraseP {p q : Section → Bool} (h : ∀ sec, p sec = true → ¬ q sec = true)
    (secs : List Section) : (secs.eraseP p).find? q = secs.find? q := by
  induction secs with
  | nil => rfl
  | cons sec secs ih =>
    by_cases hp : p sec = true
    · rw [eraseP_cons_of_pos hp, find?_cons_of_neg (h sec hp)]
    · rw [eraseP_cons_of_neg hp, find?_cons, find?_cons, ih]

theorem rawSection_removed_ne (h : ¬ sameNoCase towlower newName name = true) :
    rawSection towlower (removeSection towlower ini name).1 newName =
      rawSection towlower ini newName := by
  rw [rawSection, rawSection, getValue, getValue, removeSection, find?_eraseP]
  intro sec hname hnew
  exact h (Section.sameNoCase_of_isNamed hnew hname)

/-! ### Renaming -/

theorem kept_iff {ini' : CIniFile} {done : Bool}
    (h : renameSection towlower ini name newName deleteOld env = (ini', done)) :
    Kept towlower ini name newName deleteOld env ↔
      (done = false → rawSection towlower ini' name = rawSection towlower ini name ∨
        rawSection towlower ini' newName = rawSection towlower ini name) ∧
      (done = true → rawSection towlower ini' newName = rawSection towlower ini name ∧
        (deleteOld = true → ¬ sameNoCase towlower newName name = true →
          ini'.sections.any (Section.isNamed towlower name) = false)) := by
  constructor
  · intro hkept
    refine ⟨fun hd => hkept.error ini' (hd ▸ h), fun hd => ?_⟩
    exact ⟨hkept.done ini' (hd ▸ h), hkept.removed ini' (hd ▸ h)⟩
  · rintro ⟨herror, hdone⟩
    refine ⟨fun _ h' => ?_, fun _ h' => ?_, fun _ h' => ?_⟩ <;> cases h.symm.trans h'
    · exact herror rfl
    · exact (hdone rfl).1
    · exact (hdone rfl).2

theorem kept_of_not_proceeds (h : ¬ Proceeds towlower ini name newName env) :
    Kept towlower ini name newName deleteOld env := by
  have hstops : renameSection towlower ini name newName deleteOld env = (ini, false) := by
    rw [renameSection]
    by_cases hempty : name = [] ∨ newName = []
    · rw [if_pos hempty]
    by_cases hfound : (!sameNoCase towlower newName name && env.found) = true
    · rw [if_neg hempty, if_pos hfound]
    by_cases hraw : rawSection towlower ini name = []
    · rw [if_neg hempty, if_neg hfound, if_pos hraw]
    refine absurd ⟨fun hn => hempty (.inl hn), fun hn => hempty (.inr hn), ?_, hraw⟩ h
    by_cases hsame : sameNoCase towlower newName name = true
    · exact .inl hsame
    · exact .inr (by simpa [hsame] using hfound)
  exact (kept_iff hstops).mpr ⟨fun _ => .inl rfl, nofun⟩

theorem renameSection_eq (hp : Proceeds towlower ini name newName env) :
    renameSection towlower ini name newName deleteOld env =
      if deleteOld && sameNoCase towlower newName name then
        match deleteSection towlower env name ini with
        | (ini, false) => (ini, false)
        | (ini', true) => writeSection towlower env newName (rawSection towlower ini name) ini'
      else
        match writeSection towlower env newName (rawSection towlower ini name) ini with
        | (ini, false) => (ini, false)
        | (ini, true) =>
          if deleteOld then deleteSection towlower env name ini else (ini, true) := by
  obtain ⟨hname, hnew, hfound, hraw⟩ := hp
  have hgoes : ¬ (!sameNoCase towlower newName name && env.found) = true := by
    rcases hfound with h | h <;> simp [h]
  rw [renameSection]
  rw [if_neg (not_or.mpr ⟨hname, hnew⟩), if_neg hgoes, if_neg hraw]

theorem kept_deleteFirst (hp : Proceeds towlower ini name newName env) (hold : deleteOld = true)
    (hsame : sameNoCase towlower newName name = true) :
    Kept towlower ini name newName deleteOld env ↔
      Safe towlower ini name newName deleteOld env := by
  have hraw := hp.2.2.2
  have heq := @renameSection_eq towlower ini name newName env deleteOld hp
  rw [if_pos (by rw [hold, hsame]; rfl)] at heq
  rw [Safe]
  rw [if_pos ⟨hold, hsame⟩]
  cases hdelete : env.delete with
  | false =>
    simp only [deleteSection, sbieIniSet, hdelete] at heq
    exact iff_of_true ((kept_iff heq).mpr ⟨fun _ => .inl rfl, nofun⟩) nofun
  | true =>
    simp only [deleteSection, sbieIniSet, hdelete, removeSection, Status.ok] at heq
    rw [forall_prop_of_true rfl]
    by_cases hdone : env.write = true ∧ (reread towlower (rawSection towlower ini name)).isSome
    · obtain ⟨text, htext⟩ := Option.isSome_iff_exists.mp hdone.2
      obtain ⟨entries, hentries, hwrite⟩ := @writeSection_eq towlower
        (removeSection towlower ini name).1 newName _ _ hraw hdone.1 _ htext
      rw [kept_iff (heq.trans hwrite), rawSection_written, hentries]
      simp [hdone, htext, hsame]
    · obtain ⟨ini', hwrite, hsame'⟩ := writeSection_fails
        (removeSection towlower ini name).1 newName hraw hdone
      rw [kept_iff (heq.trans hwrite), hsame', hsame', rawSection_congr hsame]
      simp [hdone, removeSection]

theorem kept_writeFirst (hp : Proceeds towlower ini name newName env)
    (horder : ¬ (deleteOld = true ∧ sameNoCase towlower newName name = true)) :
    Kept towlower ini name newName deleteOld env ↔
      Safe towlower ini name newName deleteOld env := by
  have hraw := hp.2.2.2
  have heq := @renameSection_eq towlower ini name newName env deleteOld hp
  rw [if_neg (by rwa [Bool.and_eq_true])] at heq
  rw [Safe, if_neg horder]
  by_cases hdone : env.write = true ∧ (reread towlower (rawSection towlower ini name)).isSome
  · obtain ⟨text, htext⟩ := Option.isSome_iff_exists.mp hdone.2
    obtain ⟨entries, hentries, hwrite⟩ := @writeSection_eq towlower ini newName _ _
      hraw hdone.1 _ htext
    rw [hwrite] at heq
    cases deleteOld with
    | false =>
      rw [kept_iff heq, rawSection_written, hentries]
      simp [hdone, htext]
    | true =>
      have hdiffer : ¬ sameNoCase towlower newName name = true := fun h => horder ⟨rfl, h⟩
      have hdiffer' : ¬ sameNoCase towlower name newName = true := fun h =>
        hdiffer (beq_iff_eq.mpr (beq_iff_eq.mp h).symm)
      cases hdelete : env.delete with
      | false =>
        simp only [deleteSection, sbieIniSet, hdelete, if_true] at heq
        rw [kept_iff heq, rawSection_written_ne hdiffer']
        simp
      | true =>
        simp only [deleteSection, sbieIniSet, hdelete, if_true, Status.ok] at heq
        rw [kept_iff heq, rawSection_removed_ne hdiffer, rawSection_written, hentries,
          removeSection, any_eraseP, countP_written hdiffer']
        simp [hdone, htext, hdiffer]
  · obtain ⟨ini', hwrite, hsame'⟩ := writeSection_fails ini newName hraw hdone
    rw [hwrite] at heq
    rw [kept_iff heq, hsame']
    simp [hdone]

/-- **Nothing of the section is lost** exactly where `Safe` says so. -/
theorem renameSection_kept_iff (towlower : WChar → WChar) (ini : CIniFile)
    (name newName : List WChar) (deleteOld : Bool) (env : Env) :
    Kept towlower ini name newName deleteOld env ↔
      (Proceeds towlower ini name newName env →
        Safe towlower ini name newName deleteOld env) := by
  by_cases hp : Proceeds towlower ini name newName env
  · rw [forall_prop_of_true hp]
    by_cases horder : deleteOld = true ∧ sameNoCase towlower newName name = true
    · exact kept_deleteFirst hp horder.1 horder.2
    · exact kept_writeFirst hp horder
  · exact iff_of_true (kept_of_not_proceeds hp) fun h => absurd h hp

def oneLine : CIniFile := ⟨0, [⟨wide ['b', 'o', 'x'], [⟨wide ['a'], wide ['1']⟩]⟩]⟩

/-- The box is gone when only its case was to change and the write was refused. -/
theorem renameSection_loses :
    ¬ Kept asciiLower oneLine (wide ['b', 'o', 'x']) (wide ['B', 'o', 'x']) true
      ⟨true, false, true⟩ := by
  intro h
  exact absurd (h.error ⟨0, []⟩ (by decide)) (by decide)

end Sandboxie.SectionRename
