import Sandboxie.Drv.ConfInv

/-!
# The operations of the configuration as edits

Merging only adds settings from templates at the end of a section (`Merged`).
`updateSection_cases` says what an update comes to, and everything that is reached by
reading and updating is made of edits (`Reachable.dataOk`).
-/

namespace Sandboxie.Conf

open Text Relation

variable {towlower : WChar → WChar}

/-! ### Merging -/

def TemplateAdd (id : Nat) (d d' : ConfData) : Prop :=
  ∃ name value, d' = addSetting d id name value false true

abbrev Merged (id : Nat) : ConfData → ConfData → Prop := ReflTransGen (TemplateAdd id)

abbrev MergedAll : ConfData → ConfData → Prop :=
  ReflTransGen fun d d' => ∃ id, TemplateAdd id d d'

variable {d d' : ConfData}

theorem Merged.all {id : Nat} (h : Merged id d d') : MergedAll d d' :=
  ReflTransGen.mono (fun _ _ hstep => ⟨id, hstep⟩) _ _ h

theorem MergedAll.edits (h : MergedAll d d') : Edits towlower d d' := by
  refine ReflTransGen.mono (fun a b hstep => ?_) _ _ h
  obtain ⟨id, name, value, rfl⟩ := hstep
  exact Edit.addSetting a id name value false true

theorem copyTemplate_merged (tmplId id : Nat) : ∀ (fuel : Nat) {d d' : ConfData} {k : Nat},
    copyTemplate towlower tmplId id fuel d k = some d' → Merged id d d' := by
  intro fuel
  induction fuel with
  | zero => exact fun h => (by cases h)
  | succ fuel ih =>
    intro d d' k h
    rw [copyTemplate] at h
    split at h
    · rw [← Option.some.inj h]
    · split at h
      · exact ih h
      · exact ReflTransGen.head ⟨_, _, rfl⟩ (ih h)

variable {fuel : Nat}

theorem mergeTemplate_merged {name : List WChar} {id : Nat}
    (h : mergeTemplate towlower fuel d name id = some d') : Merged id d d' := by
  unfold mergeTemplate at h
  split at h
  · rw [← Option.some.inj h]
  · exact copyTemplate_merged _ _ _ h

theorem mergeLoop_merged (sandbox id : Nat) : ∀ (fuel : Nat) {d d' : ConfData} {k : Nat},
    mergeLoop towlower sandbox id fuel d k = some d' → Merged sandbox d d' := by
  intro fuel
  induction fuel with
  | zero => exact fun h => (by cases h)
  | succ fuel ih =>
    intro d d' k h
    rw [mergeLoop] at h
    split at h
    · rw [← Option.some.inj h]
    · split at h
      · cases h
      · rename_i hmerge
        exact (mergeTemplate_merged hmerge).trans (ih h)

theorem mergeTemplates_merged {sandbox id : Nat}
    (h : mergeTemplates towlower fuel d sandbox id = some d') : Merged sandbox d d' :=
  mergeLoop_merged _ _ _ h

theorem mergeBoxes_merged (fuel : Nat) : ∀ (boxes : List Section) {d d' : ConfData},
    mergeBoxes towlower fuel boxes d = some d' → MergedAll d d' := by
  intro boxes
  induction boxes with
  | nil =>
    intro d d' h
    rw [← Option.some.inj h]
  | cons sandbox rest ih =>
    intro d d' h
    rw [mergeBoxes] at h
    split at h
    · rw [← Option.some.inj h]
    · split at h
      · exact ih h
      · split at h
        · cases h
        · rename_i hmerge
          exact (mergeTemplates_merged hmerge).all.trans (ih h)

theorem mergeGlobal_merged (h : mergeGlobal towlower fuel d = some d') : MergedAll d d' := by
  unfold mergeGlobal at h
  split at h
  · rw [← Option.some.inj h]
  · split at h
    · cases h
    · rename_i hmerge
      refine (mergeTemplates_merged hmerge).all.trans ?_
      split at h
      · rw [← Option.some.inj h]
      · exact (mergeTemplates_merged h).all

theorem mergeAllTemplates_merged
    (h : mergeAllTemplates towlower fuel d = some d') : MergedAll d d' := by
  unfold mergeAllTemplates at h
  split at h
  · cases h
  · rename_i hmerge
    exact (mergeGlobal_merged hmerge).trans (mergeBoxes_merged _ _ h)

/-! ### Updates -/

variable {name value : Option (List WChar)} {mode : Mode}

/-- **What an update of a section does**: it drops the section, or changes the values, and
when it is about templates, removes the settings from templates unless a template is added,
and merges. -/
theorem updateSection_cases {sec : Section}
    (h : updateSection towlower fuel d sec name value mode = some d') :
    (mode = .removeSection ∧ d' = dropSection towlower d sec) ∨
      (mode ≠ .removeSection ∧ aboutTemplates towlower name mode = false ∧
        d' = changeNamed towlower d sec.id name value mode) ∨
      (mode ≠ .removeSection ∧ aboutTemplates towlower name mode = true ∧
        Merged sec.id
          (if mode = .appendValue then changeNamed towlower d sec.id name value mode
            else removeTemplates (changeNamed towlower d sec.id name value mode) sec.id) d') := by
  unfold updateSection at h
  by_cases hmode : mode = .removeSection
  · rw [if_pos hmode] at h
    exact .inl ⟨hmode, (Option.some.inj h).symm⟩
  rw [if_neg hmode] at h
  cases habout : aboutTemplates towlower name mode with
  | false =>
    rw [habout, if_neg (by decide)] at h
    exact .inr (.inl ⟨hmode, rfl, (Option.some.inj h).symm⟩)
  | true =>
    rw [habout, if_pos rfl] at h
    refine .inr (.inr ⟨hmode, rfl, ?_⟩)
    unfold changeTemplates at h
    dsimp only at h
    split at h
    · exact mergeTemplates_merged h
    · split at h
      · split at h
        · exact mergeTemplate_merged h
        · cases h
      · rw [← Option.some.inj h]

theorem removeOld_edits (d : ConfData) (id : Nat) (name : List WChar)
    (value : Option (List WChar)) (mode : Mode) :
    Edits towlower d (removeOld towlower d id name value mode) := by
  unfold removeOld
  split
  · exact .refl
  · split
    · exact .refl
    · exact .single (Edit.removeSettings d id _)

theorem changeValues_edits (d : ConfData) (id : Nat) (name : List WChar)
    (value : Option (List WChar)) (mode : Mode) :
    Edits towlower d (changeValues towlower d id name value mode) := by
  have hremoved := @removeOld_edits towlower d id name value mode
  unfold changeValues
  split
  · split
    · exact hremoved
    · exact hremoved.tail (Edit.addSetting _ id name _ true false)
  · exact hremoved

theorem changeNamed_edits (d : ConfData) (id : Nat) (name value : Option (List WChar))
    (mode : Mode) : Edits towlower d (changeNamed towlower d id name value mode) := by
  unfold changeNamed
  split
  · split
    · exact .refl
    · exact changeValues_edits d id _ value mode
  · exact .refl

theorem removeTemplates_edits (d : ConfData) (id : Nat) :
    Edits towlower d (removeTemplates d id) := by
  unfold removeTemplates
  split
  · exact .refl
  · exact .single (Edit.removeSettings d id _)

theorem updateSection_edits {sec : Section} (hsec : sec ∈ d.sections)
    (h : updateSection towlower fuel d sec name value mode = some d') : Edits towlower d d' := by
  rcases updateSection_cases h with ⟨_, rfl⟩ | ⟨_, _, rfl⟩ | ⟨_, _, hmerged⟩
  · exact .single (Edit.dropSection d sec hsec)
  · exact changeNamed_edits d sec.id name value mode
  · refine Relation.ReflTransGen.trans ?_ hmerged.all.edits
    split
    · exact changeNamed_edits d sec.id name value mode
    · exact (changeNamed_edits d sec.id name value mode).trans (removeTemplates_edits _ _)

theorem mem_addMarked (d : ConfData) (name : List WChar) (insert : Bool)
    (mark : Section → Section) :
    mark (newSection d.nextId name) ∈ (addMarked d name insert mark).sections :=
  mem_modify.mpr ⟨_, mem_addSections.mpr (.inr rfl), (if_pos rfl).symm⟩

/-- Marking a section leaves what it is and what it has. -/
def Marks (mark : Section → Section) : Prop :=
  ∀ sec, (mark sec).id = sec.id ∧ (mark sec).name = sec.name ∧
    (mark sec).settings = sec.settings ∧ (mark sec).settingsMap = sec.settingsMap

theorem marks_virtual : Marks Section.markVirtual := fun _ => ⟨rfl, rfl, rfl, rfl⟩

theorem marks_template (fromTemplate : Bool) : Marks (Section.markTemplate fromTemplate) :=
  fun _ => ⟨rfl, rfl, rfl, rfl⟩

theorem marks_include (path : List WChar) : Marks (Section.markInclude path) :=
  fun _ => ⟨rfl, rfl, rfl, rfl⟩

theorem addMarked_edits {d : ConfData} {name : List WChar} (insert : Bool)
    {mark : Section → Section} (hmark : Marks mark)
    (hfind : findSections towlower d name = none) :
    Edits towlower d (addMarked d name insert mark) :=
  ReflTransGen.head (Edit.addSections d name insert hfind)
    (.single (Edit.mark _ d.nextId mark hmark))

theorem confUpdate_cases {sectionName : List WChar}
    (h : confUpdate towlower fuel d sectionName name value mode = some d') :
    (∃ sec, findSections towlower d sectionName = some sec ∧
        updateSection towlower fuel d sec name value mode = some d') ∨
      (findSections towlower d sectionName = none ∧
        (mode = .removeValue ∨ mode = .removeSection) ∧ d' = d) ∨
      (findSections towlower d sectionName = none ∧
        mode ≠ .removeValue ∧ mode ≠ .removeSection ∧
        updateSection towlower fuel (addMarked d sectionName true Section.markVirtual)
          (newSection d.nextId sectionName).markVirtual name value mode = some d') := by
  unfold confUpdate at h
  split at h
  · rename_i sec hfind
    exact .inl ⟨sec, hfind, h⟩
  · rename_i hfind
    split at h
    · rename_i hmode
      exact .inr (.inl ⟨hfind, hmode, (Option.some.inj h).symm⟩)
    · rename_i hmode
      rw [not_or] at hmode
      exact .inr (.inr ⟨hfind, hmode.1, hmode.2, h⟩)

theorem confUpdate_edits {sectionName : List WChar}
    (h : confUpdate towlower fuel d sectionName name value mode = some d') :
    Edits towlower d d' := by
  rcases confUpdate_cases h with ⟨sec, hfind, hupdate⟩ | ⟨_, _, rfl⟩ | ⟨hfind, _, _, hupdate⟩
  · exact updateSection_edits (findSections_mem hfind) hupdate
  · exact .refl
  · exact (addMarked_edits true marks_virtual hfind).trans
      (updateSection_edits (mem_addMarked d sectionName true Section.markVirtual) hupdate)

/-! ### Reading -/

theorem readSettings_edits (id : Nat) : ∀ (ss : List (List WChar × List WChar)) (d : ConfData),
    Edits towlower d (readSettings id ss d) := by
  intro ss
  induction ss with
  | nil => exact fun _ => .refl
  | cons s rest ih =>
    exact fun d => ReflTransGen.head (Edit.addSetting d id s.1 s.2 false false) (ih _)

theorem readSections_edits (fromTemplate : Bool) : ∀ (ini : List IniSection) (d : ConfData),
    Edits towlower d (readSections towlower fromTemplate ini d) := by
  intro ini
  induction ini with
  | nil => exact fun _ => .refl
  | cons s rest ih =>
    intro d
    rw [readSections]
    split
    · exact (readSettings_edits _ _ d).trans (ih _)
    · rename_i hfind
      refine (addMarked_edits false (marks_template fromTemplate) hfind).trans ?_
      exact (readSettings_edits _ _ _).trans (ih _)

theorem importInclude_edits (d : ConfData) (inc : Include) :
    Edits towlower d (importInclude towlower d inc) := by
  unfold importInclude
  split
  · exact .refl
  rename_i hfind
  have hread := (addMarked_edits false (marks_include inc.path) hfind).trans
    (readSettings_edits d.nextId inc.ini.settings _)
  dsimp only
  split
  · exact hread.tail (Edit.addSetting _ _ _ _ true false)
  · split
    · exact hread
    · rename_i hsec
      exact hread.tail (Edit.dropSection _ _ (section?_mem hsec).1)

theorem importIncludes_edits : ∀ (incs : List Include) (d : ConfData),
    Edits towlower d (incs.foldl (importInclude towlower) d) := by
  intro incs
  induction incs with
  | nil => exact fun _ => .refl
  | cons inc rest ih => exact fun d => (importInclude_edits d inc).trans (ih _)

theorem importAllIncludes_edits (includes : List WChar → List Include) (d : ConfData) :
    Edits towlower d (importAllIncludes towlower includes d) := by
  unfold importAllIncludes
  split
  · exact .refl
  · exact importIncludes_edits _ d

theorem readFiles_edits {files : Files} {d : ConfData}
    (h : readFiles towlower fuel files = some d) :
    Edits towlower (emptyData files.home files.path) d :=
  ((readSections_edits false files.ini _).trans (importAllIncludes_edits files.includes _)).trans
    ((readSections_edits true files.templates _).trans (mergeAllTemplates_merged h).edits)

theorem importSettings_edits {sectionName : List WChar} :
    ∀ (ss : List Setting) {d d' : ConfData},
      importSettings towlower fuel sectionName ss d = some d' → Edits towlower d d' := by
  intro ss
  induction ss with
  | nil =>
    intro d d' h
    rw [← Option.some.inj h]
  | cons s rest ih =>
    intro d d' h
    rw [importSettings] at h
    split at h
    · exact ih h
    · split at h
      · cases h
      · rename_i hupdate
        exact (confUpdate_edits hupdate).trans (ih h)

theorem importVirtual_edits : ∀ (secs : List Section) {d d' : ConfData},
    importVirtual towlower fuel secs d = some (.read d') → Edits towlower d d' := by
  intro secs
  induction secs with
  | nil =>
    intro d d' h
    rw [← ReadResult.read.inj (Option.some.inj h)]
  | cons sec rest ih =>
    intro d d' h
    rw [importVirtual] at h
    split at h
    · split at h
      · cases h
      · split at h
        · cases h
        · rename_i hsettings
          split at h
          · cases h
          · rename_i hupdate
            exact ((importSettings_edits _ hsettings).trans (confUpdate_edits hupdate)).trans (ih h)
    · exact ih h

/-! ### Reachable configurations -/

/-- A configuration that `Conf_Read` and `Conf_Update` lead to. -/
inductive Reachable (towlower : WChar → WChar) : ConfData → Prop
  | init (home : Nat) (path : Option (List WChar)) : Reachable towlower (emptyData home path)
  | read {fuel : Nat} {files : Files} {old d : ConfData} (h : Reachable towlower old)
      (hread : confRead towlower fuel files old = some (.read d)) : Reachable towlower d
  | update {fuel : Nat} {d d' : ConfData} {sectionName : List WChar}
      {name value : Option (List WChar)} {mode : Mode} (h : Reachable towlower d)
      (hupdate : confUpdate towlower fuel d sectionName name value mode = some d') :
      Reachable towlower d'

theorem confRead_edits {files : Files} {old d : ConfData}
    (h : confRead towlower fuel files old = some (.read d)) :
    Edits towlower (emptyData files.home files.path) d := by
  unfold confRead at h
  split at h
  · cases h
  · rename_i hfiles
    exact (readFiles_edits hfiles).trans (importVirtual_edits _ h)

/-- **Lists and maps have the same in every reachable configuration.** -/
theorem Reachable.dataOk {d : ConfData} (h : Reachable towlower d) : DataOk towlower d := by
  induction h with
  | init home path => exact DataOk.empty home path
  | read _ hread _ => exact (confRead_edits hread).dataOk (DataOk.empty _ _)
  | update _ hupdate ih => exact (confUpdate_edits hupdate).dataOk ih

end Sandboxie.Conf
