import Sandboxie.Common.StrMap

/-!
# The configuration of the driver

`drv/conf.c`.  A section has its settings in a list and in a map, and the configuration its
sections, and each of the two is changed on its own.

The reader of lines is left out: a file is the list of its sections with their settings.
An `id` stands for the address of a setting or a section; addresses are given out in order.
Memory is always there.  The loops that merge templates go over something that they extend,
so they take `fuel`, and the result is `none` when that is used up.
-/

namespace Sandboxie.Conf

open Text

/-- `CONF_SETTING` -/
structure Setting where
  id : Nat
  name : List WChar
  value : List WChar
  fromTemplate : Bool
deriving DecidableEq

/-- `CONF_SECTION` -/
structure Section where
  id : Nat
  name : List WChar
  settings : List Setting
  settingsMap : StrMap Setting.name
  fromTemplate : Bool
  isVirtual : Bool
  includePath : Option (List WChar)

/-- A node of `sections_map`. -/
structure SectionNode where
  name : List WChar
  id : Nat

structure ConfData where
  sections : List Section
  sectionsMap : StrMap SectionNode.name
  home : Nat
  path : Option (List WChar)
  nextId : Nat

/-- `Conf_GlobalSettings` -/
def globalSettings : List WChar :=
  wide ['G', 'l', 'o', 'b', 'a', 'l', 'S', 'e', 't', 't', 'i', 'n', 'g', 's']
/-- `Conf_UserSettings_` -/
def userSettings_ : List WChar :=
  wide ['U', 's', 'e', 'r', 'S', 'e', 't', 't', 'i', 'n', 'g', 's', '_']
/-- `Conf_Template_` -/
def template_ : List WChar := wide ['T', 'e', 'm', 'p', 'l', 'a', 't', 'e', '_']
/-- `Conf_DefaultTemplates` -/
def defaultTemplates : List WChar :=
  wide ['D', 'e', 'f', 'a', 'u', 'l', 't', 'T', 'e', 'm', 'p', 'l', 'a', 't', 'e', 's']
/-- `Conf_TemplateSettings` -/
def templateSettings : List WChar :=
  wide ['T', 'e', 'm', 'p', 'l', 'a', 't', 'e', 'S', 'e', 't', 't', 'i', 'n', 'g', 's']
/-- `Conf_Template` -/
def template : List WChar := wide ['T', 'e', 'm', 'p', 'l', 'a', 't', 'e']
/-- `Conf_Tmpl` -/
def tmpl : List WChar := wide ['T', 'm', 'p', 'l', '.']
/-- `Conf_IniLocation` -/
def iniLocation : List WChar := wide ['I', 'n', 'i', 'L', 'o', 'c', 'a', 't', 'i', 'o', 'n']
/-- `Conf_IsVirtual` -/
def isVirtualName : List WChar := wide ['I', 's', 'V', 'i', 'r', 't', 'u', 'a', 'l']
/-- `Conf_ImportBox` -/
def importBox : List WChar := wide ['I', 'm', 'p', 'o', 'r', 't', 'B', 'o', 'x']
/-- The setting that an imported box gets. -/
def fileRootPath : List WChar :=
  wide ['F', 'i', 'l', 'e', 'R', 'o', 'o', 't', 'P', 'a', 't', 'h']

/-! ### Sections and settings -/

def ConfData.section? (d : ConfData) (id : Nat) : Option Section :=
  d.sections.find? fun sec => sec.id == id

def ConfData.modify (d : ConfData) (id : Nat) (f : Section → Section) : ConfData :=
  { d with sections := d.sections.map fun sec => if sec.id = id then f sec else sec }

def newMap {α : Type} {name : α → List WChar} : StrMap name := ChainMap.resize ChainMap.empty 16

def emptyData (home : Nat) (path : Option (List WChar)) : ConfData :=
  ⟨[], newMap, home, path, 0⟩

def newSection (id : Nat) (name : List WChar) : Section :=
  ⟨id, name, [], newMap, false, false, none⟩

/-- `Conf_Add_Sections`: the section is at the address `nextId`. -/
def addSections (d : ConfData) (name : List WChar) (insert : Bool) : ConfData :=
  { d with
    sections :=
      if insert then newSection d.nextId name :: d.sections
      else d.sections ++ [newSection d.nextId name]
    sectionsMap := d.sectionsMap.mapInsert ⟨name, d.nextId⟩
    nextId := d.nextId + 1 }

def Section.markVirtual (sec : Section) : Section := { sec with isVirtual := true }

def Section.markTemplate (fromTemplate : Bool) (sec : Section) : Section :=
  { sec with fromTemplate := fromTemplate }

def Section.markInclude (path : List WChar) (sec : Section) : Section :=
  { sec with includePath := some path }

/-- A new section with what the caller of `Conf_Add_Sections` sets. -/
def addMarked (d : ConfData) (name : List WChar) (insert : Bool) (mark : Section → Section) :
    ConfData :=
  (addSections d name insert).modify d.nextId mark

/-- A setting goes to an end of the list, and to the end of its chain. -/
def Section.add (sec : Section) (s : Setting) (insert : Bool) : Section :=
  { sec with
    settings := if insert then s :: sec.settings else sec.settings ++ [s]
    settingsMap := sec.settingsMap.mapAppend s }

/-- `Conf_Add_Setting`, with the flag that the caller sets afterwards. -/
def addSetting (d : ConfData) (id : Nat) (name value : List WChar) (insert fromTemplate : Bool) :
    ConfData :=
  { d.modify id fun sec => sec.add ⟨d.nextId, name, value, fromTemplate⟩ insert with
    nextId := d.nextId + 1 }

/-- `map_erase` and `List_Remove` of a setting. -/
def Section.remove (sec : Section) (s : Setting) : Section :=
  { sec with settings := sec.settings.erase s, settingsMap := sec.settingsMap.erase s }

def removeSettings (d : ConfData) (id : Nat) (ss : List Setting) : ConfData :=
  d.modify id fun sec => ss.foldl Section.remove sec

section Names

variable (towlower : WChar → WChar)

/-- `_wcsnicmp` with a prefix. -/
def hasPrefix (pre s : List WChar) : Bool := sameNoCase towlower (s.take pre.length) pre

/-- `Conf_Find_Sections` and `Conf_Get_Section` -/
def findSections (d : ConfData) (name : List WChar) : Option Section :=
  match d.sectionsMap.mapGet towlower name with
  | none => none
  | some node => d.section? node.id

/-- `Conf_Drop_Section` -/
def dropSection (d : ConfData) (sec : Section) : ConfData :=
  { d with
    sections := d.sections.eraseP fun s => s.id == sec.id
    sectionsMap := d.sectionsMap.mapRemove towlower sec.name }

/-! ### Templates -/

/-- The loop of `Conf_Merge_Template`, at setting `k` of the template. -/
def copyTemplate (tmplId id : Nat) : Nat → ConfData → Nat → Option ConfData
  | 0, _, _ => none
  | fuel + 1, d, k =>
    match (d.section? tmplId).bind fun t => t.settings[k]? with
    | none => some d
    | some oset =>
      if hasPrefix towlower tmpl oset.name then copyTemplate tmplId id fuel d (k + 1)
      else copyTemplate tmplId id fuel (addSetting d id oset.name oset.value false true) (k + 1)

def templateSection (d : ConfData) (name : List WChar) : Option Section :=
  if name.length < 119 then findSections towlower d (template_ ++ name) else none

/-- `Conf_Merge_Template` -/
def mergeTemplate (fuel : Nat) (d : ConfData) (name : List WChar) (id : Nat) : Option ConfData :=
  match templateSection towlower d name with
  | none => some d
  | some t => copyTemplate towlower t.id id fuel d 0

/-- The loop of `Conf_Merge_Templates`, where the iteration is at the setting `k` with the
name `Template` of section `id`.  New settings come behind those. -/
def mergeLoop (sandbox id : Nat) : Nat → ConfData → Nat → Option ConfData
  | 0, _, _ => none
  | fuel + 1, d, k =>
    match (d.section? id).bind fun sec => (sec.settingsMap.keyIter towlower template)[k]? with
    | none => some d
    | some setting =>
      match mergeTemplate towlower fuel d setting.value sandbox with
      | none => none
      | some d => mergeLoop sandbox id fuel d (k + 1)

/-- `Conf_Merge_Templates` -/
def mergeTemplates (fuel : Nat) (d : ConfData) (sandbox id : Nat) : Option ConfData :=
  mergeLoop towlower sandbox id fuel d 0

/-- The loop of `Conf_Merge_AllTemplates`. -/
def mergeBoxes (fuel : Nat) : List Section → ConfData → Option ConfData
  | [], d => some d
  | sandbox :: rest, d =>
    if sandbox.fromTemplate then some d
    else if sameNoCase towlower sandbox.name globalSettings ||
        hasPrefix towlower template_ sandbox.name ||
        hasPrefix towlower userSettings_ sandbox.name then
      mergeBoxes fuel rest d
    else
      match mergeTemplates towlower fuel d sandbox.id sandbox.id with
      | none => none
      | some d => mergeBoxes fuel rest d

/-- The global section gets its templates and those of `DefaultTemplates`. -/
def mergeGlobal (fuel : Nat) (d : ConfData) : Option ConfData :=
  match findSections towlower d globalSettings with
  | none => some d
  | some global =>
    match mergeTemplates towlower fuel d global.id global.id with
    | none => none
    | some d =>
      match findSections towlower d defaultTemplates with
      | none => some d
      | some common => mergeTemplates towlower fuel d global.id common.id

/-- `Conf_Merge_AllTemplates` -/
def mergeAllTemplates (fuel : Nat) (d : ConfData) : Option ConfData :=
  match mergeGlobal towlower fuel d with
  | none => none
  | some d => mergeBoxes towlower fuel d.sections d

/-! ### Updates -/

/-- What `Conf_Update` is to do. -/
inductive Mode
  | updateValue
  | appendValue
  | removeValue
  | removeSection
  | updateTemplates
deriving DecidableEq

/-- The values that `Conf_Update` removes: those of the name up to the first from a template,
or the ones among them that are equal to `value`. -/
def oldValues (sec : Section) (name : List WChar) (value : Option (List WChar)) (mode : Mode) :
    List Setting :=
  ((sec.settingsMap.keyIter towlower name).takeWhile fun s => !s.fromTemplate).filter fun s =>
    match value with
    | some v => mode ≠ .removeValue || sameNoCase towlower s.value v
    | none => true

/-- The old values are removed, unless a value is added. -/
def removeOld (d : ConfData) (id : Nat) (name : List WChar) (value : Option (List WChar))
    (mode : Mode) : ConfData :=
  if mode = .appendValue then d
  else
    match d.section? id with
    | none => d
    | some sec => removeSettings d id (oldValues towlower sec name value mode)

/-- The part of `Conf_Update` about values. -/
def changeValues (d : ConfData) (id : Nat) (name : List WChar) (value : Option (List WChar))
    (mode : Mode) : ConfData :=
  let removed := removeOld towlower d id name value mode
  match value with
  | some v => if mode = .removeValue then removed else addSetting removed id name v true false
  | none => removed

def removeTemplates (d : ConfData) (id : Nat) : ConfData :=
  match d.section? id with
  | none => d
  | some sec => removeSettings d id (sec.settingsMap.nodes.filter fun s => s.fromTemplate)

/-- The part of `Conf_Update` about templates.  A missing value is not looked for when the
name of a new template is read. -/
def changeTemplates (fuel : Nat) (d : ConfData) (id : Nat) (value : Option (List WChar))
    (mode : Mode) : Option ConfData :=
  let d := if mode = .appendValue then d else removeTemplates d id
  if mode = .updateTemplates ∨ (mode = .removeValue ∧ value.isSome = true) then
    mergeTemplates towlower fuel d id id
  else if mode ≠ .removeValue then
    match value with
    | some v => mergeTemplate towlower fuel d v id
    | none => none
  else some d

/-- The values are changed when there is a name, and the mode is about values. -/
def changeNamed (d : ConfData) (id : Nat) (name value : Option (List WChar)) (mode : Mode) :
    ConfData :=
  match name with
  | some n => if mode = .updateTemplates then d else changeValues towlower d id n value mode
  | none => d

def aboutTemplates (name : Option (List WChar)) (mode : Mode) : Bool :=
  mode = .updateTemplates || name.any fun n => sameNoCase towlower n template

/-- `Conf_Update` in a section that is there. -/
def updateSection (fuel : Nat) (d : ConfData) (sec : Section)
    (name value : Option (List WChar)) (mode : Mode) : Option ConfData :=
  if mode = .removeSection then some (dropSection towlower d sec)
  else
    let d := changeNamed towlower d sec.id name value mode
    if aboutTemplates towlower name mode then changeTemplates towlower fuel d sec.id value mode
    else some d

def confUpdate (fuel : Nat) (d : ConfData) (sectionName : List WChar)
    (name value : Option (List WChar)) (mode : Mode) : Option ConfData :=
  match findSections towlower d sectionName with
  | some sec => updateSection towlower fuel d sec name value mode
  | none =>
    if mode = .removeValue ∨ mode = .removeSection then some d
    else
      updateSection towlower fuel (addMarked d sectionName true Section.markVirtual)
        (newSection d.nextId sectionName).markVirtual name value mode

/-! ### Reading -/

structure IniSection where
  name : List WChar
  settings : List (List WChar × List WChar)

/-- A file that an `ImportBox` names: its path, the path without the ending, its section, and
whether its settings could be read. -/
structure Include where
  path : List WChar
  rootPath : List WChar
  ini : IniSection
  readable : Bool

/-- The files that `Conf_Read` reads. -/
structure Files where
  home : Nat
  path : Option (List WChar)
  ini : List IniSection
  templates : List IniSection
  includes : List WChar → List Include

/-- `Conf_Read_Settings` -/
def readSettings (id : Nat) : List (List WChar × List WChar) → ConfData → ConfData
  | [], d => d
  | s :: rest, d => readSettings id rest (addSetting d id s.1 s.2 false false)

/-- `Conf_Read_Sections` -/
def readSections (fromTemplate : Bool) : List IniSection → ConfData → ConfData
  | [], d => d
  | ini :: rest, d =>
    match findSections towlower d ini.name with
    | some sec => readSections fromTemplate rest (readSettings sec.id ini.settings d)
    | none =>
      readSections fromTemplate rest (readSettings d.nextId ini.settings
        (addMarked d ini.name false (Section.markTemplate fromTemplate)))

/-- `Conf_Import_Include` -/
def importInclude (d : ConfData) (inc : Include) : ConfData :=
  match findSections towlower d inc.ini.name with
  | some _ => d
  | none =>
    let read := readSettings d.nextId inc.ini.settings
      (addMarked d inc.ini.name false (Section.markInclude inc.path))
    if inc.readable then addSetting read d.nextId fileRootPath inc.rootPath true false
    else
      match read.section? d.nextId with
      | none => read
      | some sec => dropSection towlower read sec

/-- `Conf_Import_AllIncludes` -/
def importAllIncludes (includes : List WChar → List Include) (d : ConfData) : ConfData :=
  match findSections towlower d globalSettings with
  | none => d
  | some sec =>
    ((sec.settingsMap.keyIter towlower importBox).flatMap fun s => includes s.value).foldl
      (importInclude towlower) d

def readFiles (fuel : Nat) (files : Files) : Option ConfData :=
  let d := readSections towlower false files.ini (emptyData files.home files.path)
  let d := importAllIncludes towlower files.includes d
  mergeAllTemplates towlower fuel (readSections towlower true files.templates d)

def importSettings (fuel : Nat) (sectionName : List WChar) :
    List Setting → ConfData → Option ConfData
  | [], d => some d
  | s :: rest, d =>
    if s.fromTemplate then importSettings fuel sectionName rest d
    else
      match confUpdate towlower fuel d sectionName (some s.name) (some s.value) .appendValue with
      | none => none
      | some d => importSettings fuel sectionName rest d

/-- What `Conf_Read` comes to. -/
inductive ReadResult
  | nameExists
  | read (d : ConfData)

def importVirtual (fuel : Nat) : List Section → ConfData → Option ReadResult
  | [], d => some (.read d)
  | sec :: rest, d =>
    if sec.isVirtual then
      match findSections towlower d sec.name with
      | some _ => some .nameExists
      | none =>
        match importSettings towlower fuel sec.name sec.settings d with
        | none => none
        | some d =>
          match confUpdate towlower fuel d sec.name none none .updateTemplates with
          | none => none
          | some d => importVirtual fuel rest d
    else importVirtual fuel rest d

/-- `Conf_Read`: the data that replaces `old`. -/
def confRead (fuel : Nat) (files : Files) (old : ConfData) : Option ReadResult :=
  match readFiles towlower fuel files with
  | none => none
  | some d => importVirtual towlower fuel old.sections d

end Names

end Sandboxie.Conf
