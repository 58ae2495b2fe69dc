import Sandboxie.Drv.Conf

/-!
# Queries of the configuration

`Conf_GetEx` of `drv/conf.c`, with the functions it is made of, and the scan of
`Conf_IsValidBox`.  A query gives a string of the configuration and the index with its
flags.
-/

namespace Sandboxie.Conf

open Text

/-- `CONF_INDEX_MASK` -/
abbrev indexMask : Nat := 0x00FFFFFF
/-- `CONF_GET_PROPERTY` -/
abbrev getProperty : Nat := 0x01000000
/-- `CONF_GET_NO_GLOBAL` -/
abbrev getNoGlobal : Nat := 0x40000000
/-- `CONF_GET_NO_EXPAND` -/
abbrev getNoExpand : Nat := 0x20000000
/-- `CONF_GET_NO_TEMPLS` -/
abbrev getNoTempls : Nat := 0x10000000

/-- A string that a query gives, by what it belongs to. -/
inductive Str
  | value (s : Setting)
  | settingName (s : Setting)
  | sectionName (id : Nat) (name : List WChar)
  | includePath (id : Nat) (path : List WChar)
  | confPath (path : List WChar)
  | letter (c : Char)
deriving DecidableEq

section Names

variable (towlower : WChar → WChar)

/-- The loop of `Conf_Get_Helper`. -/
def getLoop (skipTmpl : Bool) : List Setting → Nat → Option Setting × Nat
  | [], index => (none, index)
  | s :: rest, index =>
    if skipTmpl && s.fromTemplate then (none, index)
    else if index = 0 then (some s, if s.fromTemplate then getNoTempls else index)
    else getLoop skipTmpl rest (index - 1)

/-- `Conf_Get_Helper` -/
def getHelper (d : ConfData) (sectionName settingName : List WChar) (index : Nat)
    (skipTmpl : Bool) : Option Setting × Nat :=
  let index := index &&& indexMask
  match findSections towlower d sectionName with
  | none => (none, index)
  | some sec =>
    if skipTmpl && sec.fromTemplate then (none, index)
    else getLoop skipTmpl (sec.settingsMap.keyIter towlower settingName) index

/-- `Conf_Get_Section_Name` -/
def getSectionName (skipTmpl : Bool) : List Section → Nat → Option Section
  | [], _ => none
  | sec :: rest, index =>
    if sameNoCase towlower sec.name globalSettings then getSectionName skipTmpl rest index
    else if skipTmpl && sec.fromTemplate then none
    else if index = 0 then some sec
    else getSectionName skipTmpl rest (index - 1)

/-- The loop of `Conf_Get_Setting_Name`, behind the settings `before`. -/
def nameLoop (skipTmpl : Bool) (before : List Setting) : List Setting → Nat → Option Setting
  | [], _ => none
  | s :: rest, index =>
    if skipTmpl && s.fromTemplate then none
    else if before.any fun t => sameNoCase towlower t.name s.name then
      nameLoop skipTmpl (before ++ [s]) rest index
    else if index = 0 then some s
    else nameLoop skipTmpl (before ++ [s]) rest (index - 1)

/-- `Conf_Get_Setting_Name` -/
def getSettingName (d : ConfData) (sectionName : List WChar) (index : Nat) (skipTmpl : Bool) :
    Option Setting :=
  match findSections towlower d sectionName with
  | none => none
  | some sec =>
    if skipTmpl && sec.fromTemplate then none
    else nameLoop towlower skipTmpl [] sec.settings index

/-- `Conf_Get_Prop` -/
def getProp (d : ConfData) (sectionName settingName : List WChar) : Option Str :=
  match findSections towlower d sectionName with
  | none => none
  | some sec =>
    if sameNoCase towlower settingName isVirtualName then
      some (.letter (if sec.isVirtual then 'Y' else 'N'))
    else if sameNoCase towlower settingName iniLocation then
      sec.includePath.map fun path => .includePath sec.id path
    else none

/-- The query for a value in `Conf_GetEx`: in the section, and then in the global one. -/
def getValue (d : ConfData) (sectionName : Option (List WChar)) (settingName : List WChar)
    (index : Nat) (skipTmpl checkGlobal : Bool) : Option Setting × Nat :=
  let own :=
    match sectionName with
    | some n => getHelper towlower d n settingName index skipTmpl
    | none => (none, index)
  let isGlobal := sectionName.any fun n => sameNoCase towlower n globalSettings
  if own.1.isNone && checkGlobal && !isGlobal then
    let value := getHelper towlower d globalSettings settingName own.2 skipTmpl
    if value.1.isSome then (value.1, value.2 ||| getNoGlobal) else value
  else own

/-- `Conf_GetEx`.  A property is not looked for without both names. -/
def getEx (d : ConfData) (sectionName settingName : Option (List WChar)) (index : Nat) :
    Option Str × Nat :=
  let haveSection := sectionName.any (· ≠ [])
  let haveSetting := settingName.any (· ≠ [])
  let skipTmpl : Bool := index &&& getNoTempls ≠ 0
  let checkGlobal : Bool := index &&& getNoGlobal = 0
  if !haveSection && settingName.any fun n => n ≠ [] && sameNoCase towlower n iniLocation then
    match d.path with
    | some path => (some (.confPath path), index)
    | none => (some (.letter (if d.home ≠ 0 then 'H' else 'W')), index)
  else if index &&& getProperty ≠ 0 then
    match sectionName, settingName with
    | some sec, some n =>
      (if index &&& indexMask = 0 then getProp towlower d sec n else none, index)
    | _, _ => (none, index)
  else if haveSetting then
    let value := getValue towlower d sectionName (settingName.getD []) index skipTmpl checkGlobal
    (value.1.map .value, value.2)
  else if haveSection then
    ((getSettingName towlower d (sectionName.getD []) (index &&& indexMask) skipTmpl).map
      .settingName, index)
  else
    ((getSectionName towlower skipTmpl d.sections (index &&& indexMask)).map fun sec =>
      .sectionName sec.id sec.name, index)

def confGet (d : ConfData) (sectionName settingName : Option (List WChar)) (index : Nat) :
    Option Str :=
  (getEx towlower d sectionName settingName index).1

/-- The scan of `Conf_IsValidBox`. -/
def scanSections (d : ConfData) (sectionName : List WChar) : Option Section :=
  d.sections.find? fun sec => sameNoCase towlower sec.name sectionName

/-- What `Conf_IsValidBox` comes to. -/
inductive BoxStatus
  | success
  | typeMismatch
  | nameNotFound
deriving DecidableEq

/-- `Conf_IsValidBox` -/
def isValidBox (d : ConfData) (sectionName : List WChar) : BoxStatus :=
  if sameNoCase towlower sectionName globalSettings ||
      sameNoCase towlower sectionName templateSettings ||
      hasPrefix towlower template_ sectionName || hasPrefix towlower userSettings_ sectionName then
    .typeMismatch
  else
    match scanSections towlower d sectionName with
    | none => .nameNotFound
    | some sec => if sec.fromTemplate then .typeMismatch else .success

end Names

end Sandboxie.Conf
