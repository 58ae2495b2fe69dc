import Sandboxie.Drv.ConfCopy
import Sandboxie.Lib.Blocks

/-!
# The expansion of variables

`Conf_Expand` of `core/drv/conf_expand.c` replaces the variables of a text of the configuration
one by one, with the values that `Conf_Expand_Helper` finds.  Every buffer on the way is taken
from a pool and given back by hand.  `Conf_Expand_2` has two exits, for a text that is too long
and for too many replacements, that give nothing back.
-/

namespace Sandboxie.ConfExpand

open Text Blocks Conf

/-! ### What the expansion is told -/

/-- `STATUS_SUCCESS` -/
abbrev success : Nat := 0
/-- `STATUS_OBJECT_NAME_INVALID` -/
abbrev nameInvalid : Nat := 0xC0000033
/-- `STATUS_OBJECT_NAME_NOT_FOUND` -/
abbrev nameNotFound : Nat := 0xC0000034
/-- `STATUS_OBJECT_PATH_NOT_FOUND` -/
abbrev pathNotFound : Nat := 0xC000003A
/-- `STATUS_OBJECT_PATH_SYNTAX_BAD` -/
abbrev pathSyntaxBad : Nat := 0xC000003B
/-- `STATUS_INSUFFICIENT_RESOURCES` -/
abbrev insufficientResources : Nat := 0xC000009A
/-- `STATUS_BAD_INITIAL_PC` -/
abbrev badInitialPc : Nat := 0xC000000A

def ntSuccess (status : Nat) : Bool := status < 2 ^ 31

/-- `STATUS_OBJECT_NAME_NOT_FOUND` or `STATUS_OBJECT_PATH_NOT_FOUND`. -/
def notFound (status : Nat) : Bool := status = nameNotFound || status = pathNotFound

inductive RootKey
  | absolute
  | control
  | windowsNT
  | user
  | machine
deriving DecidableEq

/-- `CONF_USER` -/
structure User where
  sid : List WChar
  name : List WChar

/-- `CONF_EXPAND_ARGS`, less the pool. -/
structure Args where
  sandbox : List WChar
  sid : List WChar
  session : Nat

/-- What the expansion is told from outside; all of it may change with time. -/
structure Env where
  towlower : WChar → WChar
  /-- Whether a request for memory is granted. -/
  grant : Nat → Bool
  conf : Nat → ConfData
  /-- `GetRegString`, with the status and the buffer it leaves. -/
  getRegString : Nat → RootKey → List WChar → List WChar → Nat × List WChar
  /-- `File_TranslateSymlinks`, with the status and the new name. -/
  translateSymlinks : Nat → List WChar → Nat × List WChar
  /-- `Conf_Users` -/
  users : Nat → List User
  /-- `Driver_Unloading` -/
  unloading : Nat → Bool
  /-- `Api_SendServiceMessage` -/
  sendServiceMessage : Nat → Bool
  /-- `Driver_HomePathNt` -/
  homePathNt : List WChar

/-- A `WCHAR *`, with the block it points to where the expansion has taken one. -/
structure WString where
  block : Option Nat
  text : List WChar
deriving DecidableEq

/-- `(wcslen(string) + 1) * sizeof(WCHAR)` -/
def WString.size (s : WString) : Nat := (s.text.length + 1) * 2

/-- `\REGISTRY\MACHINE`, which is `Key_Registry_Machine`. -/
def registryMachine : List WChar := wide "\\REGISTRY\\MACHINE".toList
def registryUser : List WChar := wide "\\REGISTRY\\USER\\%SID%".toList
/-- `_Windows` -/
def windowsKey : List WChar :=
  wide "\\REGISTRY\\MACHINE\\SOFTWARE\\Microsoft\\Windows\\CurrentVersion".toList
/-- `_DefaultSpoolDirectoryPrefix` -/
def spoolPrefix : List WChar := wide "%SystemRoot%\\System32\\spool\\".toList
def userShellFoldersKey : List WChar :=
  wide ("Software\\Microsoft\\Windows\\CurrentVersion\\".toList ++
    "Explorer\\User Shell Folders".toList)
def shellFoldersKey : List WChar :=
  wide ("Software\\Microsoft\\Windows\\CurrentVersion\\".toList ++
    "Explorer\\Shell Folders".toList)
/-- `File_Mup` -/
def mup : List WChar := wide "\\Device\\Mup".toList
/-- `File_Redirector`, `File_MupRedir`, `File_DfsClientRedir` and `File_HgfsRedir`. -/
def redirectors : List (List WChar) :=
  [wide "\\Device\\LanmanRedirector".toList, wide "\\Device\\Mup\\;LanmanRedirector".toList,
    wide "\\Device\\Mup\\DfsClient".toList, wide "\\Device\\Mup\\;hgfs".toList]

/-- `%` -/
abbrev percent : WChar := 37
/-- `\` -/
abbrev backslash : WChar := 92
/-- `:` -/
abbrev colon : WChar := 58
/-- `;` -/
abbrev semicolon : WChar := 59
/-- `?` -/
abbrev question : WChar := 63

section Code

variable (env : Env) (args : Args)

/-! ### Strings in the pool -/

def memAllocString (text : List WChar) : Prog (Option WString) := do
  let block ← alloc env.grant ((text.length + 1) * 2)
  return block.map fun id => { block := some id, text := text }

/-- `Mem_FreeString`; what the expansion has not taken is not in its pool. -/
def memFreeString (s : WString) : Prog Unit :=
  match s.block with
  | some id => free id s.size
  | none => fun _ => none

/-! ### The values of variables -/

/-- The text that `Conf_Get` gives for a setting. -/
def confText (sectionName settingName : List WChar) : Prog (Option (List WChar)) :=
  ask fun t => (confGet env.towlower (env.conf t) (some sectionName) (some settingName) 0).map
    Str.text

/-- `Conf_Expand_Override` -/
def expandOverride (pre valueName : List WChar) : Prog (Option (List WChar)) := do
  match ← alloc env.grant ((pre.length + valueName.length + 4) * 2) with
  | none => return none
  | some iniName =>
    let iniValue ← confText env args.sandbox (pre ++ valueName)
    free iniName ((pre.length + valueName.length + 4) * 2)
    return iniValue.map fun value => value.take 1024

/-- The loop of `Conf_Expand_RegValue` that looks for the value's own name between two percent
signs. -/
def selfReference (valueName : List WChar) : List WChar → Bool
  | [] => false
  | c :: rest =>
    if c = percent then
      (rest.dropWhile (· ≠ percent) ≠ [] &&
        sameNoCase env.towlower (rest.takeWhile (· ≠ percent)) valueName) ||
      selfReference valueName rest
    else selfReference valueName rest

/-- `Conf_Expand_RegValue`, from where the path of the key is known. -/
def queryValue (rootKey : RootKey) (keyPath valueName : List WChar) :
    Prog (Nat × List WChar) := do
  let answer ← ask fun t => env.getRegString t rootKey keyPath valueName
  let value := cut answer.2
  let status :=
    if answer.1 = success && selfReference env valueName value then nameNotFound else answer.1
  if notFound status then
    let fallback ← expandOverride env args (wide "Reg.".toList) valueName
    return match fallback with
      | some v => (success, v)
      | none => (status, value)
  else return (status, value)

/-- `Conf_Expand_RegValue` where it makes a path of the key. -/
def queryWithPath (size : Nat) (keyPath valueName : List WChar) : Prog (Nat × List WChar) := do
  match ← alloc env.grant size with
  | none => return (insufficientResources, [])
  | some path =>
    let r ← queryValue env args .absolute keyPath valueName
    free path size
    return r

/-- `Conf_Expand_RegValue` -/
def expandRegValue (rootKey : RootKey) (subKeyPath valueName : List WChar) :
    Prog (Nat × List WChar) :=
  match rootKey with
  | .user =>
    queryWithPath env args ((32 + args.sid.length + subKeyPath.length) * 2)
      (wide "\\REGISTRY\\USER\\".toList ++ args.sid ++ [backslash] ++ subKeyPath) valueName
  | .machine =>
    queryWithPath env args ((32 + subKeyPath.length) * 2)
      (registryMachine ++ [backslash] ++ subKeyPath) valueName
  | rootKey => queryValue env args rootKey subKeyPath valueName

/-- The loop of `Conf_GetUserNameForSid`, with the turns that are left. -/
def userNameLoop (sid : List WChar) : Nat → Bool → Prog (List WChar)
  | 0, _ => return wide "unknown".toList
  | turns + 1, messageSent => do
    let unloading ← ask env.unloading
    if unloading then return wide "unknown".toList
    else
      let user ← ask fun t => (env.users t).find? fun u => sameNoCase env.towlower u.sid sid
      match user with
      | some u => return u.name
      | none =>
        if messageSent then userNameLoop sid turns true
        else
          match ← alloc env.grant (8 + (sid.length + 4) * 2) with
          | none => return wide "unknown".toList
          | some msg =>
            let sent ← ask env.sendServiceMessage
            free msg (8 + (sid.length + 4) * 2)
            if sent then userNameLoop sid turns true else return wide "unknown".toList

/-- `Conf_Expand_UserName` -/
def expandUserName : Prog (List WChar) := userNameLoop env args.sid 40 false

/-- The value of a template's setting, where `?` stands for none. -/
def templateValue (settingName : List WChar) : Prog (Option (List WChar)) := do
  let iniValue ← confText env templateSettings settingName
  return iniValue.filter (· ≠ [question])

/-- The queries of `Conf_Expand_Template`. -/
def templateQuery (varname user : List WChar) : Prog (Option (List WChar)) := do
  match ← templateValue env (varname ++ wide ['.'] ++ user) with
  | some value => return some value
  | none => templateValue env varname

/-- `Conf_Expand_Template` -/
def expandTemplate (varname : List WChar) : Prog (Nat × List WChar) := do
  let user ← expandUserName env args
  match ← alloc env.grant ((varname.length + user.length + 8) * 2) with
  | none => return (insufficientResources, user)
  | some varname2 =>
    let iniValue ← templateQuery env varname user
    free varname2 ((varname.length + user.length + 8) * 2)
    return match iniValue with
      | some value => (success, value.take 1024)
      | none => (nameNotFound, user)

/-- `Conf_IsExpectedNonUserSid` -/
def isExpectedNonUserSid : Bool :=
  2 ≤ args.session &&
    (hasPrefix env.towlower (wide "S-1-5-96-0-".toList) args.sid ||
      hasPrefix env.towlower (wide "S-1-5-90-0-".toList) args.sid)

def userProfile : Prog (Nat × List WChar) := do
  match ← alloc env.grant ((args.sid.length + 32) * 2) with
  | none => return (insufficientResources, [])
  | some keyName =>
    let r ← expandRegValue env args .windowsNT
      (wide "ProfileList\\".toList ++ args.sid) (wide "ProfileImagePath".toList)
    free keyName ((args.sid.length + 32) * 2)
    return r

def systemDrive : Prog (Nat × List WChar) := do
  let r ← expandRegValue env args .windowsNT [] (wide "SystemRoot".toList)
  return if ntSuccess r.1 then
      if r.2[1]? = some colon then (r.1, r.2.take 2) else (nameInvalid, r.2)
    else r

def defaultSpoolDirectory (varname : List WChar) : Prog (Nat × List WChar) := do
  let r ← expandRegValue env args .control (wide "Print\\Printers".toList) varname
  return if notFound r.1 then (success, spoolPrefix ++ wide "PRINTERS".toList) else r

/-- `%AllUsersProfile%` and `%ProgramData%` -/
def allUsersProfile : Prog (Nat × List WChar) := do
  let profileList := wide "ProfileList".toList
  let r ← expandRegValue env args .windowsNT profileList (wide "ProgramData".toList)
  if r.1 = nameNotFound then
    let r ← expandRegValue env args .windowsNT profileList (wide "ProfilesDirectory".toList)
    if ntSuccess r.1 then
      let pre := if r.2 ≠ [] && r.2.getLast? ≠ some backslash then r.2 ++ [backslash] else r.2
      let r ← expandRegValue env args .windowsNT profileList (wide "AllUsersProfile".toList)
      return (r.1, pre ++ r.2)
    else return r
  else return r

/-- A query, and another one where it finds nothing. -/
def orElseQuery (r : Nat × List WChar) (next : Prog (Nat × List WChar)) :
    Prog (Nat × List WChar) :=
  if notFound r.1 then next else return r

/-- `%temp%` and `%tmp%` -/
def tempDirectory : Prog (Nat × List WChar) := do
  let r ← expandRegValue env args .user (wide "Environment".toList) (wide "temp".toList)
  orElseQuery r (expandRegValue env args .user (wide "Environment".toList) (wide "tmp".toList))

def shellFolder (varname : List WChar) : Prog (Nat × List WChar) := do
  let name :=
    if sameNoCase env.towlower varname (wide "LocalAppData".toList) then
      wide "Local AppData".toList
    else varname
  let r ← expandRegValue env args .user userShellFoldersKey name
  let r ← orElseQuery r (expandRegValue env args .user shellFoldersKey name)
  let r ← orElseQuery r (expandRegValue env args .machine userShellFoldersKey name)
  orElseQuery r (expandRegValue env args .machine shellFoldersKey name)

/-- The value of a variable: the status, the value and whether the user's profile was asked. -/
structure Lookup where
  status : Nat
  value : List WChar
  userProfile : Bool

/-- What a query of the registry or the configuration comes to. -/
def queried (userProfile : Bool) (p : Prog (Nat × List WChar)) : Prog Lookup := do
  let r ← p
  return { status := r.1, value := r.2, userProfile := userProfile }

def known (value : List WChar) : Prog Lookup :=
  return { status := success, value := value, userProfile := false }

/-- The variables of `Conf_Expand_Helper`, in the order in which it knows them. -/
def lookupVariable (varname : List WChar) : Prog Lookup :=
  let named (name : String) : Bool := sameNoCase env.towlower varname (wide name.toList)
  let windowsValue (name : String) : Prog Lookup :=
    queried false (expandRegValue env args .absolute windowsKey (wide name.toList))
  if named "sandbox" then known args.sandbox
  else if named "SbieHome" then known env.homePathNt
  else if named "sid" then known args.sid
  else if named "user" || named "username" then do
    let name ← expandUserName env args
    known name
  else if named "session" then
    known (wide (toString ((args.session : Int).bmod (2 ^ 32))).toList)
  else if named "ProgramFiles" then windowsValue "ProgramFilesDir"
  else if named "ProgramFiles(x86)" then windowsValue "ProgramFilesDir (x86)"
  else if named "CommonProgramFiles" then windowsValue "CommonFilesDir"
  else if named "CommonProgramFiles(x86)" then windowsValue "CommonFilesDir (x86)"
  else if named "SystemRoot" then queried false (expandRegValue env args .windowsNT [] varname)
  else if named "SystemDrive" then queried false (systemDrive env args)
  else if named "DefaultSpoolDirectory" then
    queried false (defaultSpoolDirectory env args varname)
  else if named "DefaultSpoolDirectory2" then known (spoolPrefix ++ wide "SERVERS".toList)
  else if named "UserProfile" then queried true (userProfile env args)
  else if named "AllUsersProfile" || named "ProgramData" then
    queried false (allUsersProfile env args)
  else if named "PUBLIC" then known (wide "%SystemDrive%\\Users\\Public".toList)
  else if named "homedrive" || named "homepath" || named "homeshare" then
    queried true (expandRegValue env args .user (wide "Volatile Environment".toList) varname)
  else if named "temp" || named "tmp" then queried true (tempDirectory env args)
  else if named "SystemTemp" then
    queried false (expandRegValue env args .control
      (wide "Session Manager\\Environment".toList) (wide "Temp".toList))
  else if hasPrefix env.towlower tmpl varname then
    queried false (expandTemplate env args varname)
  else queried true (shellFolder env args varname)

/-- A variable's value, which a setting may override. -/
def variableValue (varname : List WChar) : Prog Lookup := do
  match ← expandOverride env args (wide "Ovr.".toList) varname with
  | some value => known value
  | none => lookupVariable env args varname

/-! ### Paths -/

/-- A path that its receiver gives back, with the size to say. -/
structure OutPath where
  block : Nat
  size : Nat
  text : List WChar

/-- The path `path` in a new block. -/
def newPath (size : Nat) (path : List WChar) : Prog (Nat × Option OutPath) := do
  match ← alloc env.grant size with
  | none => return (insufficientResources, none)
  | some id => return (success, some { block := id, size := size, text := path })

/-- What follows the prefix of a redirector, without the component that has a semicolon. -/
def redirected (path : List WChar) : List WChar :=
  match path with
  | 92 :: 59 :: rest => rest.dropWhile (· ≠ backslash)
  | 92 :: rest => backslash :: rest
  | _ => []

/-- `File_TranslateShares` -/
def translateShares (path : List WChar) : Prog (Nat × Option OutPath) :=
  if path.take 2 = [backslash, backslash] && path[2]?.any (· ≠ backslash) then
    newPath env ((mup.length + (path.drop 1).length + 1) * 2) (mup ++ path.drop 1)
  else
    let prefixLen := ((redirectors.find? fun r => hasPrefix env.towlower r path).map
      List.length).getD 0
    let ptr := redirected (path.drop prefixLen)
    if 0 < prefixLen && 2 ≤ ptr.length then
      newPath env ((prefixLen + ptr.length + 1) * 2) (mup ++ ptr)
    else return (badInitialPc, none)

/-- `File_TranslateDosToNt` with the buffer for the name of the drive: the device behind the
drive, then what follows the colon. -/
def translateDrive (drive : WChar) (rest : List WChar) : Prog (Nat × Option OutPath) := do
  let link ← ask fun t => env.translateSymlinks t (wide "\\??\\".toList ++ [drive, colon])
  if ntSuccess link.1 then
    let size := (link.2.length + rest.length + 1) * 2 + if rest = [] then 2 else 0
    let path := link.2 ++ if rest = [] then [backslash] else rest
    match ← alloc env.grant size with
    | none => return (insufficientResources, none)
    | some id =>
      let shares ← translateShares env path
      if shares.1 = badInitialPc then
        return (success, some { block := id, size := size, text := path })
      else
        free id size
        return shares
  else return (link.1, none)

/-- `\??\` in front of a path is ignored. -/
def withoutDosDevices (path : List WChar) : List WChar :=
  if path.take 4 = wide "\\??\\".toList then path.drop 4 else path

/-- `File_TranslateDosToNt` -/
def translateDosToNt (path : List WChar) : Prog (Nat × Option OutPath) := do
  let shares ← translateShares env path
  if shares.1 = badInitialPc then
    match withoutDosDevices path with
    | drive :: 58 :: rest =>
      if rest = [] || rest.head? = some backslash then
        match ← alloc env.grant ((256 + 2) * 2) with
        | none => return (insufficientResources, none)
        | some name =>
          let r ← translateDrive env drive rest
          free name ((256 + 2) * 2)
          return r
      else return (pathSyntaxBad, none)
    | _ => return (pathSyntaxBad, none)
  else return shares

/-! ### The expansion -/

/-- The user-mode prefix of a registry path, and what follows it. -/
def registryPrefix (modelValue : List WChar) : Option (List WChar × List WChar) :=
  if hasPrefix env.towlower (wide "HKEY_".toList) modelValue then
    let ptr1 := modelValue.drop 5
    let machine := wide "LOCAL_MACHINE".toList
    let user := wide "CURRENT_USER".toList
    let found :=
      if hasPrefix env.towlower machine ptr1 then
        some (registryMachine, ptr1.drop machine.length)
      else if hasPrefix env.towlower user ptr1 then some (registryUser, ptr1.drop user.length)
      else none
    found.filter fun r => r.2.head?.all fun c => c = backslash || c = 95
  else none

/-- The loop of `Conf_Expand_Helper` for two percent signs with something between them: what is
before, between and behind them. -/
def findVariable (before : List WChar) : List WChar →
    Option (List WChar × List WChar × List WChar)
  | [] => none
  | c :: rest =>
    if c = percent then
      match rest.dropWhile (· ≠ percent) with
      | [] => none
      | _ :: after =>
        if rest.head? = some percent then findVariable (before ++ [c]) rest
        else some (before, rest.takeWhile (· ≠ percent), after)
    else findVariable (before ++ [c]) rest

/-- `Conf_Expand_Helper` from where there is a variable to replace. -/
def replaceVariable (before name after : List WChar) : Prog (Option WString × Bool) := do
  let found ← variableValue env args (name.take 65)
  if ntSuccess found.status then
    let buf ← memAllocString env (before ++ found.value ++ after)
    return (buf, false)
  else
    return (none, found.userProfile && notFound found.status && isExpectedNonUserSid env args)

/-- `Conf_Expand_Helper` where the text is a path. -/
def copyPath : Option OutPath → Prog (Option WString × Bool)
  | none => fun _ => none
  | some out => do
    let buf ← memAllocString env out.text
    free out.block out.size
    return (buf, false)

/-- `Conf_Expand_Helper`, with `suppress_log`: the same string again where there is nothing to
replace. -/
def expandHelper (modelValue : WString) : Prog (Option WString × Bool) :=
  match registryPrefix env modelValue.text with
  | some (ptr2, ptr1) => do
    let buf ← memAllocString env (ptr2 ++ ptr1)
    return (buf, false)
  | none => do
    let path ← translateDosToNt env modelValue.text
    if ntSuccess path.1 then copyPath env path.2
    else if path.1 = pathSyntaxBad then
      match findVariable [] modelValue.text with
      | none => return (some modelValue, false)
      | some (before, name, after) => replaceVariable env args before name after
    else return (none, false)

abbrev pageSize : Nat := 4096

def freeOld (modelValue old : WString) : Prog Unit :=
  if old.block = modelValue.block then return () else memFreeString old

/-- The end of `Conf_Expand_2` behind its loop. -/
def finish (buffer : Nat) (newValue : Option WString) (suppressLog : Bool) :
    Prog (Option WString × Bool) := do
  free buffer pageSize
  return (newValue, suppressLog)

/-- How many replacements `Conf_Expand_2` allows. -/
abbrev retryLimit : Nat := 10

/-- The loop of `Conf_Expand_2`; `fuel` bounds its turns. -/
def expandLoop (buffer : Nat) (modelValue : WString) :
    Nat → Nat → Option WString → Bool → Prog (Option WString × Bool)
  | 0, _, _, _ => fun _ => none
  | _ + 1, _, none, suppressLog => finish buffer none suppressLog
  | fuel + 1, retries, some old, suppressLog =>
    if 1024 < old.text.length then return (none, suppressLog)
    else do
      let r ← expandHelper env args old
      if r.1.map WString.block = some old.block then
        if old.block = modelValue.block then
          let copy ← memAllocString env old.text
          finish buffer copy r.2
        else finish buffer r.1 r.2
      else
        freeOld modelValue old
        if retryLimit < retries + 1 then return (none, r.2)
        else expandLoop buffer modelValue fuel (retries + 1) r.1 r.2

/-- `Conf_Expand_2` -/
def expand2 (fuel : Nat) (modelValue : List WChar) : Prog (Option WString × Bool) := do
  match ← alloc env.grant pageSize with
  | none => return (none, false)
  | some buffer =>
    let model : WString := { block := none, text := modelValue }
    expandLoop env args buffer model fuel 0 (some model) false

/-- The line that `Conf_ExpandEx` logs. -/
def sourceText (modelValue : List WChar) (settingName : Option (List WChar)) : List WChar :=
  wide ['['] ++ args.sandbox ++ wide [']', ' '] ++
    ((settingName.map fun name => name ++ wide ['=']).getD []) ++ modelValue

/-- The message of `Conf_ExpandEx`, where it is not suppressed: its text is made in a block of
its own. -/
def logSource (modelValue : List WChar) (settingName : Option (List WChar))
    (suppressLog : Bool) : Prog (Option (List WChar)) := do
  let size := (args.sandbox.length + 16 + modelValue.length +
    (settingName.map List.length).getD 0) * 2
  match ← alloc env.grant size with
  | none => return none
  | some text =>
    let line ← (pure (sourceText args modelValue settingName) : Prog (List WChar))
    free text size
    return if suppressLog then none else some line

/-- `Conf_ExpandEx`, with `*out_suppress_log` and the line that is logged. -/
def confExpandEx (fuel : Nat) (modelValue : List WChar) (settingName : Option (List WChar)) :
    Prog (Option WString × Bool × Option (List WChar)) := do
  let r ← expand2 env args fuel modelValue
  match r.1 with
  | some newValue => return (some newValue, r.2, none)
  | none =>
    let line ← logSource env args modelValue settingName r.2
    return (none, r.2, line)

def confExpand (fuel : Nat) (modelValue : List WChar) (settingName : Option (List WChar)) :
    Prog (Option WString) := do
  let r ← confExpandEx env args fuel modelValue settingName
  return r.1

end Code

end Sandboxie.ConfExpand
