import Sandboxie.Dll.Config
import Sandboxie.Lib.Bytes

/-!
# Starting programs for sandboxed processes

`core/svc/ProcessServer.cpp`, built without `DRV_BREAKOUT`: `RunSandboxedHandler` starts a program
for its caller.  A program that is configured for it leaves the box of the caller, which is
decided by the text of the command line.

What Windows, the driver and the configuration answer is in `Machine`.
-/

namespace Sandboxie.ProcessServer

open Bytes Image ProcessConf Config

structure Machine where
  towlower : WChar → WChar
  /-- What Windows makes of the text of a path before it opens or runs the file. -/
  resolve : List WChar → List WChar
  /-- `CreateFileW` and `GetFinalPathNameByHandleW`, with `VOLUME_NAME_NT`. -/
  finalPath : List WChar → Option (List WChar)
  translateNtToDosPath : List WChar → List WChar
  /-- `Pattern_Match`, for a pattern with a hex part. -/
  hexMatch : Pattern → List WChar → Bool
  wtoi : List WChar → Int
  /-- The values of a setting of a section. -/
  values : List WChar → List WChar → List (List WChar)
  groups : List (List WChar)
  /-- `Conf_Expand`, for a section. -/
  expand : List WChar → List WChar → Option (List WChar)
  /-- `SbieApi_EnumBoxesEx`, and `API_IS_BOX_ENABLED` for the user of the caller. -/
  boxes : List (List WChar)
  enabled : List WChar → Bool
  callerPid : Nat
  /-- Only the idle process has the number zero. -/
  callerPid_pos : 0 < callerPid
  /-- `OpenProcess` of the caller. -/
  callerOpened : Bool
  callerInSandbox : Bool
  /-- The name of the box of a process, from `SbieApi_QueryProcess`. -/
  boxOf : Int → List WChar
  /-- `SbieApi_QueryProcessPath` of the caller. -/
  sandboxPath : Option (List WChar)
  /-- `SbieApi_QueryProcessInfo` of the caller, and whether it has a 32-bit ntdll. -/
  processFlags : Nat
  ntdll32 : Bool
  homePath : List WChar
  /-- `RunSandboxedGetToken`, with the box and the command. -/
  token : List WChar → List WChar → Bool
  duplicateToken : Bool
  setThreadToken : Bool
  createProcess : List WChar → Bool
  /-- `SetThreadToken` once more, for a box that is named. -/
  setThreadToken2 : Bool
  /-- `API_START_PROCESS` -/
  startProcess : Bool
  /-- `RunSandboxedDupAndCloseHandles` -/
  dupHandles : Bool
  lastError : Nat

def quote : WChar := 34
def backslash : WChar := 92
def dash : WChar := 45
def COMSRV : List WChar := wide "*COMSRV*".toList
def RPCSS : List WChar := wide "*RPCSS*".toList
def UNBOXED : List WChar := wide "*UNBOXED*".toList
def BreakoutProcess : List WChar := wide "BreakoutProcess".toList
def BreakoutFolder : List WChar := wide "BreakoutFolder".toList
def ForceProcess : List WChar := wide "ForceProcess".toList
def ForceFolder : List WChar := wide "ForceFolder".toList
def BOXNAME_COUNT : Nat := 40
def PIPE_MAX_DATA_LEN : Nat := 0x00FFFFFF
def ERROR_ACCESS_DENIED : Nat := 5
def ERROR_NOT_SUPPORTED : Nat := 50
def ERROR_INVALID_PARAMETER : Nat := 87
def STATUS_INVALID_PARAMETER : Nat := 0xC000000D

/-! ### The request -/

/-- `PROCESS_RUN_SANDBOXED_REQ`: the bytes of the message. -/
abbrev Request := List UInt8

namespace Request

def sizeofReq : Nat := 124

def length (req : Request) : Nat := u32 req 0

/-- The `n` characters at an offset. -/
def chars (req : Request) (ofs n : Nat) : List WChar :=
  (List.range n).map fun i => u16 req (ofs + 2 * i)

/-- `boxname`, whose last character the handler overwrites with a zero. -/
def boxname (req : Request) : List WChar := Text.cut (req.chars 8 (BOXNAME_COUNT - 1))

def siFlags (req : Request) : Nat := u32 req 112
def creationFlags (req : Request) : Nat := u32 req 120

def runSandboxedCopyString (req : Request) (ofs len : Nat) : Option (List WChar) :=
  let len := len * 2 % 2 ^ 32
  if ofs ≤ PIPE_MAX_DATA_LEN ∧ len ≤ PIPE_MAX_DATA_LEN ∧ ofs + len ≤ req.length then
    some (Text.cut (req.chars ofs (len / 2)))
  else none

def cmd (req : Request) : Option (List WChar) :=
  req.runSandboxedCopyString (u32 req 88) (u32 req 92)
def dir (req : Request) : Option (List WChar) :=
  req.runSandboxedCopyString (u32 req 96) (u32 req 100)
def env (req : Request) : Option (List WChar) :=
  req.runSandboxedCopyString (u32 req 104) (u32 req 108)

end Request

/-! ### The configuration -/

variable (w : Machine)

def box (boxname : List WChar) : Box := ⟨w.towlower, w.expand boxname, w.groups, w.hexMatch⟩

/-- `SbieDll_CheckStringInList`: a value that does not fit into the buffer is left out. -/
def checkStringInList (string boxname setting : List WChar) : Bool :=
  (w.values boxname setting).any fun buf =>
    decide (buf.length + 1 ≤ 64) && Text.sameNoCase w.towlower buf string

/-- `Config_InitPatternList`, with `dos`.  `Dll_ImageName` is null in the service. -/
def initPatternList (boxname setting : List WChar) : List Pattern :=
  (queryLoop (box w boxname) (w.values boxname setting)).filterMap fun conf_buf =>
    let (value, level) :=
      configMatchImageAndGetValue (box w boxname) w.hexMatch none conf_buf unset
    value.map fun value =>
      let value := if value.head? ≠ some Pattern.star then w.translateNtToDosPath value else value
      Pattern.create w.towlower value true level

/-- `SbieDll_CheckPatternInList` -/
def checkPatternInList (string : List WChar) (length : Nat) (boxname setting : List WChar) :
    Bool :=
  let length := if length = 0 then string.length else length
  let path_lwr := (string.take length).map w.towlower
  (initPatternList w boxname setting).any fun pat =>
    patternMatch (dllSide (box w boxname) w.hexMatch) pat path_lwr

def isHostPath (dos_path : List WChar) : Bool :=
  match w.finalPath (w.resolve dos_path) with
  | none => false
  | some request_path =>
    if 8192 < request_path.length then false
    -- files on network shares are not files on the host
    else if Text.sameNoCase w.towlower (request_path.take 12) (wide "\\Device\\Mup\\".toList) then
      false
    else
      match w.sandboxPath with
      | none => false
      | some sandbox_path =>
        decide (request_path.length ≤ sandbox_path.length) ||
          !Text.sameNoCase w.towlower sandbox_path (request_path.take sandbox_path.length)

/-! ### The decision -/

/-- `BoxNameOrModelPid`, a `LONG_PTR`: the address of a name, or a number that is zero for a
breakout and the negative number of a process for its box. -/
inductive BoxNameOrModelPid
  | boxname (name : List WChar)
  | num (n : Int)
deriving DecidableEq

/-- The text between the first two quotes. -/
def applicationName (cmd : List WChar) : Option (List WChar) :=
  if cmd.head? = some quote ∧ quote ∈ cmd.tail then some (cmd.tail.takeWhile (· ≠ quote))
  else none

/-- `wcsrchr` for a backslash: what is before it and what is after it. -/
def splitProgram (path : List WChar) : Option (List WChar × List WChar) :=
  if backslash ∈ path then
    some (((path.reverse.dropWhile (· ≠ backslash)).drop 1).reverse,
      (path.reverse.takeWhile (· ≠ backslash)).reverse)
  else none

def breaksOut (boxname lpApplicationName folder program : List WChar) : Bool :=
  (checkStringInList w program boxname BreakoutProcess && isHostPath w lpApplicationName) ||
    checkPatternInList w lpApplicationName folder.length boxname BreakoutFolder

def forces (lpApplicationName folder program BoxName : List WChar) : Bool :=
  checkStringInList w program BoxName ForceProcess ||
    checkPatternInList w lpApplicationName folder.length BoxName ForceFolder

/-- Where a program is going to be started. -/
structure Target where
  boxNameOrModelPid : BoxNameOrModelPid
  boxname : List WChar
  filterHandles : Bool := false
deriving DecidableEq

def otherBox (lpApplicationName folder program : List WChar) : Option (List WChar) :=
  w.boxes.find? fun BoxName =>
    w.enabled BoxName && forces w lpApplicationName folder program BoxName

/-- The part of `RunSandboxedHandler` without `DRV_BREAKOUT`; nothing where the program is taken by
the box that it is in. -/
def breakout (cmd : List WChar) (target : Target) : Option Target :=
  match applicationName cmd with
  | none => some target
  | some lpApplicationName =>
    match splitProgram lpApplicationName with
    | none => some target
    | some (folder, program) =>
      if breaksOut w target.boxname lpApplicationName folder program then
        match otherBox w lpApplicationName folder program with
        | none => some ⟨.num 0, target.boxname, true⟩
        | some BoxName =>
          if Text.sameNoCase w.towlower target.boxname BoxName then none
          else some ⟨.boxname BoxName, BoxName, true⟩
      else some target

/-! ### The start -/

/-- A program that runs, and the box that the driver has put it into. -/
structure Started where
  cmd : List WChar
  box : Option (List WChar)
deriving DecidableEq

def CREATE_SECURE_PROCESS : Nat := 0x00400000

/-- The flags that a caller may set: no window, suspended, Unicode environment and the priority
classes. -/
def allowedFlags : Nat := 0x08000000 ||| 0x4 ||| 0x400 ||| 0x80 ||| 0x8000 ||| 0x4000 ||| 0x40

/-- The caller has to be a COM server that is forced and protected, not from the box, and not in
the job of the compatibility assistant. -/
def comServerOn : Nat := 0x00000002 ||| 0x40000000
def comServerOff : Nat := 0x00000040 ||| 0x08000000

def runSandboxedComServer (CallerPid : Int) : Option (List WChar) :=
  if w.processFlags &&& (comServerOn ||| comServerOff) ≠ comServerOn then none
  else
    some ([quote] ++ w.homePath ++ (if w.ntdll32 then wide "\\32".toList else []) ++
      wide "\\SbieSvc.exe\" Sandboxie_ComProxy_ComServer:".toList ++ w.boxOf CallerPid)

def BoxNameOrModelPid.modelPid : BoxNameOrModelPid → Option Int
  | .boxname _ => none
  | .num n => if n < 0 then some (-n) else none

/-- The command that `RunSandboxedStartProcess` runs, and whether it runs in a box. -/
def startCommand (target : BoxNameOrModelPid) (cmd : List WChar) : Option (List WChar × Bool) :=
  if target = .num 0 then some (cmd, false)
  else if cmd = COMSRV then
    match target.modelPid with
    | some CallerPid => (runSandboxedComServer w CallerPid).map fun cmd => (cmd, false)
    | none => some (cmd, true)
  else if cmd = RPCSS then
    some ([quote] ++ w.homePath ++ wide "\\SandboxieRpcSs.exe\"".toList, true)
  else some (cmd, true)

/-- `RunSandboxedStartProcess`, which ends the process again when it fails. -/
def runSandboxedStartProcess (target : BoxNameOrModelPid) (cmd : List WChar) (crflags : Nat) :
    Except Nat Started :=
  let crflags := crflags &&& (2 ^ 32 - 1 - CREATE_SECURE_PROCESS)
  if crflags &&& allowedFlags ≠ crflags then .error ERROR_INVALID_PARAMETER
  else
    match startCommand w target cmd with
    | none => .error ERROR_ACCESS_DENIED
    | some (cmd, StartProgramInSandbox) =>
      if !(w.duplicateToken && w.setThreadToken && w.createProcess cmd) then .error w.lastError
      else
        match target with
        | .boxname name =>
          if !w.setThreadToken2 then .error w.lastError
          else if !StartProgramInSandbox then .ok ⟨cmd, none⟩
          else if w.startProcess then .ok ⟨cmd, some name⟩
          else .error w.lastError
        | .num n =>
          if !StartProgramInSandbox then .ok ⟨cmd, none⟩
          else if w.startProcess then .ok ⟨cmd, some (w.boxOf (-n))⟩
          else .error w.lastError

/-! ### The handler -/

structure Outcome where
  err : Nat
  lvl : Nat
  started : Option Started := none
deriving DecidableEq

/-- Where a program is started that does not break out; nothing where the request asks for
session 0 from a box. -/
def callerTarget (req : Request) : Option Target :=
  if w.callerInSandbox then
    if req.siFlags &&& 0x80000000 ≠ 0 then none
    else some { boxNameOrModelPid := .num (-w.callerPid), boxname := w.boxOf w.callerPid }
  else if req.boxname.head? = some dash then
    let Pid := w.wtoi (req.boxname.drop 1)
    some { boxNameOrModelPid := .num (-Pid), boxname := w.boxOf Pid }
  else some { boxNameOrModelPid := .boxname req.boxname, boxname := req.boxname }

/-- From the token to the handles of the new process. -/
def startAt (req : Request) (cmd : List WChar) (target : Target) : Outcome :=
  if !w.token target.boxname cmd then ⟨w.lastError, 0x33, none⟩
  else
    match runSandboxedStartProcess w target.boxNameOrModelPid cmd req.creationFlags with
    | .error err => ⟨err, 0x44, none⟩
    | .ok started =>
      if w.dupHandles then ⟨0, 0, some started⟩ else ⟨w.lastError, 0x55, some started⟩

def runSandboxedHandler (req : Request) : Outcome :=
  if req.length < Request.sizeofReq then ⟨STATUS_INVALID_PARAMETER, 0, none⟩
  else
    match req.cmd, req.dir, req.env with
    | some cmd, some _, some _ =>
      if !w.callerOpened then ⟨w.lastError, 0x22, none⟩
      else
        match callerTarget w req with
        | none => ⟨ERROR_NOT_SUPPORTED, 0xFF, none⟩
        | some target =>
          if w.callerInSandbox && decide (req.boxname = UNBOXED) then
            match breakout w cmd target with
            | none => ⟨ERROR_NOT_SUPPORTED, 0, none⟩
            | some target => startAt w req cmd target
          else startAt w req cmd target
    | _, _, _ => ⟨ERROR_INVALID_PARAMETER, 0x11, none⟩

end Sandboxie.ProcessServer
