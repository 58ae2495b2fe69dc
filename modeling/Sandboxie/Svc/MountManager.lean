import Mathlib.Data.Fintype.Basic
import Mathlib.Data.Fintype.Prod
import Mathlib.Logic.Function.Basic
import Sandboxie.Common.Text
import Sandboxie.Lib.CriticalSection
import Sandboxie.Lib.Run
import Sandboxie.Lib.SortedMap

/-!
# The mount manager

`core/svc/MountManager.cpp`: box roots whose files are on an ImDisk device, and the threads of
the service that mount, use and unmount them.  A step of a thread is what it does between two
points at which another thread can come in: from `EnterCriticalSection` on to the point where it
leaves, or one slow call outside of `m_CritSec`.

What the code reads from outside (the driver, the configuration, the file system) is in the
answers of a step.  The log keeps what a step did with the lock, with pointers and with devices.
-/

namespace Sandboxie.MountManager

abbrev RootId := Nat

abbrev MountId := Nat

structure BoxMount where
  ntPath : List WChar := []
  unmounting : Bool := false
deriving DecidableEq

structure BoxRoot where
  mount : Option MountId := none
  inUse : Bool := false
  autoUnmount : Bool := false
  path : List WChar := []
deriving DecidableEq

/-- An ImDisk device of the service: its path, and the part of its proxy after the `!`. -/
structure Device where
  ntPath : List WChar
  proxyName : List WChar
deriving DecidableEq

/-- What is called and is not told: `towlower`, and `SbieDll_TranslateNtToDosPath` with the file
root. -/
structure Env where
  towlower : WChar → WChar
  translateNtToDosPath : List WChar → List WChar

inductive Call
  | createHandler (file_root : List WChar)
  | mountHandler (reg_root file_root : List WChar) (auto_unmount : Bool)
  | unmountHandler (reg_root : List WChar)
  | enumHandler
  | queryHandler (reg_root : List WChar)
  | updateHandler
  /-- With `UseRamDisk` and `UseFileImage` as they are read at the beginning. -/
  | acquireBoxRoot (boxname reg_root file_root : List WChar) (useRamDisk useFileImage : Bool)
  | lockBoxRoot (reg_root : List WChar)
  | releaseBoxRoot (reg_root : List WChar) (force : Bool)
deriving DecidableEq

/-- The callers of `GetBoxRootLocked`, with their variables. -/
inductive Caller
  | mountHandler (pMount : MountId) (file_root : List WChar) (auto_unmount : Bool)
  | unmountHandler
  | queryHandler
  | acquireBoxRoot (boxname file_root : List WChar) (useRamDisk useFileImage : Bool)
deriving DecidableEq

/-- `bCanAdd`. -/
def Caller.canAdd : Caller → Bool
  | mountHandler .. => true
  | acquireBoxRoot _ _ useRamDisk useFileImage => useRamDisk || useFileImage
  | _ => false

/-- Where a thread is.  `pRoot` is the root that a local variable of the thread keeps. -/
inductive Place
  | idle
  /-- It has used a pointer that does not point to anything. -/
  | dead
  | createNew (file_root : List WChar)
  | createUnmount (device : List WChar)
  | mountFind (reg_root file_root : List WChar) (auto_unmount : Bool)
  | mountNew (reg_root file_root : List WChar) (auto_unmount : Bool)
  | getBoxRoot (caller : Caller) (reg_root : List WChar) (mayRetry : Nat) (pRoot : Option RootId)
  | gotBoxRoot (caller : Caller) (reg_root : List WChar) (pRoot : RootId)
  | queryRamDisk
  | mountJunction (reg_root file_root target : List WChar) (pRoot : RootId)
  | enumerate
  | lock (reg_root : List WChar)
  | release (reg_root : List WChar) (force : Bool) (pRoot : Option RootId)
  /-- In `UnmountImDiskLocked`, outside of the lock.  `toUnMount` is the root whose `Mount` is
  passed by reference, `used` that its use was ended by an operation that failed. -/
  | unmount (device : List WChar) (toUnMount : RootId) (pRoot : Option RootId) (used : Bool)
  | unmounted (device : List WChar) (toUnMount : RootId) (pRoot : Option RootId) (ok : Bool)
deriving DecidableEq

def Place.holds : Place → Option RootId
  | getBoxRoot _ _ _ pRoot | release _ _ pRoot | unmount _ _ pRoot _ | unmounted _ _ pRoot _ =>
    pRoot
  | gotBoxRoot _ _ pRoot | mountJunction _ _ _ pRoot => some pRoot
  | _ => none

/-- A thread, and how often it was in `m_CritSec` when its operation began. -/
structure Thread where
  place : Place := .idle
  base : Nat := 0
deriving DecidableEq

inductive Event
  /-- `GetBoxRootLocked` has returned, with how often the thread was in `m_CritSec` before and
  is now. -/
  | gotRoot (pRoot : Option RootId) (before after : Nat)
  | returned (before after : Nat)
  /-- `LeaveCriticalSection` by a thread that is inside so often. -/
  | left (held : Nat)
  | usedMount (mount : Option MountId)
  /-- A root is used, and whether someone still has it. -/
  | usedRoot (alive : Bool)
  /-- A junction is removed, and whether it is of a root in use. -/
  | removedJunction (inUse : Bool)
  /-- A device is removed, and whether a root in use is on it. -/
  | removedDevice (inUse : Bool)
  /-- `UnmountImDiskLocked` has returned `true`, and whether the removed device is still referred
  to. -/
  | unmountDone (stale : Bool)
deriving DecidableEq

structure State (T : Type) where
  m_CritSec : CriticalSection T := none
  m_RootMap : SortedMap (List WChar) RootId := SortedMap.empty
  m_RamDisk : Option MountId := none
  roots : RootId → BoxRoot := fun _ => {}
  nextRoot : RootId := 0
  mounts : MountId → BoxMount := fun _ => {}
  nextMount : MountId := 0
  devices : List Device := []
  /-- The junctions, by their folded paths. -/
  junctions : List WChar → Option (List WChar) := fun _ => none
  threads : T → Thread := fun _ => {}
  log : List Event := []

/-- What a step reads from outside. -/
structure Answers where
  /-- `ImDiskGetDeviceListEx` succeeds. -/
  listed : Bool := true
  /-- The device of `MountImDisk`, if it succeeds. -/
  made : Option (List WChar) := none
  /-- The driver answers, and the certificate has what the kind of the disk needs. -/
  certified : Bool := true
  ramDiskSizeKb : Nat := 0
  /-- `OpenOrCreateNtFolder` opens the target of the junction. -/
  folder : Bool := true
  /-- The folder of a junction is opened, its reparse point is deleted, and set. -/
  opened : Bool := true
  deleted : Bool := true
  set : Bool := true
  /-- `TryUnmountImDisk` succeeds, or at least its last emergency attempt. -/
  unmounts : Bool := true
  emergency : Bool := false
deriving DecidableEq

inductive Action
  | call (c : Call)
  /-- The thread goes on. -/
  | go (a : Answers)
  /-- A device vanishes without the service. -/
  | lose (device : List WChar)
deriving DecidableEq

def SBIEDISK_LABEL : List WChar := wide "Sandbox".toList
def RAMDISK_IMAGE : List WChar := wide "RamDisk".toList
def IMDISK_DEVICE_LEN : Nat := 14

/-- `\`. -/
def backslash : WChar := 92

def Env.key (env : Env) (path : List WChar) : List WChar := path.map env.towlower

def Env.getImageFileName (env : Env) (file_root : List WChar) : List WChar :=
  env.translateNtToDosPath file_root ++ wide ".box".toList

def getProxyName (imageFile : List WChar) : List WChar :=
  if imageFile = [] then RAMDISK_IMAGE
  else imageFile.map fun c => if c = backslash then 47 else c

/-- The target of the junction of a box.  The RAM disk is shared, so the folder names differ. -/
def junctionTarget (ntPath boxname : List WChar) (useRamDisk : Bool) : List WChar :=
  ntPath ++ [backslash] ++ (if useRamDisk then boxname else SBIEDISK_LABEL)

/-- The device that `FindImDisk` finds in the list. -/
def Env.findDevice (env : Env) (devices : List Device) (imageFile : List WChar) : Option Device :=
  devices.find? fun d => Text.sameNoCase env.towlower d.proxyName (getProxyName imageFile)

namespace State

variable {T : Type}

/-! ### Parts of a step -/

def note (e : Event) (s : State T) : State T := { s with log := e :: s.log }

def onDevice (s : State T) (device : List WChar) (m : Option MountId) : Bool :=
  match m with
  | none => false
  | some m => (s.mounts m).ntPath == device

def hasDevice (s : State T) (device : List WChar) : Bool :=
  s.devices.any fun d => d.ntPath == device

def someInUse (s : State T) (p : BoxRoot → Bool) : Bool :=
  s.m_RootMap.values.any fun r => (s.roots r).inUse && p (s.roots r)

def setRoot (s : State T) (r : RootId) (root : BoxRoot) : State T :=
  { s with roots := Function.update s.roots r root }

def setMount (s : State T) (m : MountId) (mount : BoxMount) : State T :=
  { s with mounts := Function.update s.mounts m mount }

/-- `std::make_shared<BOX_MOUNT>` with its device. -/
def newMount (s : State T) (device : List WChar) : MountId × State T :=
  (s.nextMount, { s with
    mounts := Function.update s.mounts s.nextMount { ntPath := device }
    nextMount := s.nextMount + 1 })

def findImDisk (env : Env) (imageFile : List WChar) (a : Answers) (s : State T) :
    Option MountId × State T :=
  if a.listed then
    match env.findDevice s.devices imageFile with
    | none => (none, s)
    | some d => (some (s.newMount d.ntPath).1, (s.newMount d.ntPath).2)
  else (none, s)

/-- ImDisk gives a number to the new device that no device has. -/
def mountImDisk (imageFile : List WChar) (a : Answers) (s : State T) : Option MountId × State T :=
  match a.made with
  | none => (none, s)
  | some device =>
    if device = [] ∨ s.hasDevice device then (none, s)
    else
      let d : Device := ⟨device, getProxyName imageFile⟩
      let s := { s with devices := s.devices ++ [d] }
      (some (s.newMount device).1, (s.newMount device).2)

/-- `UnmountImDisk`, with its result.  `used` is for the log. -/
def unmountImDisk (device : List WChar) (used : Bool) (a : Answers) (s : State T) :
    Bool × State T :=
  let isImDisk := decide (IMDISK_DEVICE_LEN < device.length)
  let removed := { s with devices := s.devices.filter fun d => d.ntPath != device }
  let inUse := used || s.someInUse fun root => s.onDevice device root.mount
  let s' := if isImDisk && (a.unmounts || a.emergency) && s.hasDevice device then
      removed.note (.removedDevice inUse)
    else s
  (isImDisk && a.unmounts, s')

/-- The result is `errlvl`. -/
def createJunction (env : Env) (target file_root : List WChar) (a : Answers) (s : State T) :
    Nat × State T :=
  if !a.opened then (0x33, s)
  else
    let link := env.key file_root
    let inUse := s.someInUse fun root => env.key root.path == link
    match s.junctions link with
    | none =>
      if a.set then (0, { s with junctions := Function.update s.junctions link (some target) })
      else (0x44, s)
    | some old =>
      if Text.sameNoCase env.towlower old target then (0, s)
      else if !a.deleted then (0x55, s)
      else
        let s := s.note (.removedJunction inUse)
        if a.set then (0, { s with junctions := Function.update s.junctions link (some target) })
        else (0x44, { s with junctions := Function.update s.junctions link none })

def removeJunction (env : Env) (path : List WChar) (used : Bool) (a : Answers) (s : State T) :
    State T :=
  let link := env.key path
  let inUse := used || s.someInUse fun root => env.key root.path == link
  if a.opened && (s.junctions link).isSome then
    { s with junctions := Function.update s.junctions link none }.note (.removedJunction inUse)
  else s

variable [DecidableEq T]

def enter (t : T) (s : State T) : Option (State T) :=
  (CriticalSection.enter t s.m_CritSec).map fun cs => { s with m_CritSec := cs }

def leave (t : T) (s : State T) : State T :=
  { s with m_CritSec := CriticalSection.leave t s.m_CritSec }.note
    (.left (CriticalSection.held s.m_CritSec t))

def goto (t : T) (place : Place) (s : State T) : State T :=
  { s with threads := Function.update s.threads t { s.threads t with place := place } }

def ret (t : T) (s : State T) : State T :=
  (s.goto t .idle).note (.returned (s.threads t).base (CriticalSection.held s.m_CritSec t))

def nullMount (t : T) (s : State T) : State T := (s.goto t .dead).note (.usedMount none)

/-! ### `GetBoxRootLocked` -/

def gotRoot (t : T) (pRoot : Option RootId) (s : State T) : State T :=
  s.note (.gotRoot pRoot (s.threads t).base (CriticalSection.held s.m_CritSec t))

def gotNone (t : T) (caller : Caller) (s : State T) : State T :=
  match caller with
  | .mountHandler .. => ((s.gotRoot t none).goto t .dead).note (.usedRoot false)
  | _ => (s.gotRoot t none).ret t

def unmounting (s : State T) (r : RootId) : Bool :=
  match (s.roots r).mount with
  | none => false
  | some m => (s.mounts m).unmounting

/-- `std::make_shared<BOX_ROOT>`, put into the map. -/
def addRoot (reg_root : List WChar) (s : State T) : State T :=
  { s with
    m_RootMap := s.m_RootMap.insert reg_root s.nextRoot
    roots := Function.update s.roots s.nextRoot {}
    nextRoot := s.nextRoot + 1 }

/-- One turn of the loop, in the lock. -/
def getBoxRootLocked (t : T) (caller : Caller) (reg_root : List WChar) (mayRetry : Nat)
    (s : State T) : State T :=
  match s.m_RootMap.value reg_root with
  | none =>
    if caller.canAdd then
      let pRoot := s.nextRoot
      ((s.addRoot reg_root).goto t (.gotBoxRoot caller reg_root pRoot)).gotRoot t (some pRoot)
    else (s.leave t).gotNone t caller
  | some pRoot =>
    if s.unmounting pRoot then
      let s := s.leave t
      if 0 < mayRetry - 1 then s.goto t (.getBoxRoot caller reg_root (mayRetry - 1) (some pRoot))
      else (s.goto t (.gotBoxRoot caller reg_root pRoot)).gotRoot t (some pRoot)
    else (s.goto t (.gotBoxRoot caller reg_root pRoot)).gotRoot t (some pRoot)

/-! ### `UnmountImDiskLocked` and `ReleaseBoxRoot` -/

/-- The part before the lock is left. -/
def unmountImDiskLocked (t : T) (r : RootId) (m : MountId) (pRoot : Option RootId) (used : Bool)
    (s : State T) : State T :=
  let device := (s.mounts m).ntPath
  ((s.setMount m { s.mounts m with unmounting := true }).leave t).goto t
    (.unmount device r pRoot used)

def erase (reg_root : List WChar) (s : State T) : State T :=
  { s with m_RootMap := s.m_RootMap.filter fun k => k != reg_root }

def releaseBoxRoot (env : Env) (t : T) (reg_root : List WChar) (force : Bool)
    (pRoot : Option RootId) (a : Answers) (s : State T) : State T :=
  match s.m_RootMap.value reg_root with
  | none => (s.leave t).ret t
  | some r =>
    -- who fails with a root ends a use that is not its own
    let used := (s.roots r).inUse && pRoot.isSome
    let s := s.setRoot r { s.roots r with inUse := false }
    match (s.roots r).mount with
    | none => ((s.erase reg_root).leave t).ret t
    | some m =>
      if force || (s.roots r).autoUnmount then
        let s := s.removeJunction env (s.roots r).path used a
        if some m = s.m_RamDisk then ((s.erase reg_root).leave t).ret t
        else s.unmountImDiskLocked t r m pRoot used
      else (s.leave t).ret t

def alive [Fintype T] (s : State T) (r : RootId) : Bool :=
  s.m_RootMap.values.contains r || decide (∃ t, (s.threads t).place.holds = some r)

/-- `I->second->Mount == pToUnMount`, for the first such root. -/
def withMount (s : State T) (m : Option MountId) : Option (List WChar) :=
  (s.m_RootMap.entries.find? fun e => (s.roots e.2).mount == m).map Prod.fst

def stale (s : State T) (device : List WChar) : Bool :=
  !s.hasDevice device &&
    ((s.m_RootMap.values.any fun r => s.onDevice device (s.roots r).mount) ||
      s.onDevice device s.m_RamDisk)

/-- The part of `UnmountImDiskLocked` after the lock is entered again, and its caller's. -/
def unmountDone [Fintype T] (t : T) (device : List WChar) (r : RootId) (ok : Bool) (s : State T) :
    State T :=
  match s.m_RootMap.entries with
  | [] => (s.leave t).ret t
  | _ :: _ =>
    if s.alive r then
      let s := s.note (.usedRoot true)
      match s.withMount (s.roots r).mount with
      | none => (s.leave t).ret t
      | some reg_root =>
        if ok then
          let s := s.erase reg_root
          ((s.note (.unmountDone (s.stale device))).leave t).ret t
        else
          match (s.roots r).mount with
          | none => s.nullMount t
          | some m => ((s.setMount m { s.mounts m with unmounting := false }).leave t).ret t
    else (s.goto t .dead).note (.usedRoot false)

/-! ### `AcquireBoxRoot` -/

/-- The device of a mount has to be there. -/
def checkMount (m : Option MountId) (s : State T) : State T :=
  match m with
  | none => s
  | some m =>
    if (s.mounts m).ntPath ≠ [] ∧ ¬ s.hasDevice (s.mounts m).ntPath then
      s.setMount m { s.mounts m with ntPath := [] }
    else s

def noDisk (s : State T) (m : Option MountId) : Bool := m.isNone || s.onDevice [] m

/-- The RAM disk is there, is found or is mounted. -/
def provideRamDisk (env : Env) (a : Answers) (s : State T) : State T :=
  let s := if s.noDisk s.m_RamDisk then
      { (s.findImDisk env [] a).2 with m_RamDisk := (s.findImDisk env [] a).1 }
    else s
  if s.m_RamDisk.isNone ∧ 100 * 1024 ≤ a.ramDiskSizeKb then
    { (s.mountImDisk [] a).2 with m_RamDisk := (s.mountImDisk [] a).1 }
  else s

/-- The image is found or is mounted. -/
def provideImage (env : Env) (imageFile : List WChar) (a : Answers) (s : State T) :
    Option MountId × State T :=
  match s.findImDisk env imageFile a with
  | (some m, s) => (some m, s)
  | (none, s) => s.mountImDisk imageFile a

def provideDisk (env : Env) (file_root : List WChar) (useRamDisk : Bool) (a : Answers)
    (s : State T) : Option MountId × State T :=
  if useRamDisk then ((s.provideRamDisk env a).m_RamDisk, s.provideRamDisk env a)
  else s.provideImage env (env.getImageFileName file_root) a

/-- Find or create a new mount when needed.  The result is `errlvl`. -/
def provideMount (env : Env) (r : RootId) (file_root : List WChar) (useRamDisk : Bool)
    (a : Answers) (s : State T) : Nat × State T :=
  if !a.certified then (0x66, s)
  else if s.noDisk (s.roots r).mount then
    let p := s.provideDisk env file_root useRamDisk a
    let s := p.2.setRoot r { p.2.roots r with mount := p.1 }
    if s.noDisk p.1 then (0x11, s)
    else (0, s.setRoot r { s.roots r with path := file_root })
  else (0, s)

/-- From the return of `GetBoxRootLocked` to `LeaveCriticalSection`, and on to the cleanup. -/
def acquireBoxRoot (env : Env) (t : T) (boxname reg_root file_root : List WChar)
    (useRamDisk useFileImage : Bool) (r : RootId) (a : Answers) (s : State T) : State T :=
  if !useRamDisk && !useFileImage then (s.leave t).goto t (.release reg_root true (some r))
  else
    let s := if (s.roots r).inUse then s
      else s.checkMount (if useRamDisk then s.m_RamDisk else (s.roots r).mount)
    let errlvl := (s.provideMount env r file_root useRamDisk a).1
    let s := (s.provideMount env r file_root useRamDisk a).2
    if errlvl = 0 ∧ (s.roots r).inUse = false then
      match (s.roots r).mount with
      | none => s.nullMount t
      | some m =>
        let target := junctionTarget (s.mounts m).ntPath boxname useRamDisk
        let j := if a.folder then s.createJunction env target file_root a else (0x12, s)
        if j.1 = 0 then (j.2.leave t).ret t
        else (j.2.leave t).goto t (.release reg_root true (some r))
    else if errlvl = 0 then (s.leave t).ret t
    else (s.leave t).goto t (.release reg_root true (some r))

/-! ### The handlers -/

/-- A caller of `GetBoxRootLocked` goes on with the root. -/
def goOn (env : Env) (t : T) (caller : Caller) (reg_root : List WChar) (r : RootId) (a : Answers)
    (s : State T) : State T :=
  match caller with
  | .mountHandler pMount file_root auto_unmount =>
    let root := { s.roots r with
      autoUnmount := auto_unmount, mount := some pMount, path := file_root }
    let target := (s.mounts pMount).ntPath ++
      (if (s.mounts pMount).ntPath.getLast? = some backslash then [] else [backslash]) ++
      SBIEDISK_LABEL
    ((s.setRoot r root).leave t).goto t (.mountJunction reg_root file_root target r)
  | .unmountHandler =>
    if (s.roots r).inUse then (s.leave t).ret t
    else
      let s := s.removeJunction env (s.roots r).path false a
      match (s.roots r).mount with
      | none => s.nullMount t
      | some m => s.unmountImDiskLocked t r m (some r) false
  | .queryHandler =>
    match (s.roots r).mount with
    | none => s.ret t
    | some _ => (s.leave t).ret t
  | .acquireBoxRoot boxname file_root useRamDisk useFileImage =>
    s.acquireBoxRoot env t boxname reg_root file_root useRamDisk useFileImage r a

def begin (t : T) (place : Place) (s : State T) : State T :=
  let thread : Thread := ⟨place, CriticalSection.held s.m_CritSec t⟩
  { s with threads := Function.update s.threads t thread }

/-- `int mayRetry = 20 * 10`. -/
def mayRetry : Nat := 20 * 10

def call (t : T) (c : Call) (s : State T) : State T :=
  match c with
  | .createHandler file_root => s.begin t (.createNew file_root)
  | .mountHandler reg_root file_root auto_unmount =>
    s.begin t (.mountFind reg_root file_root auto_unmount)
  | .unmountHandler reg_root => s.begin t (.getBoxRoot .unmountHandler reg_root mayRetry none)
  | .enumHandler => s.begin t .enumerate
  | .queryHandler reg_root =>
    if reg_root ≠ [] then s.begin t (.getBoxRoot .queryHandler reg_root mayRetry none)
    else if s.m_RamDisk.isSome then s.begin t .queryRamDisk
    else (s.begin t .idle).ret t
  | .updateHandler => (s.begin t .idle).ret t
  | .acquireBoxRoot boxname reg_root file_root useRamDisk useFileImage =>
    s.begin t (.getBoxRoot (.acquireBoxRoot boxname file_root useRamDisk useFileImage) reg_root
      mayRetry none)
  | .lockBoxRoot reg_root => s.begin t (.lock reg_root)
  | .releaseBoxRoot reg_root force => s.begin t (.release reg_root force none)

/-- `MountHandler` has a mount, and asks for the root. -/
def mounted (t : T) (reg_root file_root : List WChar) (auto_unmount : Bool) (m : MountId)
    (s : State T) : State T :=
  s.goto t (.getBoxRoot (.mountHandler m file_root auto_unmount) reg_root mayRetry none)

def queryRamDisk (t : T) (s : State T) : State T :=
  match s.m_RamDisk with
  | none => s.ret t
  | some _ => (s.leave t).ret t

def lockBoxRoot (t : T) (reg_root : List WChar) (s : State T) : State T :=
  match s.m_RootMap.value reg_root with
  | none => (s.leave t).ret t
  | some r => ((s.setRoot r { s.roots r with inUse := true }).leave t).ret t

/-! ### Steps -/

/-- A thread goes on from its place; not where it has to wait for the lock. -/
def go [Fintype T] (env : Env) (t : T) (a : Answers) (s : State T) : Option (State T) :=
  match (s.threads t).place with
  | .idle | .dead => none
  | .createNew file_root =>
    if a.folder then
      match s.mountImDisk (env.getImageFileName file_root) a with
      | (none, s) => some (s.ret t)
      | (some m, s) => some (s.goto t (.createUnmount (s.mounts m).ntPath))
    else some (s.ret t)
  | .createUnmount device => some ((s.unmountImDisk device false a).2.ret t)
  | .mountFind reg_root file_root auto_unmount =>
    match s.findImDisk env (env.getImageFileName file_root) a with
    | (none, s) => some (s.goto t (.mountNew reg_root file_root auto_unmount))
    | (some m, s) => some (s.mounted t reg_root file_root auto_unmount m)
  | .mountNew reg_root file_root auto_unmount =>
    match s.mountImDisk (env.getImageFileName file_root) a with
    | (none, s) => some (s.ret t)
    | (some m, s) => some (s.mounted t reg_root file_root auto_unmount m)
  | .getBoxRoot caller reg_root mayRetry _ =>
    (s.enter t).map (getBoxRootLocked t caller reg_root mayRetry)
  | .gotBoxRoot caller reg_root r => some (s.goOn env t caller reg_root r a)
  | .queryRamDisk => (s.enter t).map (queryRamDisk t)
  | .mountJunction reg_root file_root target r =>
    let j := if a.folder then s.createJunction env target file_root a else (0x12, s)
    some (if j.1 = 0 then j.2.ret t else j.2.goto t (.release reg_root true (some r)))
  | .enumerate => (s.enter t).map fun s => (s.leave t).ret t
  | .lock reg_root => (s.enter t).map (lockBoxRoot t reg_root)
  | .release reg_root force pRoot =>
    (s.enter t).map (releaseBoxRoot env t reg_root force pRoot a)
  | .unmount device r pRoot used =>
    let u := s.unmountImDisk device used a
    some (u.2.goto t (.unmounted device r pRoot u.1))
  | .unmounted device r _ ok => (s.enter t).map (unmountDone t device r ok)

def step [Fintype T] (env : Env) (s : State T) (e : T × Action) : Option (State T) :=
  match e.2 with
  | .call c => if (s.threads e.1).place = .idle then some (s.call e.1 c) else none
  | .go a => s.go env e.1 a
  | .lose device => some { s with devices := s.devices.filter fun d => d.ntPath != device }

end State

end Sandboxie.MountManager
