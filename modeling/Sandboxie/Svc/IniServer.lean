import Sandboxie.Common.Ini

/-!
# Edits of the configuration by the service

`SbieIniServer` of `svc/sbieiniserver.cpp`: an edit goes to the cached `CIniFile`, and
`RefreshConf` saves that to `Sandboxie.ini` and lets the driver read it.

Each call to the system is told how it ends (`Env`).  How the driver reads a file is a
parameter, `readConf`; a reload that fails leaves its configuration.  The checks of a request
that come before the edit (`CheckRequest`, `IsCallerAuthorized`) are the status `check`.
-/

namespace Sandboxie.IniServer

open Ini Text

/-! ### Requests -/

def templateSettings : List WChar :=
  wide ['T', 'e', 'm', 'p', 'l', 'a', 't', 'e', 'S', 'e', 't', 't', 'i', 'n', 'g', 's']
def globalSettings : List WChar :=
  wide ['G', 'l', 'o', 'b', 'a', 'l', 'S', 'e', 't', 't', 'i', 'n', 'g', 's']
def editPassword : List WChar :=
  wide ['E', 'd', 'i', 't', 'P', 'a', 's', 's', 'w', 'o', 'r', 'd']

inductive Op
  | set
  | add
  | ins
  | del
deriving DecidableEq

/-- The new password: none, or its hash, where that could be made. -/
inductive NewPassword
  | empty
  | notHashed
  | hashed (value : List WChar)

/-- A request that can alter the configuration.  A value is missing when its length is zero. -/
inductive Request
  | template (check : Status) (varname : List WChar) (user : Option (List WChar))
      (value : Option (List WChar))
  | setPassword (check : Status) (password : NewPassword)
  | testPassword (check : Status)
  | setting (check : Status) (op : Op) (section_ name : List WChar) (value : Option (List WChar))
      (refresh : Bool)

/-- `RefreshConf` follows an edit that succeeds. -/
def Request.refreshes : Request → Bool
  | .setting _ _ _ _ _ refresh => refresh
  | _ => true

section Names

variable (towlower : WChar → WChar)

/-- `SetSetting`; the section `$` is about the registry. -/
def setSetting (ini : CIniFile) (section_ setting : List WChar) (value : Option (List WChar)) :
    Option (CIniFile × Status) :=
  if setting = [] ∧ value = none then some (ini, .success)
  else if section_ = [36] then some (ini, .success)
  else if setting = [42] ∧ value = none then some (removeSection towlower ini section_)
  else setValue towlower ini section_ setting value

def addSetting (ini : CIniFile) (section_ setting : List WChar) (value : Option (List WChar))
    (insert : Bool) : CIniFile × Status :=
  match value with
  | none => (ini, .success)
  | some v => addValue towlower ini section_ setting v insert

def delSetting (ini : CIniFile) (section_ setting : List WChar) (value : Option (List WChar)) :
    Option (CIniFile × Status) :=
  match value with
  | none => setSetting towlower ini section_ setting none
  | some v => some (removeValue towlower ini section_ setting v)

def setTemplate (ini : CIniFile) (varname : List WChar) (user value : Option (List WChar)) :
    Option (CIniFile × Status) :=
  let setting :=
    match user with
    | some name => varname ++ [46] ++ name
    | none => varname
  setSetting towlower ini templateSettings setting value

/-- `SetOrTestPassword` for a new password. -/
def setPassword (ini : CIniFile) : NewPassword → Option (CIniFile × Status)
  | .empty => setSetting towlower ini globalSettings editPassword none
  | .notHashed => some (ini, .unsuccessful)
  | .hashed value => setSetting towlower ini globalSettings editPassword (some value)

/-- What a request does to the cached file. -/
def edit (ini : CIniFile) : Request → Option (CIniFile × Status)
  | .template check varname user value =>
    if check.ok then setTemplate towlower ini varname user value else some (ini, check)
  | .setPassword check password =>
    if check.ok then setPassword towlower ini password else some (ini, check)
  | .testPassword check => some (ini, check)
  | .setting check op section_ name value _ =>
    if check.ok then
      match op with
      | .set => setSetting towlower ini section_ name value
      | .add => some (addSetting towlower ini section_ name value false)
      | .ins => some (addSetting towlower ini section_ name value true)
      | .del => delSetting towlower ini section_ name value
    else some (ini, check)

end Names

/-! ### Refreshing -/

/-- The bytes of `Sandboxie.ini`, when it is there. -/
abbrev File := Option (List Nat)

/-- How `SaveIni` ends: the file could not be opened, or something else than the whole text is in
it, or the text. -/
inductive Save
  | notOpened
  | cut (bytes : List Nat)
  | done
deriving DecidableEq

/-- How the calls of `RefreshConf` end: `GetIniPath`, `HeapAlloc`, the checks and changes of
the attributes, and the backup, which may be that of a missing file; `SaveIni`; the reload; and
`CopyFile` from the backup, with what is in the file when it fails. -/
structure Env where
  iniPath : Bool
  memory : Bool
  attributes : Bool
  backup : Bool
  save : Save
  reload : Status
  restore : Option File

variable {Conf : Type}

/-- The file, the cached `CIniFile` and the configuration of the driver. -/
structure State (Conf : Type) where
  file : File
  cache : CIniFile
  driver : Conf

section Refresh

variable (utf8 : List WChar → List Nat) (readConf : File → Conf → Conf)

/-- The file after `SaveIni`. -/
def saveIni (ini : CIniFile) (file : File) : Save → File
  | .notOpened => file
  | .cut bytes => some bytes
  | .done => some (ini.bytes utf8)

/-- `RefreshConf`.  The status of `SaveIni` is only logged. -/
def refreshConf (s : State Conf) (env : Env) : State Conf × Status :=
  if !env.iniPath || !env.memory then (s, .insufficientResources)
  else if !env.attributes || !env.backup then (s, .unsuccessful)
  else
    let saved := saveIni utf8 s.cache s.file env.save
    if env.reload.ok then ({ s with file := saved, driver := readConf saved s.driver }, env.reload)
    else
      match s.file, env.restore with
      -- there is no backup of a missing file
      | none, _ => ({ s with file := saved }, env.reload)
      | some content, none => ({ s with file := some content }, env.reload)
      | some _, some left => ({ s with file := left }, env.reload)

/-- `Handler2` for a request that can alter the configuration. -/
def handler (towlower : WChar → WChar) (s : State Conf) (req : Request) (env : Env) :
    Option (State Conf × Status) :=
  match edit towlower s.cache req with
  | none => none
  | some (ini, status) =>
    if status.ok && req.refreshes then
      some (refreshConf utf8 readConf { s with cache := ini } env)
    else some ({ s with cache := ini }, status)

/-! ### All or nothing -/

/-- When the answer is an error nothing has changed, and when it is not, the three reflect the
edit. -/
def AllOrNothing (ini : CIniFile) (s s' : State Conf) (status : Status) : Prop :=
  if status.ok then
    s'.cache = ini ∧ s'.file = some (ini.bytes utf8) ∧
      s'.driver = readConf (some (ini.bytes utf8)) s.driver
  else s' = s

/-- Everything up to `SaveIni` succeeds. -/
def Env.prepared (env : Env) : Bool := env.iniPath && env.memory && env.attributes && env.backup

/-- The file is put back: from the backup, or it was missing and was not made. -/
def Env.PutsBack (env : Env) : File → Prop
  | none => env.save = .notOpened
  | some content => env.restore = none ∨ env.restore = some (some content)

end Refresh

/-- The section, the setting and the value of a request that comes to `SetSetting`. -/
def Request.sets : Request → Option (List WChar × List WChar × Option (List WChar))
  | .template check varname user value =>
    if check.ok then
      some (templateSettings, (match user with
        | some name => varname ++ [46] ++ name
        | none => varname), value)
    else none
  | .setting check .set section_ name value _ =>
    if check.ok then some (section_, name, value) else none
  | _ => none

/-- The request replaces a section that the cached file does not have. -/
def Request.ReplacesMissing (towlower : WChar → WChar) (ini : CIniFile) (req : Request) : Prop :=
  ∃ section_ v, req.sets = some (section_, [], some v) ∧
    ini.sections.any (Section.isNamed towlower section_) = false

variable {towlower : WChar → WChar}

variable {ini : CIniFile} {section_ : List WChar}

theorem getSection_eq_iff :
    getSection towlower ini section_ = ini ↔
      ini.sections.any (Section.isNamed towlower section_) = true := by
  unfold getSection
  split
  · rename_i hany
    exact ⟨fun _ => hany, fun _ => rfl⟩
  · rename_i hany
    refine ⟨fun heq => ?_, fun h => absurd h hany⟩
    have hlen := congrArg (fun i => i.sections.length) heq
    rw [List.length_append, List.length_singleton] at hlen
    omega

theorem setSetting_refused {ini' : CIniFile} {setting : List WChar}
    {value : Option (List WChar)} {status : Status}
    (h : setSetting towlower ini section_ setting value = some (ini', status))
    (hrefused : status.ok = false) :
    ini' = ini ↔ ¬ (setting = [] ∧ value.isSome = true ∧
      ini.sections.any (Section.isNamed towlower section_) = false) := by
  have hsuccess : ∀ {a : CIniFile}, some (a, Status.success) = some (ini', status) → False := by
    intro a ha
    rw [← (Prod.mk.inj (Option.some.inj ha)).2] at hrefused
    cases hrefused
  unfold setSetting at h
  split at h
  · exact (hsuccess h).elim
  split at h
  · exact (hsuccess h).elim
  · split at h
    · exact (hsuccess h).elim
    · unfold setValue at h
      split at h
      · rename_i hcrlf
        obtain ⟨rfl, _⟩ := Prod.mk.inj (Option.some.inj h)
        refine ⟨fun _ hempty => ?_, fun _ => rfl⟩
        rw [hempty.1] at hcrlf
        cases hcrlf
      · dsimp only at h
        split at h
        · exact (hsuccess h).elim
        split at h
        · rename_i hempty
          split at h
          · cases h
          · exact (hsuccess h).elim
          · obtain ⟨rfl, _⟩ := Prod.mk.inj (Option.some.inj h)
            rw [getSection_eq_iff, not_and, not_and]
            refine ⟨fun hany _ _ hnone => ?_, fun hall => ?_⟩
            · rw [hany] at hnone
              cases hnone
            · exact Bool.not_eq_false _ |>.mp (hall hempty rfl)
        · exact (hsuccess h).elim

theorem addValue_refused {setting value : List WChar} {insert : Bool}
    (hrefused : (addValue towlower ini section_ setting value insert).2.ok = false) :
    (addValue towlower ini section_ setting value insert).1 = ini := by
  unfold addValue at hrefused ⊢
  split
  · rfl
  · rename_i hcrlf
    rw [if_neg hcrlf] at hrefused
    cases hrefused

/-- **A refused edit** leaves the cached file, but for a section that was to be replaced and is
not there. -/
theorem edit_refused {ini' : CIniFile} {req : Request} {status : Status}
    (h : edit towlower ini req = some (ini', status)) (hrefused : status.ok = false) :
    ini' = ini ↔ ¬ req.ReplacesMissing towlower ini := by
  have hnone : req.sets = none → ini' = ini →
    (ini' = ini ↔ ¬ req.ReplacesMissing towlower ini) := by
    refine fun hsets heq => ⟨fun _ hmissing => ?_, fun _ => heq⟩
    obtain ⟨_, _, hsome, _⟩ := hmissing
    rw [hsets] at hsome
    cases hsome
  have hset : ∀ {section_ setting : List WChar} {value : Option (List WChar)},
      req.sets = some (section_, setting, value) →
      setSetting towlower ini section_ setting value = some (ini', status) →
      (ini' = ini ↔ ¬ req.ReplacesMissing towlower ini) := by
    intro section_ setting value hsets hsetting
    rw [setSetting_refused hsetting hrefused]
    refine not_congr ⟨fun hmissing => ?_, fun hmissing => ?_⟩
    · obtain ⟨rfl, hvalue, hany⟩ := hmissing
      obtain ⟨v, rfl⟩ := Option.isSome_iff_exists.mp hvalue
      exact ⟨section_, v, hsets, hany⟩
    · obtain ⟨_, v, hsome, hany⟩ := hmissing
      rw [hsets] at hsome
      obtain ⟨rfl, hrest⟩ := Prod.mk.inj (Option.some.inj hsome)
      cases hrest
      exact ⟨rfl, rfl, hany⟩
  -- without a value nothing is replaced
  have hkept : ∀ {section_ setting : List WChar},
      setSetting towlower ini section_ setting none = some (ini', status) → ini' = ini :=
    fun hsetting => (setSetting_refused hsetting hrefused).mpr fun hvalue => by cases hvalue.2.1
  cases req with
  | template check varname user value =>
    by_cases hcheck : check.ok = true
    · rw [edit, if_pos hcheck] at h
      exact hset (if_pos hcheck) h
    · rw [edit, if_neg hcheck] at h
      exact hnone (if_neg hcheck) (Prod.mk.inj (Option.some.inj h)).1.symm
  | setPassword check password =>
    refine hnone rfl ?_
    by_cases hcheck : check.ok = true
    · rw [edit, if_pos hcheck] at h
      cases password with
      | empty => exact hkept h
      | notHashed => exact (Prod.mk.inj (Option.some.inj h)).1.symm
      | hashed v => exact (setSetting_refused h hrefused).mpr fun hempty => by cases hempty.1
    · rw [edit, if_neg hcheck] at h
      exact (Prod.mk.inj (Option.some.inj h)).1.symm
  | testPassword check => exact hnone rfl (Prod.mk.inj (Option.some.inj h)).1.symm
  | setting check op section_ name value refresh =>
    unfold edit at h
    by_cases hcheck : check.ok = true
    · dsimp only at h
      rw [if_pos hcheck] at h
      have hadd : ∀ {insert : Bool},
          some (addSetting towlower ini section_ name value insert) = some (ini', status) →
          ini' = ini := by
        intro insert hadd
        cases value with
        | none => exact (Prod.mk.inj (Option.some.inj hadd)).1.symm
        | some v =>
          have hpair : addValue towlower ini section_ name v insert = (ini', status) :=
            Option.some.inj hadd
          have hvalue : (addValue towlower ini section_ name v insert).1 = ini := by
            refine addValue_refused ?_
            rw [hpair]
            exact hrefused
          rw [hpair] at hvalue
          exact hvalue
      cases op with
      | set => exact hset (if_pos hcheck) h
      | add => exact hnone rfl (hadd h)
      | ins => exact hnone rfl (hadd h)
      | del =>
        refine hnone rfl ?_
        cases value with
        | none => exact hkept h
        | some v =>
          obtain ⟨_, rfl⟩ := Prod.mk.inj (Option.some.inj h)
          cases hrefused
    · dsimp only at h
      rw [if_neg hcheck] at h
      have heq := (Prod.mk.inj (Option.some.inj h)).1.symm
      cases op with
      | set => exact hnone (if_neg hcheck) heq
      | add => exact hnone rfl heq
      | ins => exact hnone rfl heq
      | del => exact hnone rfl heq

/-! ### When it is all or nothing -/

variable {utf8 : List WChar → List Nat} {readConf : File → Conf → Conf}

theorem refreshConf_of_not_prepared (s : State Conf) {env : Env} (h : env.prepared = false) :
    (refreshConf utf8 readConf s env).1 = s ∧
      (refreshConf utf8 readConf s env).2.ok = false := by
  unfold refreshConf
  split
  · exact ⟨rfl, rfl⟩
  rename_i hfirst
  split
  · exact ⟨rfl, rfl⟩
  · rename_i hsecond
    obtain ⟨⟨hpath, hmemory⟩, hattributes, hbackup⟩ :
        (env.iniPath = true ∧ env.memory = true) ∧ env.attributes = true ∧ env.backup = true := by
      simpa using And.intro hfirst hsecond
    rw [Env.prepared, hpath, hmemory, hattributes, hbackup] at h
    cases h

theorem refreshConf_of_prepared (s : State Conf) {env : Env} (h : env.prepared = true) :
    refreshConf utf8 readConf s env =
      if env.reload.ok then
        ({ s with
          file := saveIni utf8 s.cache s.file env.save
          driver := readConf (saveIni utf8 s.cache s.file env.save) s.driver }, env.reload)
      else
        match s.file, env.restore with
        | none, _ => ({ s with file := saveIni utf8 s.cache s.file env.save }, env.reload)
        | some content, none => ({ s with file := some content }, env.reload)
        | some _, some left => ({ s with file := left }, env.reload) := by
  simp only [Env.prepared, Bool.and_eq_true] at h
  obtain ⟨⟨⟨hpath, hmemory⟩, hattributes⟩, hbackup⟩ := h
  unfold refreshConf
  rw [hpath, hmemory, hattributes, hbackup]
  rfl

variable (towlower utf8) in
/-- What a request needs to be all or nothing: `ini` and `status` are what its edit gives. -/
def Meets (s : State Conf) (req : Request) (env : Env) (ini : CIniFile) (status : Status) : Prop :=
  if status.ok = false then ¬ req.ReplacesMissing towlower s.cache
  else if env.prepared = false then ini = s.cache
  else if env.reload.ok then saveIni utf8 ini s.file env.save = some (ini.bytes utf8)
  else ini = s.cache ∧ env.PutsBack s.file

theorem state_eq_iff {s : State Conf} {file : File} :
    { s with file := file, cache := ini } = s ↔ ini = s.cache ∧ file = s.file := by
  obtain ⟨file', cache, driver⟩ := s
  refine ⟨fun h => ?_, fun h => ?_⟩
  · injection h with hfile hcache
    exact ⟨hcache, hfile⟩
  · obtain ⟨rfl, rfl⟩ := h
    rfl

/-- **All or nothing**: a request that refreshes is exactly when its edit is refused and
replaces no section that is missing; or it changes nothing and the refresh ends before the
save, or the reload fails and the file is put back; or the reload succeeds and the file has the
text of the edited one. -/
theorem refreshConf_iff {s s' : State Conf} {req : Request} {env : Env} {ini : CIniFile}
    {status answer : Status} (hrefresh : req.refreshes = true)
    (hedit : edit towlower s.cache req = some (ini, status))
    (h : handler utf8 readConf towlower s req env = some (s', answer)) :
    AllOrNothing utf8 readConf ini s s' answer ↔ Meets towlower utf8 s req env ini status := by
  unfold handler at h
  rw [hedit] at h
  dsimp only at h
  unfold AllOrNothing Meets
  by_cases hstatus : status.ok = false
  · -- the edit is refused
    rw [hstatus, Bool.false_and, if_neg (by decide)] at h
    cases h
    rw [if_pos hstatus, hstatus, if_neg (by decide), ← edit_refused hedit hstatus]
    exact state_eq_iff.trans (and_iff_left rfl)
  · rw [Bool.not_eq_false _ |>.mp hstatus, hrefresh, Bool.true_and, if_pos rfl] at h
    have hpair := Option.some.inj h
    rw [if_neg hstatus]
    by_cases hprepared : env.prepared = false
    · -- the refresh ends before the save
      obtain ⟨hstate, hfailed⟩ := @refreshConf_of_not_prepared _ utf8 readConf
        { s with cache := ini } env hprepared
      rw [hpair] at hstate hfailed
      dsimp only at hstate hfailed
      rw [if_pos hprepared, hfailed, if_neg (by decide), hstate]
      exact state_eq_iff.trans (and_iff_left rfl)
    · rw [refreshConf_of_prepared _ (Bool.not_eq_false _ |>.mp hprepared)] at hpair
      rw [if_neg hprepared]
      by_cases hreload : env.reload.ok = true
      · rw [if_pos hreload] at hpair
        cases hpair
        rw [if_pos hreload, if_pos hreload]
        refine ⟨fun hall => hall.2.1, fun hsaved => ⟨rfl, hsaved, ?_⟩⟩
        exact congrArg (fun file => readConf file s.driver) hsaved
      · rw [if_neg hreload] at hpair
        rw [if_neg hreload]
        -- the reload fails
        cases hfile : s.file with
        | none =>
          rw [hfile] at hpair
          dsimp only at hpair
          cases hpair
          rw [if_neg hreload]
          refine state_eq_iff.trans (and_congr_right fun _ => ?_)
          rw [hfile]
          show saveIni utf8 ini none env.save = none ↔ env.save = .notOpened
          cases env.save with
          | notOpened => exact ⟨fun _ => rfl, fun _ => rfl⟩
          | cut bytes => exact ⟨fun heq => (by cases heq), fun heq => (by cases heq)⟩
          | done => exact ⟨fun heq => (by cases heq), fun heq => (by cases heq)⟩
        | some content =>
          rw [hfile] at hpair
          cases hrestore : env.restore with
          | none =>
            rw [hrestore] at hpair
            dsimp only at hpair
            cases hpair
            rw [if_neg hreload]
            refine state_eq_iff.trans (and_congr_right fun _ => ?_)
            exact ⟨fun _ => Or.inl hrestore, fun _ => hfile.symm⟩
          | some left =>
            rw [hrestore] at hpair
            dsimp only at hpair
            cases hpair
            rw [if_neg hreload]
            refine state_eq_iff.trans (and_congr_right fun _ => ?_)
            rw [hfile, Env.PutsBack, hrestore]
            refine ⟨fun heq => Or.inr (congrArg some heq), fun hor => ?_⟩
            exact Option.some.inj (hor.resolve_left fun heq => by cases heq)

/-! ### A save that fails -/

def nothing : State File := ⟨none, ⟨0, []⟩, none⟩

/-- `Foo=1` is set in `Box`. -/
def setFoo : Request :=
  .setting .success .set (wide ['B', 'o', 'x']) (wide ['F', 'o', 'o']) (some (wide ['1'])) true

def allSucceed (save : Save) : Env := ⟨true, true, true, true, save, .success, none⟩

def boxFoo : CIniFile := ⟨0, [⟨wide ['B', 'o', 'x'], [⟨wide ['F', 'o', 'o'], wide ['1']⟩]⟩]⟩

theorem setFoo_edit : edit asciiLower nothing.cache setFoo = some (boxFoo, .success) := by decide

/-- When all goes well the three reflect the edit. -/
theorem refreshConf_done :
    AllOrNothing id (fun file _ => file) boxFoo nothing
      ⟨some (boxFoo.bytes id), boxFoo, some (boxFoo.bytes id)⟩ .success := by
  have hhandler : handler id (fun file _ => file) asciiLower nothing setFoo (allSucceed .done) =
      some (⟨some (boxFoo.bytes id), boxFoo, some (boxFoo.bytes id)⟩, .success) := rfl
  exact (refreshConf_iff rfl setFoo_edit hhandler).mpr rfl

/-- The save fails, and the answer is a success. -/
theorem refreshConf_not_saved :
    ¬ ∀ (s s' : State File) (req : Request) (env : Env) (ini : CIniFile) (status answer : Status),
      req.refreshes = true → edit asciiLower s.cache req = some (ini, status) →
      handler id (fun file _ => file) asciiLower s req env = some (s', answer) →
      AllOrNothing id (fun file _ => file) ini s s' answer := by
  intro h
  have hall := h nothing ⟨none, boxFoo, none⟩ setFoo (allSucceed .notOpened) boxFoo .success
    .success rfl setFoo_edit rfl
  cases hall.2.1

end Sandboxie.IniServer
