import Mathlib.Data.List.TakeWhile
import Sandboxie.Svc.ProcessServer

/-!
# Programs that break out

What the configuration says of a program is about the file that Windows runs, while
`RunSandboxedHandler` looks at the text of the command line.  A program leaves the box as it is
configured exactly where the text is judged as the resolved path is.
-/

namespace Sandboxie.ProcessServer

open Bytes Image ProcessConf Config List

variable (w : Machine)

def Machine.callerBox : List WChar := w.boxOf w.callerPid

/-! ### What is configured -/

def Listed (boxname setting program : List WChar) : Prop :=
  ∃ value ∈ w.values boxname setting, Text.sameNoCase w.towlower value program = true

def InFolder (boxname setting folder : List WChar) : Prop :=
  ∃ pat ∈ initPatternList w boxname setting,
    patternMatch (dllSide (box w boxname) w.hexMatch) pat (folder.map w.towlower) = true

def LiesInBox (path : List WChar) : Prop :=
  ∃ file ∈ w.finalPath path, ∃ root ∈ w.sandboxPath, ∃ rest,
    file.map w.towlower = (root ++ backslash :: rest).map w.towlower

def Allowed (path : List WChar) : Prop :=
  ∃ folder program, splitProgram path = some (folder, program) ∧
    (Listed w w.callerBox BreakoutProcess program ∧ ¬ LiesInBox w path ∨
      InFolder w w.callerBox BreakoutFolder folder)

/-- Another box takes the program. -/
def ForcedBy (path BoxName : List WChar) : Prop :=
  BoxName ∈ w.boxes ∧ w.enabled BoxName = true ∧
    Text.sameNoCase w.towlower w.callerBox BoxName = false ∧
    ∃ folder program, splitProgram path = some (folder, program) ∧
      (Listed w BoxName ForceProcess program ∨ InFolder w BoxName ForceFolder folder)

/-- The path is allowed to leave, and if another box takes it, `started` is such a box. -/
def LeavesAsConfigured (path : List WChar) (started : Option (List WChar)) : Prop :=
  Allowed w path ∧
    ((∃ BoxName, ForcedBy w path BoxName) → ∃ BoxName ∈ started, ForcedBy w path BoxName)

/-- What is started outside of the box of the caller is the COM server, or a program whose resolved
path leaves as it is configured. -/
def BreaksOutAsConfigured (req : Request) : Prop :=
  ∀ p ∈ (runSandboxedHandler w req).started, p.box ≠ some w.callerBox →
    ∃ cmd ∈ req.cmd, cmd = COMSRV ∨
      ∃ path ∈ applicationName cmd, LeavesAsConfigured w (w.resolve path) p.box

/-! ### The condition -/

/-- The request asks for a breakout. -/
structure Asks (req : Request) (cmd : List WChar) : Prop where
  length : Request.sizeofReq ≤ req.length
  cmd : req.cmd = some cmd
  dir : req.dir.isSome
  env : req.env.isSome
  opened : w.callerOpened = true
  session : req.siFlags &&& 0x80000000 = 0
  unboxed : req.boxname = UNBOXED

/-- The calls that start a program succeed, in a box that is named or outside. -/
structure Starts (req : Request) (cmd : List WChar) (BoxName : Option (List WChar)) : Prop where
  token : w.token (BoxName.getD w.callerBox) cmd = true
  flags : req.creationFlags &&& (2 ^ 32 - 1 - CREATE_SECURE_PROCESS) &&& allowedFlags =
    req.creationFlags &&& (2 ^ 32 - 1 - CREATE_SECURE_PROCESS)
  duplicateToken : w.duplicateToken = true
  setThreadToken : w.setThreadToken = true
  createProcess : w.createProcess cmd = true
  named : BoxName.isSome → w.setThreadToken2 = true ∧ w.startProcess = true

/-- A text that passes the tests is judged as its resolved path is. -/
def MeetsBreakout (req : Request) : Prop :=
  ∀ cmd, Asks w req cmd → ∀ path ∈ applicationName cmd, ∀ folder program,
    splitProgram path = some (folder, program) →
      breaksOut w w.callerBox path folder program = true →
      (∀ BoxName ∈ otherBox w path folder program,
        Text.sameNoCase w.towlower w.callerBox BoxName = false) →
      Starts w req cmd (otherBox w path folder program) →
        LeavesAsConfigured w (w.resolve path) (otherBox w path folder program)

/-! ### Commands -/

section Start

variable {w : Machine} {req : Request} {cmd : List WChar}

theorem not_special {path : List WChar} (h : path ∈ applicationName cmd) :
    cmd ≠ COMSRV ∧ cmd ≠ RPCSS := by
  unfold applicationName at h
  split_ifs at h with hquote
  · refine ⟨?_, ?_⟩
    · rintro rfl
      exact absurd hquote.1 (by decide)
    · rintro rfl
      exact absurd hquote.1 (by decide)
  · exact nomatch h

/-- Where a program goes that leaves the box. -/
def leaving (w : Machine) : Option (List WChar) → Target
  | none => ⟨.num 0, w.callerBox, true⟩
  | some BoxName => ⟨.boxname BoxName, BoxName, true⟩

theorem startCommand_leaving {path : List WChar} (h : path ∈ applicationName cmd)
    (other : Option (List WChar)) :
    startCommand w (leaving w other).boxNameOrModelPid cmd = some (cmd, other.isSome) := by
  obtain ⟨hcom, hrpc⟩ := not_special h
  unfold startCommand
  cases other with
  | none => exact if_pos rfl
  | some BoxName =>
    rw [if_neg (by simp [leaving]), if_neg hcom, if_neg hrpc]
    rfl

theorem started_startAt {target : Target} {p : Started} :
    p ∈ (startAt w req cmd target).started ↔ w.token target.boxname cmd = true ∧
      runSandboxedStartProcess w target.boxNameOrModelPid cmd req.creationFlags = .ok p := by
  unfold startAt
  by_cases htoken : w.token target.boxname cmd = true
  · rw [if_neg (by simp [htoken])]
    cases runSandboxedStartProcess w target.boxNameOrModelPid cmd req.creationFlags with
    | error err => exact iff_of_false (fun hp => nomatch hp) fun hp => nomatch hp.2
    | ok started =>
      cases w.dupHandles <;>
        exact ⟨fun hp => ⟨htoken, congrArg Except.ok (Option.some.inj hp)⟩,
          fun hp => congrArg some (Except.ok.inj hp.2)⟩
  · rw [if_pos (by simp [htoken])]
    exact iff_of_false (fun hp => nomatch hp) fun hp => htoken hp.1

theorem started_leaving {path : List WChar} (h : path ∈ applicationName cmd)
    {other : Option (List WChar)} {p : Started} :
    p ∈ (startAt w req cmd (leaving w other)).started ↔
      Starts w req cmd other ∧ p = ⟨cmd, other⟩ := by
  have htoken : (leaving w other).boxname = other.getD w.callerBox := by
    cases other <;> rfl
  rw [started_startAt, htoken]
  unfold runSandboxedStartProcess
  rw [startCommand_leaving h]
  dsimp only
  by_cases hflags : req.creationFlags &&& (2 ^ 32 - 1 - CREATE_SECURE_PROCESS) &&& allowedFlags =
      req.creationFlags &&& (2 ^ 32 - 1 - CREATE_SECURE_PROCESS)
  swap
  · rw [if_pos hflags]
    exact iff_of_false (fun hp => nomatch hp.2) fun hs => hflags hs.1.flags
  rw [if_neg (not_not_intro hflags)]
  by_cases hcalls : (w.duplicateToken && w.setThreadToken && w.createProcess cmd) = true
  swap
  · rw [if_pos (by simp [hcalls])]
    refine iff_of_false (fun hp => nomatch hp.2) fun hs => hcalls ?_
    rw [hs.1.duplicateToken, hs.1.setThreadToken, hs.1.createProcess]
    rfl
  rw [if_neg (by simp [hcalls])]
  obtain ⟨hcalls', hcreate⟩ := Bool.and_eq_true_iff.mp hcalls
  obtain ⟨hduplicate, hset⟩ := Bool.and_eq_true_iff.mp hcalls'
  have hstarts : w.token (other.getD w.callerBox) cmd = true →
      (other.isSome → w.setThreadToken2 = true ∧ w.startProcess = true) → Starts w req cmd other :=
    fun ht hnamed => ⟨ht, hflags, hduplicate, hset, hcreate, hnamed⟩
  cases other with
  | none =>
    refine ⟨fun hp => ⟨hstarts hp.1 (fun hsome => nomatch hsome), (Except.ok.inj hp.2).symm⟩,
      fun hp => ⟨hp.1.token, congrArg Except.ok hp.2.symm⟩⟩
  | some BoxName =>
    dsimp only [leaving, Option.isSome]
    by_cases hset2 : w.setThreadToken2 = true
    swap
    · rw [if_pos (by simp [hset2])]
      exact iff_of_false (fun hp => nomatch hp.2) fun hs => hset2 (hs.1.named rfl).1
    rw [if_neg (by simp [hset2]), if_neg (by simp)]
    by_cases hstart : w.startProcess = true
    swap
    · rw [if_neg hstart]
      exact iff_of_false (fun hp => nomatch hp.2) fun hs => hstart (hs.1.named rfl).2
    rw [if_pos hstart]
    exact ⟨fun hp => ⟨hstarts hp.1 fun _ => ⟨hset2, hstart⟩, (Except.ok.inj hp.2).symm⟩,
      fun hp => ⟨hp.1.token, congrArg Except.ok hp.2.symm⟩⟩

def staying (w : Machine) : Target :=
  { boxNameOrModelPid := .num (-w.callerPid), boxname := w.callerBox }

theorem started_staying {p : Started} (h : p ∈ (startAt w req cmd (staying w)).started) :
    p.box = some w.callerBox ∨ cmd = COMSRV := by
  by_cases hcom : cmd = COMSRV
  · exact .inr hcom
  refine .inl ?_
  have hzero : (staying w).boxNameOrModelPid ≠ .num 0 := by
    intro heq
    have hpid : (-w.callerPid : Int) = 0 := BoxNameOrModelPid.num.inj heq
    have hpos := w.callerPid_pos
    omega
  have hcommand : ∃ cmd', startCommand w (staying w).boxNameOrModelPid cmd = some (cmd', true) := by
    unfold startCommand
    rw [if_neg hzero, if_neg hcom]
    split_ifs
    · exact ⟨_, rfl⟩
    · exact ⟨_, rfl⟩
  obtain ⟨cmd', hcommand⟩ := hcommand
  have hbox : w.boxOf (- -(w.callerPid : Int)) = w.callerBox := by
    rw [Int.neg_neg]
    rfl
  obtain ⟨-, hok⟩ := started_startAt.mp h
  unfold runSandboxedStartProcess at hok
  rw [hcommand] at hok
  dsimp only [staying] at hok
  rw [hbox] at hok
  split_ifs at hok with h₁ h₂ h₃
  · exact absurd h₃ (by decide)
  · cases hok
    rfl

end Start

/-! ### The handler -/

section Handler

variable {w : Machine} {req : Request} {cmd : List WChar}

/-- The text passes the tests, and the box that takes the program is not its own. -/
def Passes (w : Machine) (path folder program : List WChar) : Prop :=
  splitProgram path = some (folder, program) ∧
    breaksOut w w.callerBox path folder program = true ∧
      ∀ BoxName ∈ otherBox w path folder program,
        Text.sameNoCase w.towlower w.callerBox BoxName = false

theorem breakout_of_passes {path folder program : List WChar} (hpath : path ∈ applicationName cmd)
    (h : Passes w path folder program) :
    breakout w cmd (staying w) = some (leaving w (otherBox w path folder program)) := by
  obtain ⟨hsplit, hbreaks, hother⟩ := h
  have hname : applicationName cmd = some path := hpath
  have hbox : (staying w).boxname = w.callerBox := rfl
  unfold breakout
  rw [hname]
  dsimp only
  rw [hsplit]
  dsimp only
  rw [hbox, if_pos hbreaks]
  cases hfind : otherBox w path folder program with
  | none => rfl
  | some BoxName =>
    dsimp only
    rw [hother BoxName hfind]
    rfl

theorem breakout_cases {target : Target} (h : breakout w cmd (staying w) = some target) :
    target = staying w ∨ ∃ path ∈ applicationName cmd, ∃ folder program,
      Passes w path folder program ∧ target = leaving w (otherBox w path folder program) := by
  have hbox : (staying w).boxname = w.callerBox := rfl
  cases hname : applicationName cmd with
  | none =>
    unfold breakout at h
    rw [hname] at h
    exact .inl (Option.some.inj h).symm
  | some path =>
    cases hsplit : splitProgram path with
    | none =>
      unfold breakout at h
      rw [hname] at h
      dsimp only at h
      rw [hsplit] at h
      exact .inl (Option.some.inj h).symm
    | some parts =>
      obtain ⟨folder, program⟩ := parts
      by_cases hbreaks : breaksOut w w.callerBox path folder program = true
      · have hother : ∀ BoxName ∈ otherBox w path folder program,
            Text.sameNoCase w.towlower w.callerBox BoxName = false := by
          intro BoxName hfind
          by_contra hsame
          unfold breakout at h
          rw [hname] at h
          dsimp only at h
          rw [hsplit] at h
          dsimp only at h
          rw [hbox, if_pos hbreaks, show otherBox w path folder program = some BoxName from hfind]
            at h
          dsimp only at h
          rw [if_pos (by simpa using hsame)] at h
          exact nomatch h
        have hpasses : Passes w path folder program := ⟨hsplit, hbreaks, hother⟩
        refine .inr ⟨path, rfl, folder, program, hpasses, ?_⟩
        exact Option.some.inj (h.symm.trans (breakout_of_passes hname hpasses))
      · unfold breakout at h
        rw [hname] at h
        dsimp only at h
        rw [hsplit] at h
        dsimp only at h
        rw [hbox, if_neg hbreaks] at h
        exact .inl (Option.some.inj h).symm

theorem callerTarget_of_sandbox (hsandbox : w.callerInSandbox = true) :
    callerTarget w req = if req.siFlags &&& 0x80000000 ≠ 0 then none else some (staying w) := by
  unfold callerTarget
  rw [if_pos hsandbox]
  rfl

theorem handler_of_asks (hsandbox : w.callerInSandbox = true) (h : Asks w req cmd) :
    runSandboxedHandler w req = match breakout w cmd (staying w) with
      | none => ⟨ERROR_NOT_SUPPORTED, 0, none⟩
      | some target => startAt w req cmd target := by
  obtain ⟨dir, hdir⟩ := Option.isSome_iff_exists.mp h.dir
  obtain ⟨env, henv⟩ := Option.isSome_iff_exists.mp h.env
  unfold runSandboxedHandler
  rw [if_neg (Nat.not_lt.mpr h.length), h.cmd, hdir, henv]
  dsimp only
  rw [if_neg (by simp [h.opened]), callerTarget_of_sandbox hsandbox,
    if_neg (not_not_intro h.session)]
  exact if_pos (by simp [hsandbox, h.unboxed])

theorem handler_cases (hsandbox : w.callerInSandbox = true) {p : Started}
    (hp : p ∈ (runSandboxedHandler w req).started) :
    ∃ cmd ∈ req.cmd, p ∈ (startAt w req cmd (staying w)).started ∨
      Asks w req cmd ∧ ∃ path ∈ applicationName cmd, ∃ folder program,
        Passes w path folder program ∧
          p ∈ (startAt w req cmd (leaving w (otherBox w path folder program))).started := by
  have hrun := hp
  unfold runSandboxedHandler at hp
  by_cases hlength : req.length < Request.sizeofReq
  · rw [if_pos hlength] at hp
    exact nomatch hp
  rw [if_neg hlength] at hp
  split at hp
  · next cmd dir env hcmd hdir henv =>
    refine ⟨cmd, hcmd, ?_⟩
    by_cases hopened : w.callerOpened = true
    · rw [if_neg (by simp [hopened]), callerTarget_of_sandbox hsandbox] at hp
      by_cases hsession : req.siFlags &&& 0x80000000 = 0
      · rw [if_neg (not_not_intro hsession)] at hp
        dsimp only at hp
        by_cases hunboxed : req.boxname = UNBOXED
        · have hasks : Asks w req cmd := ⟨Nat.not_lt.mp hlength, hcmd, by rw [hdir]; rfl,
            by rw [henv]; rfl, hopened, hsession, hunboxed⟩
          rw [handler_of_asks hsandbox hasks] at hrun
          cases hout : breakout w cmd (staying w) with
          | none =>
            rw [hout] at hrun
            exact nomatch hrun
          | some target =>
            rw [hout] at hrun
            rcases breakout_cases hout with rfl | ⟨path, hpath, folder, program, hpasses, rfl⟩
            · exact .inl hrun
            · exact .inr ⟨hasks, path, hpath, folder, program, hpasses, hrun⟩
        · rw [if_neg (by simp [hunboxed])] at hp
          exact .inl hp
      · rw [if_pos hsession] at hp
        exact nomatch hp
    · rw [if_pos (by simp [hopened])] at hp
      exact nomatch hp
  · exact nomatch hp

end Handler

/-! ### Resolved paths -/

section Resolved

variable {w : Machine}

variable {path folder program : List WChar}

theorem splitProgram_eq (h : splitProgram path = some (folder, program)) :
    path = folder ++ backslash :: program := by
  unfold splitProgram at h
  split_ifs at h with hmem
  cases h
  have hne : path.reverse.dropWhile (· ≠ backslash) ≠ [] := by
    intro hnil
    have hall := dropWhile_eq_nil_iff.mp hnil backslash (mem_reverse.mpr hmem)
    exact absurd hall (by simp)
  obtain ⟨c, rest, hrest⟩ := exists_cons_of_ne_nil hne
  have hc : c = backslash := by
    have hhead := head_dropWhile_not (fun c => decide (c ≠ backslash)) hne
    simp only [hrest, head_cons] at hhead
    simpa using hhead
  have hparts := takeWhile_append_dropWhile (p := (· ≠ backslash)) (l := path.reverse)
  rw [hrest, hc] at hparts
  have hreverse := congrArg List.reverse hparts
  rw [hrest]
  simpa using hreverse.symm

variable {boxname setting : List WChar}

theorem listed_of_check {string : List WChar}
    (h : checkStringInList w string boxname setting = true) : Listed w boxname setting string := by
  obtain ⟨value, hvalue, hsame⟩ := any_eq_true.mp h
  exact ⟨value, hvalue, (Bool.and_eq_true_iff.mp hsame).2⟩

theorem check_of_listed {string : List WChar}
    (hshort : ∀ value ∈ w.values boxname setting, value.length < 64)
    (h : Listed w boxname setting string) : checkStringInList w string boxname setting = true := by
  obtain ⟨value, hvalue, hsame⟩ := h
  refine any_eq_true.mpr ⟨value, hvalue, Bool.and_eq_true_iff.mpr ⟨?_, hsame⟩⟩
  exact decide_eq_true (hshort value hvalue)

theorem checkPatternInList_iff (hsplit : splitProgram path = some (folder, program))
    (hfolder : folder ≠ []) :
    checkPatternInList w path folder.length boxname setting = true ↔
      InFolder w boxname setting folder := by
  have hlength : folder.length ≠ 0 := fun heq => hfolder (length_eq_zero_iff.mp heq)
  have htake : path.take folder.length = folder := by
    rw [splitProgram_eq hsplit, take_left']
    rfl
  unfold checkPatternInList
  dsimp only
  rw [if_neg hlength, htake, any_eq_true]
  rfl

theorem not_liesInBox (h : isHostPath w path = true) :
    ¬ LiesInBox w (w.resolve path) := by
  rintro ⟨file, hfile, root, hroot, rest, hbelow⟩
  have hfile' : w.finalPath (w.resolve path) = some file := hfile
  have hroot' : w.sandboxPath = some root := hroot
  unfold isHostPath at h
  rw [hfile'] at h
  rw [hroot'] at h
  dsimp only at h
  have hlonger : root.length < file.length := by
    have hlength := congrArg List.length hbelow
    simp only [length_map, length_append, length_cons] at hlength
    omega
  have hsame : Text.sameNoCase w.towlower root (file.take root.length) = true := by
    unfold Text.sameNoCase
    rw [beq_iff_eq, map_take, hbelow, map_append]
    exact (take_left' (length_map w.towlower)).symm
  rw [decide_eq_false (Nat.not_le.mpr hlonger), hsame] at h
  split_ifs at h
  exact nomatch h

/-- The path is as Windows resolves it, in a folder, and no name is too long for the list of the
programs that a box takes. -/
structure Written (w : Machine) (path : List WChar) : Prop where
  resolved : w.resolve path = path
  folder : path.head? ≠ some backslash
  short : ∀ BoxName ∈ w.boxes, ∀ value ∈ w.values BoxName ForceProcess, value.length < 64

theorem leaves_of_written (h : Written w path)
    (hpasses : Passes w path folder program) :
    LeavesAsConfigured w (w.resolve path) (otherBox w path folder program) := by
  obtain ⟨hsplit, hbreaks, hother⟩ := hpasses
  have hpath := splitProgram_eq hsplit
  have hfolder : folder ≠ [] := by
    rintro rfl
    exact h.folder (by rw [hpath]; rfl)
  have hforces : ∀ BoxName ∈ w.boxes, forces w path folder program BoxName = true ↔
      (Listed w BoxName ForceProcess program ∨ InFolder w BoxName ForceFolder folder) := by
    intro BoxName hbox
    unfold forces
    rw [Bool.or_eq_true_iff, checkPatternInList_iff hsplit hfolder]
    exact or_congr_left ⟨listed_of_check, check_of_listed (h.short BoxName hbox)⟩
  rw [h.resolved]
  refine ⟨⟨folder, program, hsplit, ?_⟩, ?_⟩
  · rcases Bool.or_eq_true_iff.mp hbreaks with hlisted | hpattern
    · obtain ⟨hlisted, hhost⟩ := Bool.and_eq_true_iff.mp hlisted
      have hnot := not_liesInBox hhost
      rw [h.resolved] at hnot
      exact .inl ⟨listed_of_check hlisted, hnot⟩
    · exact .inr ((checkPatternInList_iff hsplit hfolder).mp hpattern)
  · rintro ⟨BoxName, hbox, henabled, -, folder', program', hsplit', htakes⟩
    obtain ⟨rfl, rfl⟩ := Prod.mk.inj (Option.some.inj (hsplit'.symm.trans hsplit))
    have hfound : (otherBox w path folder' program').isSome := by
      refine find?_isSome.mpr ⟨BoxName, hbox, Bool.and_eq_true_iff.mpr ⟨henabled, ?_⟩⟩
      exact (hforces BoxName hbox).mpr htakes
    obtain ⟨BoxName', hfind⟩ := Option.isSome_iff_exists.mp hfound
    have hbox' : BoxName' ∈ w.boxes := mem_of_find?_eq_some hfind
    have htest : (w.enabled BoxName' && forces w path folder' program' BoxName') = true :=
      find?_some (p := fun BoxName =>
        w.enabled BoxName && forces w path folder' program' BoxName) hfind
    obtain ⟨henabled', hforces'⟩ := Bool.and_eq_true_iff.mp htest
    exact ⟨BoxName', hfind, hbox', henabled', hother BoxName' hfind, folder', program', hsplit,
      (hforces BoxName' hbox').mp hforces'⟩

theorem meets_of_written {req : Request}
    (h : ∀ cmd ∈ req.cmd, ∀ path ∈ applicationName cmd, Written w path) : MeetsBreakout w req := by
  intro cmd hasks path hpath folder program hsplit hbreaks hother _
  exact leaves_of_written (h cmd hasks.cmd path hpath) ⟨hsplit, hbreaks, hother⟩

end Resolved

/-- **Programs leave the box as it is configured** exactly where the text that passes the tests is
judged as its resolved path is. -/
theorem breaks_out_as_configured {w : Machine} (hsandbox : w.callerInSandbox = true)
    (req : Request) : BreaksOutAsConfigured w req ↔ MeetsBreakout w req := by
  refine ⟨fun h cmd hasks path hpath folder program hsplit hbreaks hother hstarts => ?_,
    fun h p hp hbox => ?_⟩
  · have hpasses : Passes w path folder program := ⟨hsplit, hbreaks, hother⟩
    have hp : ⟨cmd, otherBox w path folder program⟩ ∈ (runSandboxedHandler w req).started := by
      rw [handler_of_asks hsandbox hasks, breakout_of_passes hpath hpasses]
      exact (started_leaving hpath).mpr ⟨hstarts, rfl⟩
    have hout : otherBox w path folder program ≠ some w.callerBox := by
      intro heq
      have hsame := hother w.callerBox heq
      rw [Text.sameNoCase, beq_self_eq_true] at hsame
      cases hsame
    obtain ⟨cmd', hcmd', hcom | ⟨path', hpath', hleaves⟩⟩ := h _ hp hout
    · obtain rfl : cmd' = cmd := Option.some.inj (hcmd'.symm.trans hasks.cmd)
      exact absurd hcom (not_special hpath).1
    · obtain rfl : cmd' = cmd := Option.some.inj (hcmd'.symm.trans hasks.cmd)
      obtain rfl : path' = path := Option.some.inj (hpath'.symm.trans hpath)
      exact hleaves
  · obtain ⟨cmd, hcmd, hstays | ⟨hasks, path, hpath, folder, program, hpasses, hleaves⟩⟩ :=
      handler_cases hsandbox hp
    · exact ⟨cmd, hcmd, .inl ((started_staying hstays).resolve_left hbox)⟩
    · obtain ⟨hstarts, rfl⟩ := (started_leaving hpath).mp hleaves
      exact ⟨cmd, hcmd, .inr ⟨path, hpath,
        h cmd hasks path hpath folder program hpasses.1 hpasses.2.1 hpasses.2.2 hstarts⟩⟩

/-! ### Runs -/

/-- `.` and `..` are removed, and `/` is read as a backslash; the drive stays. -/
def removeDots (path : List WChar) : List WChar :=
  match (path.map fun c => if c = 47 then backslash else c).splitOn backslash with
  | [] => []
  | drive :: parts =>
    let kept := parts.foldl (fun kept part =>
      if part = [46] then kept else if part = [46, 46] then kept.dropLast else kept ++ [part]) []
    drive ++ kept.flatMap (backslash :: ·)

def callerName : List WChar := wide "DefaultBox".toList

/-- The caller's box has `BreakoutFolder=C:\Tools\*`, its files are in `C:\Sandbox`, and every call
succeeds. -/
def toolsMachine : Machine where
  towlower := Text.asciiLower
  resolve := removeDots
  finalPath path := some (wide "\\Device\\HarddiskVolume1".toList ++ path.drop 2)
  translateNtToDosPath := id
  hexMatch _ _ := false
  wtoi _ := 0
  values boxname setting := if boxname = callerName ∧ setting = BreakoutFolder then
    [wide "C:\\Tools\\*".toList] else []
  groups := []
  expand _ := some
  boxes := [callerName]
  enabled _ := true
  callerPid := 4
  callerPid_pos := by decide
  callerOpened := true
  callerInSandbox := true
  boxOf _ := callerName
  sandboxPath := some (wide "\\Device\\HarddiskVolume1\\Sandbox".toList)
  processFlags := 0
  ntdll32 := false
  homePath := wide "C:\\Sandboxie".toList
  token _ _ := true
  duplicateToken := true
  setThreadToken := true
  createProcess _ := true
  setThreadToken2 := true
  startProcess := true
  dupHandles := true
  lastError := 0

def requestOf (cmd : List WChar) : Request :=
  let boxname := UNBOXED ++ List.replicate (BOXNAME_COUNT - UNBOXED.length) 0
  ofU32 (Request.sizeofReq + 2 * cmd.length) ++ ofU32 0 ++ boxname.flatMap ofU16 ++
    ofU32 Request.sizeofReq ++ ofU32 cmd.length ++ ofU32 Request.sizeofReq ++ ofU32 0 ++
    ofU32 Request.sizeofReq ++ ofU32 0 ++ ofU32 0 ++ ofU32 0 ++ ofU32 0 ++ cmd.flatMap ofU16

def toolCommand : List WChar := wide "\"C:\\Tools\\a\\b.exe\" /x".toList

/-- The text of the path begins with the folder, and `..` leads into the box. -/
def hiddenCommand : List WChar := wide "\"C:\\Tools\\..\\Sandbox\\b.exe\"".toList

theorem breaks_out_tool : (runSandboxedHandler toolsMachine (requestOf toolCommand)).started =
      some ⟨toolCommand, none⟩ ∧
    BreaksOutAsConfigured toolsMachine (requestOf toolCommand) := by
  refine ⟨by decide +kernel, (breaks_out_as_configured rfl _).mpr (meets_of_written ?_)⟩
  intro cmd hcmd path hpath
  have hcmd' : (requestOf toolCommand).cmd = some toolCommand := by decide +kernel
  obtain rfl : toolCommand = cmd := Option.some.inj (hcmd'.symm.trans hcmd)
  have hpath' : applicationName toolCommand = some (wide "C:\\Tools\\a\\b.exe".toList) := by
    decide +kernel
  obtain rfl : _ = path := Option.some.inj (hpath'.symm.trans hpath)
  refine ⟨by decide +kernel, by decide, fun BoxName _ value hvalue => ?_⟩
  have hnone : toolsMachine.values BoxName ForceProcess = [] := by
    refine if_neg fun h => ?_
    exact absurd h.2 (by decide)
  rw [hnone] at hvalue
  exact nomatch hvalue

/-- The handler starts a program of the box outside of it. -/
theorem hidden_breaks_out :
    ¬ BreaksOutAsConfigured toolsMachine (requestOf hiddenCommand) := by
  intro h
  have hstarted : (⟨hiddenCommand, none⟩ : Started) ∈
      (runSandboxedHandler toolsMachine (requestOf hiddenCommand)).started := by
    show _ = some _
    decide +kernel
  have hcmd' : (requestOf hiddenCommand).cmd = some hiddenCommand := by decide +kernel
  have hpath' : applicationName hiddenCommand =
      some (wide "C:\\Tools\\..\\Sandbox\\b.exe".toList) := by decide +kernel
  obtain ⟨cmd, hcmd, hcom | ⟨path, hpath, ⟨folder, program, hsplit, hallowed⟩, -⟩⟩ :=
    h _ hstarted (by simp)
  · obtain rfl : hiddenCommand = cmd := Option.some.inj (hcmd'.symm.trans hcmd)
    exact absurd hcom (by decide)
  obtain rfl : hiddenCommand = cmd := Option.some.inj (hcmd'.symm.trans hcmd)
  obtain rfl : _ = path := Option.some.inj (hpath'.symm.trans hpath)
  have hsplit' :
      splitProgram (toolsMachine.resolve (wide "C:\\Tools\\..\\Sandbox\\b.exe".toList)) =
        some (wide "C:\\Sandbox".toList, wide "b.exe".toList) := by decide +kernel
  obtain ⟨rfl, rfl⟩ := Prod.mk.inj (Option.some.inj (hsplit'.symm.trans hsplit))
  rcases hallowed with ⟨⟨value, hvalue, -⟩, -⟩ | ⟨pat, hpat, hmatch⟩
  · have hnone : toolsMachine.values toolsMachine.callerBox BreakoutProcess = [] := by
      decide
    exact nomatch hvalue
  · have hoff : (initPatternList toolsMachine toolsMachine.callerBox BreakoutFolder).all
        (fun pat => !patternMatch
          (dllSide (box toolsMachine toolsMachine.callerBox) toolsMachine.hexMatch) pat
          ((wide "C:\\Sandbox".toList).map toolsMachine.towlower)) = true := by decide +kernel
    have hnot := all_eq_true.mp hoff pat hpat
    rw [hmatch] at hnot
    exact nomatch hnot

end Sandboxie.ProcessServer
