import Sandboxie.Dll.PathKeep

/-!
# The file of a box and its processes

Each process of a box has a tree of its own and shares `FilePaths.dat` with the others:
`File_InitDelete_v2`, `File_RefreshPathTree`, `File_MarkDeleted_v2` and `File_SetRelocation` of
`file_del.c`.  A call writes the file under the mutex, so it is one step; a refresh looks at the
size and the date of the file before it takes the mutex, and the start of a process after it has
given it back, so these are two.

What the system decides is in the event: the date that a file gets, whether it can be opened,
whether the box folder was reported to have changed.  Paths are those of `File_NormalizePath`.
-/

namespace Sandboxie.PathTree

open Text List Option

/-- `FilePaths.dat` -/
structure DataFile where
  text : List WChar
  date : Nat

structure Attributes where
  size : Nat
  date : Nat
deriving DecidableEq

/-- `File_GetAttributes_internal` -/
def getAttributes (file : Option DataFile) : Option Attributes :=
  file.map fun f => ⟨2 * f.text.length, f.date⟩

inductive Phase
  | idle
  | starting
  | reloading
deriving DecidableEq

/-- `File_PathRoot`, with `File_PathsFileSize` and `File_PathsFileDate`. -/
structure Process where
  pathRoot : PathNodes
  pathsFile : Attributes
  phase : Phase

/-- The file and the processes that have started. -/
structure Box (ι : Type) where
  file : Option DataFile
  processes : ι → Option Process

inductive Event (ι : Type)
  | start (i : ι) (canOpen : Bool) (date : Nat)
  | remember (i : ι)
  | refresh (i : ι) (boxRootChange : Bool)
  | reload (i : ι) (canOpen : Bool) (date : Nat)
  | markDeleted (i : ι) (truePath : List WChar) (canOpen : Bool) (date : Nat)
  | setRelocation (i : ι) (oldTruePath newTruePath : List WChar) (canOpen : Bool) (date : Nat)

section Fold

variable (towlower : WChar → WChar) (toFile toTree : TranslatePath)

/-- `File_LoadPathTree`: an empty file is made where there is none. -/
def loadTree (file : Option DataFile) (pathRoot : PathNodes) (canOpen : Bool) (date : Nat) :
    Option DataFile × PathNodes :=
  match file with
  | none => (some ⟨[], date⟩, pathRoot)
  | some f => (some f, if canOpen then loadPathTree towlower toTree f.text else pathRoot)

/-- `File_SavePathTree` -/
def saveTree (file : Option DataFile) (process : Process) (canOpen : Bool) (date : Nat) :
    Option DataFile × Process :=
  let file := if canOpen then some ⟨savePathTree toFile process.pathRoot, date⟩ else file
  (file, { process with pathsFile := (getAttributes file).getD process.pathsFile })

/-- A line is appended: no node was taken out, and the file is the one that the process knows. -/
def appends (file : Option DataFile) (process : Process) (marked : Marked) : Bool :=
  !marked.truncated && getAttributes file = some process.pathsFile

/-- `File_MarkDeleted_v2` -/
def markDeletedV2 (file : Option DataFile) (process : Process) (truePath : List WChar)
    (canOpen : Bool) (date : Nat) : Option DataFile × Process :=
  let marked := markDeleted towlower process.pathRoot truePath
  let process := { process with pathRoot := marked.root }
  if marked.set then
    if appends file process marked then
      match file with
      | some f =>
        if canOpen then
          let file := some
            ⟨f.text ++ appendPathEntry toFile truePath ⟨fileDeletedFlag, none⟩, date⟩
          (file, { process with pathsFile := (getAttributes file).getD process.pathsFile })
        else (file, process)
      | none => (file, process)
    else saveTree toFile file process canOpen date
  else (file, process)

/-- `File_SetRelocation` that comes back. -/
def setRelocationV2 (file : Option DataFile) (process : Process)
    (oldTruePath newTruePath : List WChar) (canOpen : Bool) (date : Nat) :
    Option (Option DataFile × Process) :=
  (setRelocation towlower process.pathRoot oldTruePath newTruePath).map fun pathRoot =>
    saveTree toFile file { process with pathRoot := pathRoot } canOpen date

variable {ι : Type} [DecidableEq ι]

def Box.put (box : Box ι) (i : ι) (change : Option DataFile × Process) : Box ι where
  file := change.1
  processes := fun j => if j = i then some change.2 else box.processes j

@[simp]
theorem Box.put_file (box : Box ι) (i : ι) (change : Option DataFile × Process) :
    (box.put i change).file = change.1 := rfl

theorem Box.put_process (box : Box ι) (i : ι) (change : Option DataFile × Process) :
    (box.put i change).processes i = some change.2 := if_pos rfl

def Box.processIn (box : Box ι) (i : ι) (phase : Phase) : Option Process :=
  (box.processes i).filter fun process => process.phase = phase

def step (box : Box ι) : Event ι → Option (Box ι)
  | .start i canOpen date =>
    if box.processes i = none then
      let loaded := loadTree towlower toTree box.file .nil canOpen date
      some (box.put i (loaded.1, ⟨loaded.2, ⟨0, 0⟩, .starting⟩))
    else none
  | .remember i => (box.processIn i .starting).map fun process =>
    box.put i (box.file, { process with
      pathsFile := (getAttributes box.file).getD process.pathsFile
      phase := .idle })
  | .refresh i boxRootChange => (box.processIn i .idle).map fun process =>
    match getAttributes box.file with
    | some attributes =>
      if boxRootChange ∧ process.pathsFile ≠ attributes then
        box.put i (box.file, { process with pathsFile := attributes, phase := .reloading })
      else box
    | none => box
  | .reload i canOpen date => (box.processIn i .reloading).map fun process =>
    let loaded := loadTree towlower toTree box.file process.pathRoot canOpen date
    box.put i (loaded.1, { process with pathRoot := loaded.2, phase := .idle })
  | .markDeleted i truePath canOpen date => (box.processIn i .idle).map fun process =>
    box.put i (markDeletedV2 towlower toFile box.file process truePath canOpen date)
  | .setRelocation i oldTruePath newTruePath canOpen date =>
    (box.processIn i .idle).bind fun process =>
      (setRelocationV2 towlower toFile box.file process oldTruePath newTruePath canOpen date).map
        (box.put i)

/-! ### What the file says -/

def fileTree (file : Option DataFile) : PathNodes :=
  match file with
  | none => .nil
  | some f => loadPathTree towlower toTree f.text

/-- The tree of a process says what the file says. -/
def IsCurrent (file : Option DataFile) (process : Process) : Prop :=
  SameDeletions towlower process.pathRoot (fileTree towlower toTree file)

/-- A tree comes back from a file that is written of it. -/
structure Savable (root : PathNodes) : Prop where
  apart : root.Apart (List.map towlower)
  lost : lost root = false
  nodes : root.All fun name m => IsName name ∧ m.Plain
  comesBack : ComesBack toFile toTree root

/-- The line that is appended for a path can be read back. -/
structure Appendable (path : List WChar) : Prop where
  writable : Writable (toFile.use path)
  back : toTree.use (toFile.use path) = path

/-- A call that rewrites the file is made by a process whose tree is that of the file; what it
writes comes back; and the file can be opened. -/
def Meets (box : Box ι) : Event ι → Prop
  | .markDeleted i truePath canOpen _ =>
    canOpen = true ∧ hasLast truePath = true ∧ ∀ process, box.processes i = some process →
      let marked := markDeleted towlower process.pathRoot truePath
      if marked.set = true ∧ appends box.file process marked = true then
        Appendable toFile toTree truePath
      else
        IsCurrent towlower toTree box.file process ∧
          (marked.set = true → Savable towlower toFile toTree marked.root)
  | .setRelocation i oldTruePath newTruePath canOpen _ =>
    canOpen = true ∧ ∀ process, box.processes i = some process →
      IsCurrent towlower toTree box.file process ∧
        ∀ root, setRelocation towlower process.pathRoot oldTruePath newTruePath = some root →
          Savable towlower toFile toTree root
  | _ => True

/-! ### The text of the file -/

/-- A text of whole lines. -/
structure WholeLines (text : List WChar) : Prop where
  nul : 0 ∉ text
  ends : text = [] ∨ ∃ start, text = start ++ [10]

theorem lines_whole (start rest line : List WChar) :
    Ini.lines (start ++ 10 :: rest) line = Ini.lines (start ++ [10]) line ++ Ini.lines rest [] := by
  induction start generalizing line with
  | nil => simp [Ini.lines]
  | cons c start ih =>
    rw [cons_append, cons_append, Ini.lines, Ini.lines]
    split
    · rw [ih, cons_append]
    · exact ih _

theorem readEntries_append {text text' : List WChar} (h : WholeLines text) (h' : 0 ∉ text') :
    readEntries (text ++ text') = readEntries text ++ readEntries text' := by
  have hboth : 0 ∉ text ++ text' := fun hmem =>
    (mem_append.mp hmem).elim h.nul h'
  rw [readEntries, readEntries, readEntries, cut_eq_self hboth, cut_eq_self h.nul,
    cut_eq_self h']
  obtain rfl | ⟨start, rfl⟩ := h.ends
  · rfl
  · rw [append_assoc, singleton_append, lines_whole, filterMap_append]

theorem wholeLines_append {text text' : List WChar} (h : WholeLines text)
    (h' : WholeLines text') : WholeLines (text ++ text') where
  nul := fun hmem => (mem_append.mp hmem).elim h.nul h'.nul
  ends := by
    obtain rfl | ⟨start, rfl⟩ := h'.ends
    · rw [append_nil]
      exact h.ends
    · exact .inr ⟨text ++ start, (append_assoc _ _ _).symm⟩

variable {towlower toFile toTree} {path : List WChar}

theorem wholeLines_entry {mark : Mark} (h : mark.Writable toFile path) :
    WholeLines (appendPathEntry toFile path mark) := by
  rw [appendPathEntry_eq]
  refine ⟨fun hmem => ?_, .inr ⟨_, rfl⟩⟩
  obtain hmem | hmem := mem_append.mp hmem
  · exact (h.line hmem).2 rfl
  · simp at hmem

theorem wholeLines_savePathTree {root : PathNodes} (h : ComesBack toFile toTree root) :
    WholeLines (savePathTree toFile root) := by
  have hall : ∀ es : List (List (List WChar) × Mark),
      (∀ e ∈ es, e.2.ComesBack toFile toTree (pathText e.1)) →
      WholeLines (es.flatMap fun e => appendPathEntry toFile (pathText e.1) e.2) := by
    intro es
    induction es with
    | nil => exact fun _ => ⟨not_mem_nil, .inl rfl⟩
    | cons e es ih =>
      intro hes
      rw [flatMap_cons]
      exact wholeLines_append (wholeLines_entry (hes e mem_cons_self).writable)
        (ih fun e' he' => hes e' (mem_cons_of_mem e he'))
  rw [savePathTree, ← pathText_nil, savePathNode_eq]
  exact hall _ fun e he => (h e he).2

theorem loadPathTree_append {text path : List WChar} (h : WholeLines text)
    (hpath : Appendable toFile toTree path) :
    loadPathTree towlower toTree
        (text ++ appendPathEntry toFile path ⟨fileDeletedFlag, none⟩) =
      setPathFlags towlower (loadPathTree towlower toTree text) path fileDeletedFlag 0 none := by
  have hwritable : Mark.Writable toFile path ⟨fileDeletedFlag, none⟩ :=
    ⟨hpath.writable, fun r hr => nomatch hr⟩
  have hentry := readEntries_written [(path, ⟨fileDeletedFlag, none⟩)]
    (forall_mem_singleton.mpr hwritable)
  rw [flatMap_cons, flatMap_nil, append_nil] at hentry
  rw [loadPathTree, readEntries_append h (wholeLines_entry hwritable).nul, hentry,
    foldl_append]
  show setPathFlags towlower _ (toTree.use (toFile.use path)) fileDeletedFlag 0 none = _
  rw [hpath.back]
  rfl

theorem apart_loadPathTree (text : List WChar) :
    (loadPathTree towlower toTree text).Apart (List.map towlower) := by
  have hall : ∀ (es : List (List WChar × Mark)) (root : PathNodes),
      root.Apart (List.map towlower) →
      (es.foldl (loadEntry towlower toTree) root).Apart (List.map towlower) := by
    intro es
    induction es with
    | nil => exact fun _ h => h
    | cons e es ih => exact fun root h => ih _ (h.update _ _)
  exact hall _ .nil trivial

/-! ### The calls -/

theorem apart_markDeleted {root : PathNodes} (h : root.Apart (List.map towlower))
    (path : List WChar) : (markDeleted towlower root path).root.Apart (List.map towlower) := by
  unfold markDeleted
  cases findPathBranche towlower root path with
  | none => exact h.update _ _
  | some found =>
    by_cases halready : found.1.flags = fileDeletedFlag ∧ found.2 = .nil
    · simp only [if_pos halready]
      exact h
    · simp only [if_neg halready]
      exact (h.remove _).update _ _

theorem markDeleted_not_set {root : PathNodes} (h : (markDeleted towlower root path).set = false) :
    (markDeleted towlower root path).root = root := by
  unfold markDeleted at h ⊢
  cases hfound : findPathBranche towlower root path with
  | none =>
    rw [hfound] at h
    cases h
  | some found =>
    rw [hfound] at h
    by_cases halready : found.1.flags = fileDeletedFlag ∧ found.2 = .nil
    · simp only [if_pos halready]
    · simp only [if_neg halready] at h
      cases h

def FileReady (file : Option DataFile) : Prop := ∀ f, file = some f → WholeLines f.text

theorem saveTree_spec {file : Option DataFile} {process : Process} (date : Nat)
    (h : Savable towlower toFile toTree process.pathRoot) :
    SameDeletions towlower process.pathRoot
        (fileTree towlower toTree (saveTree toFile file process true date).1) ∧
      FileReady (saveTree toFile file process true date).1 := by
  refine ⟨?_, fun f hf => ?_⟩
  · exact (sameDeletions_iff h.apart h.nodes h.comesBack).mpr h.lost
  · cases hf
    exact wholeLines_savePathTree h.comesBack

/-- What a deletion makes of the file: a line is added, or the file then says what the process
does, which knew what was in it. -/
theorem markDeletedV2_spec {file : Option DataFile} {process : Process}
    (date : Nat) (hready : FileReady file)
    (hmeets : let marked := markDeleted towlower process.pathRoot path
      if marked.set = true ∧ appends file process marked = true then
        Appendable toFile toTree path
      else
        IsCurrent towlower toTree file process ∧
          (marked.set = true → Savable towlower toFile toTree marked.root)) :
    ∀ result, markDeletedV2 towlower toFile file process path true date = result →
      result.2.pathRoot = (markDeleted towlower process.pathRoot path).root ∧
      FileReady result.1 ∧
      (fileTree towlower toTree result.1 =
          setPathFlags towlower (fileTree towlower toTree file) path fileDeletedFlag 0 none ∨
        IsCurrent towlower toTree file process ∧
          SameDeletions towlower (markDeleted towlower process.pathRoot path).root
            (fileTree towlower toTree result.1)) := by
  intro result hresult
  cases hset : (markDeleted towlower process.pathRoot path).set with
  | false =>
    simp only [hset, Bool.false_eq_true, false_and, if_false] at hmeets
    simp only [markDeletedV2, hset, Bool.false_eq_true, if_false] at hresult
    subst hresult
    refine ⟨rfl, hready, .inr ⟨hmeets.1, ?_⟩⟩
    rw [markDeleted_not_set hset]
    exact hmeets.1
  | true =>
    cases happends : appends file process (markDeleted towlower process.pathRoot path) with
    | true =>
      simp only [hset, happends, and_self, if_true] at hmeets
      have hsome : ∃ f, file = some f := by
        cases file with
        | none => simp [appends, getAttributes] at happends
        | some f => exact ⟨f, rfl⟩
      obtain ⟨f, rfl⟩ := hsome
      simp only [markDeletedV2, hset, if_true] at hresult
      have happends' : appends (some f)
          { process with pathRoot := (markDeleted towlower process.pathRoot path).root }
          (markDeleted towlower process.pathRoot path) = true := happends
      rw [if_pos happends'] at hresult
      subst hresult
      have hwritable : Mark.Writable toFile path ⟨fileDeletedFlag, none⟩ :=
        ⟨hmeets.writable, fun r hr => nomatch hr⟩
      refine ⟨rfl, fun f' hf' => ?_, .inl (loadPathTree_append (hready f rfl) hmeets)⟩
      cases hf'
      exact wholeLines_append (hready f rfl) (wholeLines_entry hwritable)
    | false =>
      simp only [hset, happends, Bool.false_eq_true, and_false, if_false, true_implies] at hmeets
      simp only [markDeletedV2, hset, if_true] at hresult
      have happends' : appends file
          { process with pathRoot := (markDeleted towlower process.pathRoot path).root }
          (markDeleted towlower process.pathRoot path) = false := happends
      rw [happends', if_neg Bool.false_ne_true] at hresult
      subst hresult
      have hsaved := @saveTree_spec towlower toFile toTree file
        { process with pathRoot := (markDeleted towlower process.pathRoot path).root } date hmeets.2
      exact ⟨rfl, hsaved.2, .inr ⟨hmeets.1, hsaved.1⟩⟩

/-! ### Steps -/

/-- Between two steps: the file has whole lines, and no process has two nodes of one name in a
level. -/
structure Ready (towlower : WChar → WChar) (box : Box ι) : Prop where
  file : FileReady box.file
  apart : ∀ i process, box.processes i = some process →
    process.pathRoot.Apart (List.map towlower)

theorem loadTree_spec (file : Option DataFile) {pathRoot : PathNodes} (canOpen : Bool)
    (date : Nat) :
    fileTree towlower toTree (loadTree towlower toTree file pathRoot canOpen date).1 =
        fileTree towlower toTree file ∧
      (FileReady file → FileReady (loadTree towlower toTree file pathRoot canOpen date).1) ∧
      (pathRoot.Apart (List.map towlower) →
        (loadTree towlower toTree file pathRoot canOpen date).2.Apart (List.map towlower)) := by
  cases file with
  | none =>
    refine ⟨rfl, fun _ f hf => ?_, id⟩
    cases hf
    exact ⟨not_mem_nil, .inl rfl⟩
  | some f =>
    refine ⟨rfl, id, fun h => ?_⟩
    cases canOpen with
    | true => exact apart_loadPathTree f.text
    | false => exact h

theorem Ready.put {box : Box ι} (h : Ready towlower box) (i : ι)
    {change : Option DataFile × Process} (hfile : FileReady change.1)
    (hapart : change.2.pathRoot.Apart (List.map towlower)) : Ready towlower (box.put i change) where
  file := hfile
  apart := by
    intro j process hprocess
    by_cases hj : j = i
    · obtain rfl := Option.some.inj ((if_pos hj).symm.trans hprocess)
      exact hapart
    · exact h.apart j process ((if_neg hj).symm.trans hprocess)

omit [DecidableEq ι] in
theorem processIn_eq {box : Box ι} {i : ι} {phase : Phase} {process : Process}
    (h : box.processIn i phase = some process) : box.processes i = some process :=
  (filter_eq_some_iff.mp h).1

variable (towlower) in
/-- The step can take back the deletion of the path: it renames the path or a folder above it, or
something to that. -/
def Event.UndoesDeletion (path : List WChar) : Event ι → Prop
  | .setRelocation _ oldTruePath newTruePath _ _ =>
    IsUnder towlower (names oldTruePath) (names path) ∨
      IsUnder towlower (names newTruePath) (names path)
  | _ => False

variable (towlower) in
/-- The step can take back the relocation of the path: it deletes or renames the path or a folder
above it, or renames something to that. -/
def Event.UndoesRelocation (path : List WChar) : Event ι → Prop
  | .markDeleted _ truePath _ _ => IsUnder towlower (names truePath) (names path)
  | .setRelocation _ oldTruePath newTruePath _ _ =>
    IsUnder towlower (names oldTruePath) (names path) ∨
      IsUnder towlower (names newTruePath) (names path)
  | _ => False

theorem setDeleted_keeps (root : PathNodes) (path path' : List WChar) :
    (deletedStatus towlower root path' ≠ 0 →
        deletedStatus towlower (setPathFlags towlower root path fileDeletedFlag 0 none) path' ≠ 0) ∧
      relocation towlower (setPathFlags towlower root path fileDeletedFlag 0 none) path' =
        relocation towlower root path' := by
  rw [deletedStatus_ne_zero, deletedStatus_ne_zero, relocation_eq, relocation_eq]
  exact answer_keeps (segments path')
    (fun ys _ _ => label_changeLast_keeps Mark.keeps_setDeleted root path ys) id none

/-- A step of another kind leaves what the file says. -/
structure StepKeeps (towlower : WChar → WChar) (toTree : TranslatePath) (box box' : Box ι)
    (event : Event ι) : Prop where
  ready : Ready towlower box'
  deleted : ∀ path, ¬event.UndoesDeletion towlower path →
    deletedStatus towlower (fileTree towlower toTree box.file) path ≠ 0 →
      deletedStatus towlower (fileTree towlower toTree box'.file) path ≠ 0
  relocation : ∀ path, ¬event.UndoesRelocation towlower path →
    relocation towlower (fileTree towlower toTree box'.file) path =
      relocation towlower (fileTree towlower toTree box.file) path

variable {box box' : Box ι}

omit [DecidableEq ι] in
theorem StepKeeps.of_fileTree {event : Event ι} (hready : Ready towlower box')
    (h : fileTree towlower toTree box'.file = fileTree towlower toTree box.file) :
    StepKeeps towlower toTree box box' event where
  ready := hready
  deleted := fun path _ hd => h ▸ hd
  relocation := fun path _ => by rw [h]

/-- **One step** keeps what the file says, but for the paths it is about. -/
theorem step_keeps {event : Event ι} (hready : Ready towlower box)
    (hstep : step towlower toFile toTree box event = some box')
    (hmeets : Meets towlower toFile toTree box event) :
    StepKeeps towlower toTree box box' event := by
  cases event with
  | start i canOpen date =>
    rw [step] at hstep
    split at hstep
    · cases hstep
      obtain ⟨hfile, hwhole, hapart⟩ :=
        @loadTree_spec towlower toTree box.file .nil canOpen date
      exact .of_fileTree (hready.put i (hwhole hready.file) (hapart trivial)) hfile
    · cases hstep
  | remember i =>
    obtain ⟨process, hprocess, rfl⟩ := map_eq_some_iff.mp hstep
    have hapart := hready.apart i process (processIn_eq hprocess)
    exact .of_fileTree (hready.put i hready.file hapart) rfl
  | refresh i boxRootChange =>
    obtain ⟨process, hprocess, rfl⟩ := map_eq_some_iff.mp hstep
    have hapart := hready.apart i process (processIn_eq hprocess)
    cases getAttributes box.file with
    | none => exact .of_fileTree hready rfl
    | some attributes =>
      by_cases hchange : boxRootChange ∧ process.pathsFile ≠ attributes
      · simp only [if_pos hchange]
        exact .of_fileTree (hready.put i hready.file hapart) rfl
      · simp only [if_neg hchange]
        exact .of_fileTree hready rfl
  | reload i canOpen date =>
    obtain ⟨process, hprocess, rfl⟩ := map_eq_some_iff.mp hstep
    obtain ⟨hfile, hwhole, hapart⟩ :=
      @loadTree_spec towlower toTree box.file process.pathRoot canOpen date
    have happart := hapart (hready.apart i process (processIn_eq hprocess))
    exact .of_fileTree (hready.put i (hwhole hready.file) happart) hfile
  | markDeleted i truePath canOpen date =>
    obtain ⟨process, hprocess, rfl⟩ := map_eq_some_iff.mp hstep
    obtain ⟨rfl, hlast, hprocesses⟩ := hmeets
    have hsome := processIn_eq hprocess
    have hapart := hready.apart i process hsome
    obtain ⟨hroot, hwhole, hfile⟩ := markDeletedV2_spec date hready.file
      (hprocesses process hsome) _ rfl
    refine ⟨hready.put i hwhole (hroot ▸ apart_markDeleted hapart truePath), ?_, ?_⟩
    · intro path _ hd
      obtain hline | ⟨hcurrent, hsame⟩ := hfile
      · rw [Box.put_file, hline]
        exact (setDeleted_keeps _ truePath path).1 hd
      · exact ((hsame path).1).mpr
          (markDeleted_deleted hapart hlast (.inl ((hcurrent path).1.mp hd)))
    · intro path hundo
      obtain hline | ⟨hcurrent, hsame⟩ := hfile
      · rw [Box.put_file, hline]
        exact (setDeleted_keeps _ truePath path).2
      · exact ((hsame path).2.trans (markDeleted_relocation hundo)).trans (hcurrent path).2.symm
  | setRelocation i oldTruePath newTruePath canOpen date =>
    obtain ⟨process, hprocess, hchange⟩ := bind_eq_some_iff.mp hstep
    obtain ⟨change, hcall, rfl⟩ := map_eq_some_iff.mp hchange
    obtain ⟨root, hroot, rfl⟩ := map_eq_some_iff.mp hcall
    obtain ⟨rfl, hprocesses⟩ := hmeets
    obtain ⟨hcurrent, hsavable⟩ := hprocesses process (processIn_eq hprocess)
    obtain ⟨hsame, hwhole⟩ := @saveTree_spec towlower toFile toTree box.file
      { process with pathRoot := root } date (hsavable root hroot)
    refine ⟨hready.put i hwhole (hsavable root hroot).apart, ?_, ?_⟩
    · intro path hundo hd
      apply ((hsame path).1).mpr
      have hown := (hcurrent path).1.mp hd
      cases hmoves : sameNoCase towlower oldTruePath newTruePath with
      | true =>
        rw [setRelocation, if_pos hmoves] at hroot
        exact Option.some.inj hroot ▸ hown
      | false =>
        exact setRelocation_deleted hroot hmoves (fun h => hundo (.inl h))
          (fun h => hundo (.inr h)) hown
    · intro path hundo
      refine ((hsame path).2.trans ?_).trans (hcurrent path).2.symm
      cases hmoves : sameNoCase towlower oldTruePath newTruePath with
      | true =>
        rw [setRelocation, if_pos hmoves] at hroot
        rw [Option.some.inj hroot]
      | false =>
        exact setRelocation_relocation hroot hmoves (fun h => hundo (.inl h))
          (fun h => hundo (.inr h))

/-! ### Runs -/

variable (towlower toFile toTree) in
def Steps : Box ι → List (Event ι) → Box ι → Prop :=
  Run (fun box event box' => step towlower toFile toTree box event = some box')
    (Meets towlower toFile toTree)

theorem Steps.ready {events : List (Event ι)}
    (h : Steps towlower toFile toTree box events box') (hready : Ready towlower box) :
    Ready towlower box' :=
  Run.invariant h hready fun hready hstep hmeets => (step_keeps hready hstep hmeets).ready

theorem Steps.deleted {box box' : Box ι} {events : List (Event ι)}
    (h : Steps towlower toFile toTree box events box') (hready : Ready towlower box)
    {path : List WChar} (hundo : ∀ event ∈ events, ¬event.UndoesDeletion towlower path)
    (hdeleted : deletedStatus towlower (fileTree towlower toTree box.file) path ≠ 0) :
    deletedStatus towlower (fileTree towlower toTree box'.file) path ≠ 0 := by
  refine @Run.keeps _ _ _ _ _ _ _ (Ready towlower)
    (fun box => deletedStatus towlower (fileTree towlower toTree box.file) path ≠ 0)
    (fun event => ¬event.UndoesDeletion towlower path) h hready (fun hready hstep hmeets =>
      (step_keeps hready hstep hmeets).ready) hundo ?_ hdeleted
  exact fun hready hstep hmeets hundo hd => (step_keeps hready hstep hmeets).deleted path hundo hd

theorem Steps.relocation {events : List (Event ι)}
    (h : Steps towlower toFile toTree box events box') (hready : Ready towlower box)
    (hundo : ∀ event ∈ events, ¬event.UndoesRelocation towlower path)
    {target : Option (List WChar)}
    (hrelocation : relocation towlower (fileTree towlower toTree box.file) path = target) :
    PathTree.relocation towlower (fileTree towlower toTree box'.file) path = target := by
  refine @Run.keeps _ _ _ _ _ _ _ (Ready towlower)
    (fun box => PathTree.relocation towlower (fileTree towlower toTree box.file) path = target)
    (fun event => ¬event.UndoesRelocation towlower path) h hready (fun hready hstep hmeets =>
      (step_keeps hready hstep hmeets).ready) hundo ?_
    hrelocation
  exact fun hready hstep hmeets hundo ht =>
    ((step_keeps hready hstep hmeets).relocation path hundo).trans ht

theorem deletion_recorded {i : ι} {truePath : List WChar} {canOpen : Bool}
    {date : Nat} (hready : Ready towlower box)
    (hstep : step towlower toFile toTree box (.markDeleted i truePath canOpen date) = some box')
    (hmeets : Meets towlower toFile toTree box (.markDeleted i truePath canOpen date)) :
    deletedStatus towlower (fileTree towlower toTree box'.file) truePath ≠ 0 := by
  obtain ⟨process, hprocess, rfl⟩ := map_eq_some_iff.mp hstep
  obtain ⟨rfl, hlast, hprocesses⟩ := hmeets
  have hsome := processIn_eq hprocess
  obtain ⟨-, -, hfile⟩ := markDeletedV2_spec date hready.file (hprocesses process hsome) _ rfl
  obtain hline | ⟨-, hsame⟩ := hfile
  · obtain ⟨flags, relocation, hanswer⟩ := answer_last hlast
      ((setPathFlags towlower (fileTree towlower toTree box.file) truePath fileDeletedFlag 0
        none).label (List.map towlower) Mark.none)
    rw [Box.put_file, hline, deletedStatus_ne_zero, hanswer, filePathDeleted_lastFlags,
      setPathFlags, label_changeLast_self hlast (names_ne_nil hlast) rfl, Mark.deleted_setDeleted,
      Bool.or_true]
  · exact ((hsame truePath).1).mpr (markDeleted_deleted (hready.apart i process hsome) hlast
      (.inr (IsUnder.of_eq rfl)))

theorem relocation_recorded {i : ι} {oldTruePath newTruePath : List WChar}
    {canOpen : Bool} {date : Nat}
    (hstep : step towlower toFile toTree box
      (.setRelocation i oldTruePath newTruePath canOpen date) = some box')
    (hmeets : Meets towlower toFile toTree box
      (.setRelocation i oldTruePath newTruePath canOpen date))
    (hmoves : sameNoCase towlower oldTruePath newTruePath = false)
    (hunder : ¬IsUnder towlower (names oldTruePath) (names newTruePath)) :
    ∃ process target, box'.processes i = some process ∧
      relocation towlower process.pathRoot newTruePath = some target ∧
      relocation towlower (fileTree towlower toTree box'.file) newTruePath = some target := by
  obtain ⟨process, hprocess, hchange⟩ := bind_eq_some_iff.mp hstep
  obtain ⟨change, hcall, rfl⟩ := map_eq_some_iff.mp hchange
  obtain ⟨root, hroot, rfl⟩ := map_eq_some_iff.mp hcall
  obtain ⟨rfl, hprocesses⟩ := hmeets
  obtain ⟨-, hsavable⟩ := hprocesses process (processIn_eq hprocess)
  obtain ⟨hsame, -⟩ := @saveTree_spec towlower toFile toTree box.file
    { process with pathRoot := root } date (hsavable root hroot)
  obtain ⟨target, htarget⟩ := isSome_iff_exists.mp (setRelocation_new hroot hmoves hunder)
  exact ⟨_, target, box.put_process i _, htarget, (hsame newTruePath).2.trans htarget⟩

variable (towlower toTree) in
/-- What the call has recorded when the box was `returned` is in the file of `box`. -/
def Recorded (returned box : Box ι) : Event ι → Prop
  | .markDeleted _ truePath _ _ =>
    deletedStatus towlower (fileTree towlower toTree box.file) truePath ≠ 0
  | .setRelocation i oldTruePath newTruePath _ _ =>
    sameNoCase towlower oldTruePath newTruePath = false →
    ¬IsUnder towlower (names oldTruePath) (names newTruePath) →
      ∃ process target, returned.processes i = some process ∧
        relocation towlower process.pathRoot newTruePath = some target ∧
        relocation towlower (fileTree towlower toTree box.file) newTruePath = some target
  | _ => True

variable (towlower) in
/-- A later step on the path of a call can take it back. -/
def Event.Undoes (event : Event ι) : Event ι → Prop
  | .markDeleted _ truePath _ _ => event.UndoesDeletion towlower truePath
  | .setRelocation _ _ newTruePath _ _ => event.UndoesRelocation towlower newTruePath
  | _ => False

/-- **No lost deletion or rename.**  In a run in which each call that rewrites the file is made by
a process that knows what is in it, what a call has recorded is in the file at every later time,
unless a later step on its path takes it back. -/
theorem recorded {box called returned later : Box ι} {before after : List (Event ι)}
    {event : Event ι} (hready : Ready towlower box)
    (hbefore : Steps towlower toFile toTree box before called)
    (hstep : step towlower toFile toTree called event = some returned)
    (hmeets : Meets towlower toFile toTree called event)
    (hafter : Steps towlower toFile toTree returned after later)
    (hundo : ∀ event' ∈ after, ¬event'.Undoes towlower event) :
    Recorded towlower toTree returned later event := by
  have hcalled := hbefore.ready hready
  have hreturned := (step_keeps hcalled hstep hmeets).ready
  cases event with
  | markDeleted i truePath canOpen date =>
    exact hafter.deleted hreturned hundo (deletion_recorded hcalled hstep hmeets)
  | setRelocation i oldTruePath newTruePath canOpen date =>
    intro hmoves hunder
    obtain ⟨process, target, hprocess, htarget, hfile⟩ :=
      relocation_recorded hstep hmeets hmoves hunder
    exact ⟨process, target, hprocess, htarget, hafter.relocation hreturned hundo hfile⟩
  | start | remember | refresh | reload => trivial

end Fold

def startedBox : Box Bool where
  file := some ⟨[], 0⟩
  processes := fun _ => some ⟨.nil, ⟨0, 0⟩, .idle⟩

def refreshedSteps : List (Event Bool) :=
  [.refresh true true, .reload true true 2, .markDeleted true (wide ['\\', 'b']) true 3]

/-- One process deletes `\a`, and the other one `\b` when it has read the file again. -/
theorem recorded_refreshed : ∃ returned later,
    step asciiLower noTranslation noTranslation startedBox
      (.markDeleted false (wide ['\\', 'a']) true 1) = some returned ∧
    Steps asciiLower noTranslation noTranslation returned refreshedSteps later ∧
    Recorded asciiLower noTranslation returned later
      (.markDeleted false (wide ['\\', 'a']) true 1 : Event Bool) := by
  have hready : Ready asciiLower startedBox := by
    refine ⟨fun f hf => ?_, fun i process hprocess => ?_⟩
    · cases hf
      exact ⟨not_mem_nil, .inl rfl⟩
    · cases hprocess
      trivial
  have happendable : ∀ path : List WChar, Writable path →
      Appendable noTranslation noTranslation path := fun path h => ⟨h, rfl⟩
  have hmeets : Meets asciiLower noTranslation noTranslation startedBox
      (.markDeleted false (wide ['\\', 'a']) true 1) := by
    refine ⟨rfl, by decide, fun process hprocess => ?_⟩
    cases hprocess
    exact happendable _ ⟨by decide, by decide, by decide⟩
  have hruns : ∃ returned later,
      step asciiLower noTranslation noTranslation startedBox
        (.markDeleted false (wide ['\\', 'a']) true 1) = some returned ∧
      Steps asciiLower noTranslation noTranslation returned refreshedSteps later := by
    refine ⟨_, _, rfl, .cons rfl trivial (.cons rfl trivial (.cons rfl ?_ (.nil _)))⟩
    refine ⟨rfl, by decide, fun process hprocess => ?_⟩
    cases hprocess
    exact happendable _ ⟨by decide, by decide, by decide⟩
  obtain ⟨returned, later, hstep, hsteps⟩ := hruns
  refine ⟨returned, later, hstep, hsteps, recorded hready (.nil _) hstep hmeets hsteps ?_⟩
  intro event hevent
  simp only [refreshedSteps, mem_cons, not_mem_nil, or_false] at hevent
  obtain rfl | rfl | rfl := hevent <;> exact id

/-- The other process deletes `\b` without having read the file again: its tree has no `\a`, and
the file is written of that. -/
theorem recorded_lost :
    ¬∀ (returned later : Box Bool) (event : Event Bool) (after : List (Event Bool)),
      step asciiLower noTranslation noTranslation startedBox event = some returned →
      Run (fun box event box' =>
          step asciiLower noTranslation noTranslation box event = some box') (fun _ _ => True)
        returned after later →
      (∀ event' ∈ after, ¬event'.Undoes asciiLower event) →
      Recorded asciiLower noTranslation returned later event := by
  intro h
  have hruns : ∃ returned later,
      step asciiLower noTranslation noTranslation startedBox
        (.markDeleted false (wide ['\\', 'a']) true 1) = some returned ∧
      step asciiLower noTranslation noTranslation returned
        (.markDeleted true (wide ['\\', 'b']) true 2) = some later ∧
      deletedStatus asciiLower (fileTree asciiLower noTranslation later.file)
        (wide ['\\', 'a']) = 0 :=
    ⟨_, _, rfl, rfl, by decide⟩
  obtain ⟨returned, later, hstep, hnext, hgone⟩ := hruns
  refine h returned later _ _ hstep (.cons hnext trivial (.nil _)) ?_ hgone
  intro event hevent
  obtain rfl := mem_singleton.mp hevent
  exact id

end Sandboxie.PathTree
