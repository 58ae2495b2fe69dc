import Sandboxie.Drv.ExpandBalance
import Sandboxie.Common.MapMemory

/-!
# Strings that come back with their length

`Mem_FreeString` gives a string back with the size that it computes from the length the string
has by then.  `Process_CheckForceFolderList` of `core/drv/process_force.c` cuts its copy of a
path behind the folder, and `Process_AddPath_2` of `core/drv/process_util.c` takes backslashes out
of its copy of a setting; both then have the shorter string given back.
-/

namespace Sandboxie.StringReturn

open Text Blocks ConfExpand List

/-! ### Forced folders -/

structure ForceEntry (π : Type) where
  pat : Option π
  len : Nat
  buf : List WChar

section Folders

variable {π : Type} (env : Env) (patternMatch : π → List WChar → Bool)
  (nlsSame : List WChar → List WChar → Bool)

/-- The copy of a path that is cut at `prefix_len`; a cut behind its end is a write outside. -/
def cutPath (path : List WChar) (prefixLen : Nat) : Prog (Option WString) := do
  match ← memAllocString env path with
  | none => return none
  | some copy =>
    if path.length < prefixLen then fun _ => none
    else return some { copy with text := (copy.text.take prefixLen).map env.towlower }

/-- The copy is made once. -/
def cutOnce (path : List WChar) (prefixLen : Nat) : Option WString → Prog (Option WString)
  | some pathLwr => return some pathLwr
  | none => cutPath env path prefixLen

def folderMatch (path : List WChar) (prefixLen : Nat) (folder : ForceEntry π) : Bool :=
  folder.len ≠ 0 && folder.len ≤ prefixLen && path[folder.len]? = some backslash &&
    nlsSame (path.take folder.len) (folder.buf.take folder.len)

/-- The loop of `Process_CheckForceFolderList`. -/
def checkFolders (path : List WChar) (prefixLen : Nat) :
    List (ForceEntry π) → Option WString → Prog (Bool × Option WString)
  | [], pathLwr => return (false, pathLwr)
  | folder :: rest, pathLwr =>
    match folder.pat with
    | some pat => do
      let pathLwr ← cutOnce env path prefixLen pathLwr
      if pathLwr.any fun s => patternMatch pat s.text then return (true, pathLwr)
      else checkFolders path prefixLen rest pathLwr
    | none =>
      if folderMatch nlsSame path prefixLen folder then return (true, pathLwr)
      else checkFolders path prefixLen rest pathLwr

/-- `Process_CheckForceFolderList` -/
def checkForceFolderList (forceFolder : List (ForceEntry π)) (prefixLen : Nat)
    (path : List WChar) : Prog Bool := do
  let r ← checkFolders env patternMatch nlsSame path prefixLen forceFolder none
  match r.2 with
  | none => return r.1
  | some pathLwr =>
    memFreeString pathLwr
    return r.1

/-- The loop comes to have a copy of the path: before a folder without wildcards matches there
is one with wildcards, and memory for the copy. -/
def copies (path : List WChar) (prefixLen : Nat) : List (ForceEntry π) → Nat → Bool
  | [], _ => false
  | folder :: rest, n =>
    match folder.pat with
    | some _ => env.grant n || copies path prefixLen rest (n + 1)
    | none =>
      if folderMatch nlsSame path prefixLen folder then false
      else copies path prefixLen rest n

variable {env patternMatch nlsSame} {path : List WChar} {prefixLen : Nat}

theorem checkFolders_some (pathLwr : WString) (folders : List (ForceEntry π)) (n : Nat)
    (pre : List (Nat × Nat)) :
    Does n pre (checkFolders env patternMatch nlsSame path prefixLen folders (some pathLwr))
      fun r _ bs => r.2 = some pathLwr ∧ bs = pre := by
  induction folders generalizing n with
  | nil => exact .pure ⟨rfl, rfl⟩
  | cons folder rest ih =>
    rw [checkFolders]
    split
    · refine Does.seq (fun r n' bs => r = some pathLwr ∧ bs = pre) (.pure ⟨rfl, rfl⟩) ?_
      rintro r n' bs - ⟨rfl, rfl⟩
      split
      · exact .pure ⟨rfl, rfl⟩
      · exact ih n'
    · split
      · exact .pure ⟨rfl, rfl⟩
      · exact ih n

/-- The copy at the end: as long as the folder, in a block for the whole path. -/
def HasCopy (path : List WChar) (prefixLen : Nat) (r : Option WString)
    (bs : List (Nat × Nat)) : Prop :=
  ∃ id s, r = some s ∧ s.block = some id ∧ s.text.length = prefixLen ∧
    bs = [(id, (path.length + 1) * 2)]

theorem cutPath_granted {n : Nat} (hgrant : env.grant n = true) (hle : prefixLen ≤ path.length) :
    Does n [] (cutPath env path prefixLen) fun r _ bs => HasCopy path prefixLen r bs := by
  refine Does.seq (fun r _ bs => ∃ id, r = some { block := some id, text := path } ∧
    bs = [(id, (path.length + 1) * 2)]) ?_ ?_
  · refine Does.seq (fun block _ bs => block = some n ∧
      bs = [(n, (path.length + 1) * 2)]) (.alloc (fun _ => ⟨rfl, rfl⟩) fun hno => ?_) ?_
    · rw [hgrant] at hno
      cases hno
    · rintro block n' bs - ⟨rfl, rfl⟩
      exact .pure ⟨n, rfl, rfl⟩
  · rintro r n' bs - ⟨id, rfl, rfl⟩
    dsimp only
    rw [if_neg (Nat.not_lt.mpr hle)]
    refine .pure ⟨id, _, rfl, rfl, ?_, rfl⟩
    rw [length_map, length_take, Nat.min_eq_left hle]

theorem cutPath_refused {n : Nat} (hgrant : env.grant n = false) :
    Does n [] (cutPath env path prefixLen) fun r n' bs => r = none ∧ n' = n + 1 ∧ bs = [] := by
  refine Does.seq (fun r n' bs => r = none ∧ n' = n + 1 ∧ bs = []) ?_ ?_
  · refine Does.seq (fun block n' bs => block = none ∧ n' = n + 1 ∧ bs = [])
      (.alloc (fun hyes => ?_) fun _ => ⟨rfl, rfl, rfl⟩) ?_
    · rw [hgrant] at hyes
      cases hyes
    · rintro block n' bs - ⟨rfl, rfl, rfl⟩
      exact .pure ⟨rfl, rfl, rfl⟩
  · rintro r n' bs - ⟨rfl, rfl, rfl⟩
    exact .pure ⟨rfl, rfl, rfl⟩

theorem cutPath_outside {n : Nat} (hgrant : env.grant n = true) (hlt : path.length < prefixLen) :
    Faults n [] (cutPath env path prefixLen) := by
  refine @Faults.bind_after _ _ _ _ _ _ (fun r _ _ => ∃ s, r = some s) ?_ ?_
  · refine Does.seq (fun block _ _ => block = some n) (.alloc (fun _ => rfl) fun hno => ?_)
      ?_
    · rw [hgrant] at hno
      cases hno
    · rintro block n' bs - rfl
      exact .pure ⟨_, rfl⟩
  · rintro r n' bs - ⟨s, rfl⟩
    dsimp only
    rw [if_pos hlt]
    rfl

theorem checkFolders_without (folders : List (ForceEntry π)) (n : Nat)
    (h : copies env nlsSame path prefixLen folders n = false) :
    Does n [] (checkFolders env patternMatch nlsSame path prefixLen folders none)
      fun r _ bs => r.2 = none ∧ bs = [] := by
  induction folders generalizing n with
  | nil => exact .pure ⟨rfl, rfl⟩
  | cons folder rest ih =>
    rw [copies] at h
    rw [checkFolders]
    split
    · rename_i pat hpat
      rw [hpat] at h
      obtain ⟨hgrant, hrest⟩ := Bool.or_eq_false_iff.mp h
      refine (cutPath_refused hgrant).bind ?_
      rintro r n' bs - ⟨rfl, rfl, rfl⟩
      exact ih (n + 1) hrest
    · rename_i hpat
      rw [hpat] at h
      split
      · exact .pure ⟨rfl, rfl⟩
      · rename_i hother
        rw [if_neg hother] at h
        exact ih n h

theorem checkFolders_with (hle : prefixLen ≤ path.length) (folders : List (ForceEntry π)) (n : Nat)
    (h : copies env nlsSame path prefixLen folders n = true) :
    Does n [] (checkFolders env patternMatch nlsSame path prefixLen folders none)
      fun r _ bs => HasCopy path prefixLen r.2 bs := by
  induction folders generalizing n with
  | nil => exact nomatch h
  | cons folder rest ih =>
    rw [copies] at h
    rw [checkFolders]
    split
    · rename_i pat hpat
      rw [hpat] at h
      cases hgrant : env.grant n with
      | false =>
        refine (cutPath_refused hgrant).bind ?_
        rintro r n' bs - ⟨rfl, rfl, rfl⟩
        exact ih (n + 1) ((Bool.or_eq_true_iff.mp h).resolve_left (by simp [hgrant]))
      | true =>
        refine (cutPath_granted hgrant hle).bind ?_
        rintro r n' bs - hcopy
        obtain ⟨id, s, rfl, hid, hlen, rfl⟩ := hcopy
        split
        · exact .pure ⟨id, s, rfl, hid, hlen, rfl⟩
        · refine (checkFolders_some s rest n' _).mono ?_
          rintro r n'' bs - ⟨hr, rfl⟩
          exact ⟨id, s, hr, hid, hlen, rfl⟩
    · rename_i hpat
      rw [hpat] at h
      split
      · rename_i hmatch
        rw [if_pos hmatch] at h
        cases h
      · rename_i hother
        rw [if_neg hother] at h
        exact ih n h

theorem checkFolders_outside (hlt : path.length < prefixLen) (folders : List (ForceEntry π))
    (n : Nat) (h : copies env nlsSame path prefixLen folders n = true) :
    Faults n [] (checkFolders env patternMatch nlsSame path prefixLen folders none) := by
  induction folders generalizing n with
  | nil => exact nomatch h
  | cons folder rest ih =>
    rw [copies] at h
    rw [checkFolders]
    split
    · rename_i pat hpat
      rw [hpat] at h
      cases hgrant : env.grant n with
      | false =>
        refine Faults.bind_after (cutPath_refused hgrant) ?_
        rintro r n' bs - ⟨rfl, rfl, rfl⟩
        exact ih (n + 1) ((Bool.or_eq_true_iff.mp h).resolve_left (by simp [hgrant]))
      | true => exact (cutPath_outside hgrant hlt).bind
    · rename_i hpat
      rw [hpat] at h
      split
      · rename_i hmatch
        rw [if_pos hmatch] at h
        cases h
      · rename_i hother
        rw [if_neg hother] at h
        exact ih n h

/-- **The copy of the path comes back with its size** exactly when there is none, or nothing was
cut. -/
theorem checkForceFolderList_iff (forceFolder : List (ForceEntry π)) (n : Nat) :
    Clean (checkForceFolderList env patternMatch nlsSame forceFolder prefixLen path) n ↔
      copies env nlsSame path prefixLen forceFolder n = false ∨ prefixLen = path.length := by
  cases hcopies : copies env nlsSame path prefixLen forceFolder n with
  | false =>
    refine iff_of_true (@Does.clean _ _ _ (fun _ _ _ => True) ?_) (.inl rfl)
    refine (checkFolders_without forceFolder n hcopies).bind ?_
    rintro ⟨found, copy⟩ n' bs - ⟨hnone, -⟩
    obtain rfl : copy = none := hnone
    exact .pure trivial
  | true =>
    have hshort : (true = false ∨ prefixLen = path.length) ↔ prefixLen = path.length :=
      or_iff_right (by decide)
    rw [hshort]
    rcases Nat.lt_or_ge path.length prefixLen with hlt | hle
    · refine iff_of_false (Faults.not_clean ?_) (Nat.ne_of_gt hlt)
      exact (checkFolders_outside hlt forceFolder n hcopies).bind
    have hloop := @checkFolders_with _ env patternMatch _ _ _ hle forceFolder n hcopies
    constructor
    · intro hclean
      by_contra hne
      refine Faults.not_clean (Faults.bind_after hloop ?_) hclean
      rintro ⟨found, copy⟩ n' bs - ⟨id, s, hs, hid, hlen, rfl⟩
      obtain rfl : copy = some s := hs
      refine Faults.bind ?_
      rw [memFreeString, hid]
      refine Faults.free fun hmem => hne ?_
      have hsize := congrArg Prod.snd (mem_singleton.mp hmem)
      simp only [WString.size] at hsize
      omega
    · intro heq
      refine @Does.clean _ _ _ (fun _ _ _ => True) (hloop.bind ?_)
      rintro ⟨found, copy⟩ n' bs - ⟨id, s, hs, hid, hlen, rfl⟩
      obtain rfl : copy = some s := hs
      refine Does.seq (fun _ _ _ => True) ?_ (fun _ _ _ _ _ => .pure trivial)
      rw [memFreeString, hid, WString.size, hlen, heq]
      exact .free (mem_singleton_self _) trivial

end Folders

/-! ### Paths of settings -/

/-- What the path lists are told from outside besides. -/
structure PathEnv extends Env where
  /-- What `File_TranslateReparsePoints` makes of a path. -/
  reparsePoint : Nat → List WChar → Option (List WChar)
  /-- Whether `Pattern_Create` has the memory it needs. -/
  patternCreate : Nat → Bool

/-- The loop of `Process_AddPath_2` that copies a path without duplicate backslashes. -/
def withoutDoubles : List WChar → List WChar
  | [] => []
  | c :: rest =>
    if c = backslash && rest.head? = some backslash then withoutDoubles rest
    else c :: withoutDoubles rest

/-- The flags of `Process_AddPath_2`. -/
structure AddFlags where
  addFirst : Bool
  addStar : Bool
  removeBackslashes : Bool
  checkReparse : Bool
  level : Nat

abbrev PathList := List (List WChar × Nat)

section Paths

variable (env : PathEnv) (args : Args)

def stars (flags : AddFlags) (expand : List WChar) : Bool := flags.addStar && !expand.contains 42

def tmpText (flags : AddFlags) (expand : List WChar) : List WChar :=
  (if flags.removeBackslashes then withoutDoubles expand else expand) ++
    if stars flags expand then [42] else []

def tmpSize (flags : AddFlags) (expand : List WChar) : Nat :=
  (expand.length + 1) * 2 + if stars flags expand then 2 else 0

/-- `File_TranslateReparsePoints`; the memory is as long as what is put there. -/
def translateReparsePoints (path : List WChar) : Prog (Option WString) := do
  match ← ask fun t => env.reparsePoint t path with
  | none => return none
  | some full => memAllocString env.toEnv full

/-- The check for reparse points, with `*Reparsed` where it is written. -/
def checkReparsed (checkReparse : Bool) (tmp : WString) : Prog (WString × Option Bool) :=
  if checkReparse then do
    match ← translateReparsePoints env tmp.text with
    | some tmp2 =>
      memFreeString tmp
      return (tmp2, some !sameNoCase env.towlower tmp.text tmp2.text)
    | none => return (tmp, some false)
  else return (tmp, none)

/-- The end of `Process_AddPath_2`: the pattern is made, and both strings go back. -/
def addPattern (flags : AddFlags) (list : PathList) (tmp expand : WString) :
    Prog (Bool × Option Bool × PathList) := do
  let r ← checkReparsed env flags.checkReparse tmp
  let created ← ask env.patternCreate
  memFreeString r.1
  memFreeString expand
  let pat := (r.1.text, flags.level)
  return (created, r.2,
    if created then if flags.addFirst then pat :: list else list ++ [pat] else list)

/-- `Process_AddPath_2` with the expanded value. -/
def addExpanded (flags : AddFlags) (list : PathList) (expand : WString) :
    Prog (Bool × Option Bool × PathList) := do
  match ← alloc env.grant (tmpSize flags expand.text) with
  | none =>
    memFreeString expand
    return (false, none, list)
  | some tmp =>
    addPattern env flags list { block := some tmp, text := tmpText flags expand.text } expand

/-- `Process_AddPath_2`: the result, `*Reparsed` and the list. -/
def addPath2 (flags : AddFlags) (list : PathList) (value : List WChar)
    (settingName : Option (List WChar)) : Prog (Bool × Option Bool × PathList) := do
  match ← confExpand env.toEnv args (retryLimit + 1) value settingName with
  | none => return (false, none, list)
  | some expand => addExpanded env flags list expand

/-- No backslash is taken out of the expanded value, where the copy is made at all. -/
def KeepsLength (flags : AddFlags) (value : List WChar) (settingName : Option (List WChar))
    (n : Nat) : Prop :=
  ∀ expand h,
    confExpand env.toEnv args (retryLimit + 1) value settingName ⟨[], n⟩ = some (some expand, h) →
      env.grant h.clock = true → flags.removeBackslashes = true →
        ¬[backslash, backslash] <:+: expand.text

variable {env args}

theorem length_withoutDoubles_le (text : List WChar) :
    (withoutDoubles text).length ≤ text.length := by
  induction text with
  | nil => exact Nat.le_refl 0
  | cons c rest ih =>
    rw [withoutDoubles]
    split
    · exact Nat.le_succ_of_le ih
    · exact Nat.succ_le_succ ih

theorem length_withoutDoubles_iff (text : List WChar) :
    (withoutDoubles text).length = text.length ↔ ¬[backslash, backslash] <:+: text := by
  induction text with
  | nil => exact iff_of_true rfl fun h => by cases infix_nil.mp h
  | cons c rest ih =>
    rw [withoutDoubles, infix_cons_iff, not_or]
    split
    · rename_i hdouble
      obtain ⟨hc, hrest⟩ := (Bool.and_eq_true _ _).mp hdouble
      have hle := length_withoutDoubles_le rest
      refine iff_of_false (by rw [length_cons]; omega) fun h => h.1 ?_
      cases rest with
      | nil => simp at hrest
      | cons d rest =>
        have hc' : c = backslash := of_decide_eq_true hc
        have hd' : d = backslash := by simpa using hrest
        rw [hc', hd']
        exact ⟨rest, rfl⟩
    · rename_i hsingle
      have hnot : ¬[backslash, backslash] <+: c :: rest := by
        rintro ⟨tail, htail⟩
        obtain ⟨hc, hrest⟩ := List.cons.inj htail
        refine hsingle ?_
        rw [← hrest, ← hc]
        rfl
      rw [length_cons, length_cons, Nat.succ_inj, ih]
      exact ⟨fun h => ⟨hnot, h⟩, And.right⟩

theorem tmpSize_iff (flags : AddFlags) (expand : List WChar) :
    ((tmpText flags expand).length + 1) * 2 = tmpSize flags expand ↔
      (flags.removeBackslashes = true → ¬[backslash, backslash] <:+: expand) := by
  rw [← length_withoutDoubles_iff, tmpText, tmpSize, length_append]
  cases flags.removeBackslashes with
  | true =>
    rw [if_pos rfl]
    have himp : (true = true → (withoutDoubles expand).length = expand.length) ↔
        (withoutDoubles expand).length = expand.length := by simp
    rw [himp]
    split
    · rw [length_singleton]
      omega
    · rw [length_nil]
      omega
  | false =>
    refine iff_of_true ?_ nofun
    rw [if_neg Bool.false_ne_true]
    split
    · rw [length_singleton]
      omega
    · rw [length_nil]
      omega

def HoldsBoth (expand : WString) (e : Nat) (tmp : WString) (bs : List (Nat × Nat)) : Prop :=
  ∃ id, tmp.block = some id ∧ bs = [(id, tmp.size), (e, expand.size)]

theorem translateReparsePoints_does (path : List WChar) (n : Nat) (pre : List (Nat × Nat)) :
    Does n pre (translateReparsePoints env path) fun r n' bs =>
      ∃ bs', Given n r n' bs' ∧ bs = bs' ++ pre := by
  refine Does.seq (fun _ _ bs => bs = pre) (.ask rfl) ?_
  rintro (_ | full) n' bs hle rfl
  · exact .pure ⟨[], rfl, rfl⟩
  · refine ((memAllocString_does full n').frame bs).mono ?_
    rintro r n'' bs' - ⟨bs'', rfl, hgiven⟩
    exact ⟨bs'', hgiven.earlier hle, rfl⟩

variable {expand tmp : WString} {e n : Nat}

theorem checkReparsed_does {bs : List (Nat × Nat)}
    (h : HoldsBoth expand e tmp bs) (checkReparse : Bool) :
    Does n bs (checkReparsed env checkReparse tmp) fun r _ bs' => HoldsBoth expand e r.1 bs' := by
  obtain ⟨id, hid, rfl⟩ := h
  cases checkReparse with
  | false => exact .pure ⟨id, hid, rfl⟩
  | true =>
    refine (translateReparsePoints_does tmp.text n _).bind ?_
    rintro (_ | tmp2) n' bs' - ⟨bs'', hgiven, rfl⟩
    · obtain rfl : bs'' = [] := hgiven
      exact .pure ⟨id, hid, rfl⟩
    · obtain ⟨id2, hid2, -, -, rfl⟩ := hgiven
      refine Does.seq (fun _ _ bs' => bs' = [(id2, tmp2.size), (e, expand.size)]) ?_ ?_
      · rw [memFreeString, hid]
        exact .free (mem_cons_of_mem _ mem_cons_self) (erase_second _ _ _)
      · rintro - n'' bs' - rfl
        exact .pure ⟨id2, hid2, rfl⟩

theorem addPattern_does {bs : List (Nat × Nat)}
    (h : HoldsBoth expand e tmp bs) (he : expand.block = some e) (flags : AddFlags)
    (list : PathList) :
    Does n bs (addPattern env flags list tmp expand) fun _ _ bs' => bs' = [] := by
  refine (checkReparsed_does h flags.checkReparse).bind ?_
  rintro r n' bs' - ⟨id, hid, rfl⟩
  refine Does.seq (fun _ _ bs' => bs' = [(id, r.1.size), (e, expand.size)]) (.ask rfl) ?_
  rintro created n'' bs' - rfl
  refine Does.seq (fun _ _ bs' => bs' = [(e, expand.size)]) ?_ ?_
  · rw [memFreeString, hid]
    exact .free mem_cons_self (erase_cons_head ..)
  · rintro - n'' bs' - rfl
    refine Does.seq (fun _ _ bs' => bs' = []) ?_ ?_
    · rw [memFreeString, he]
      exact .free mem_cons_self (erase_cons_head ..)
    · rintro - n'' bs' - rfl
      exact .pure rfl

theorem checkReparsed_faults {id : Nat} {pre : List (Nat × Nat)}
    (hid : tmp.block = some id) (hnot : (id, tmp.size) ∉ pre) (hn : id < n)
    (checkReparse : Bool) :
    Faults n pre (checkReparsed env checkReparse tmp) ∨
      Does n pre (checkReparsed env checkReparse tmp) fun r _ bs => r.1 = tmp ∧ bs = pre := by
  cases checkReparse with
  | false => exact .inr (.pure ⟨rfl, rfl⟩)
  | true =>
    obtain ⟨r, n', bs, hle, ⟨bs', hgiven, rfl⟩, hrun⟩ :=
      @translateReparsePoints_does env tmp.text n pre
    have hstep : Does n pre (translateReparsePoints env tmp.text) fun a _ bs =>
        a = r ∧ bs = bs' ++ pre := ⟨r, n', _, hle, ⟨rfl, rfl⟩, hrun⟩
    cases r with
    | none =>
      obtain rfl : bs' = [] := hgiven
      refine .inr (hstep.bind ?_)
      rintro a n'' bs - ⟨rfl, rfl⟩
      exact .pure ⟨rfl, rfl⟩
    | some tmp2 =>
      obtain ⟨id2, -, hle2, -, rfl⟩ := hgiven
      refine .inl (Faults.bind_after hstep ?_)
      rintro a n'' bs - ⟨rfl, rfl⟩
      refine Faults.bind ?_
      rw [memFreeString, hid]
      refine .free fun hmem => ?_
      rcases mem_cons.mp hmem with heq | hmem
      · have hsame : id = id2 := congrArg Prod.fst heq
        omega
      · exact hnot hmem

theorem addPattern_faults {id : Nat} {pre : List (Nat × Nat)}
    (hid : tmp.block = some id) (hnot : (id, tmp.size) ∉ pre) (hn : id < n) (flags : AddFlags)
    (list : PathList) : Faults n pre (addPattern env flags list tmp expand) := by
  rcases @checkReparsed_faults env _ _ _ _ hid hnot hn flags.checkReparse with hfault | hsame
  · exact hfault.bind
  refine Faults.bind_after hsame ?_
  rintro r n' bs - ⟨hr, rfl⟩
  refine Faults.bind_after (@Does.ask _ _ _ (fun _ _ bs' => bs' = bs) _ rfl) ?_
  rintro created n'' bs' - rfl
  rw [hr]
  refine Faults.bind ?_
  rw [memFreeString, hid]
  exact .free hnot

theorem addExpanded_cases (he : expand.block = some e) (hn : e < n)
    (flags : AddFlags) (list : PathList) :
    if env.grant n = true → flags.removeBackslashes = true →
        ¬[backslash, backslash] <:+: expand.text then
      Does n [(e, expand.size)] (addExpanded env flags list expand) fun _ _ _ => True
    else Faults n [(e, expand.size)] (addExpanded env flags list expand) := by
  have halloc : Does n [(e, expand.size)] (alloc env.grant (tmpSize flags expand.text))
      fun block n' bs => n' = n + 1 ∧ block = (if env.grant n then some n else none) ∧
        bs = (block.map fun id => (id, tmpSize flags expand.text)).toList ++ [(e, expand.size)] :=
    .alloc (fun h => ⟨rfl, (if_pos h).symm, rfl⟩)
      fun h => ⟨rfl, (if_neg (by rw [h]; exact Bool.false_ne_true)).symm, rfl⟩
  cases hgrant : env.grant n with
  | false =>
    rw [if_pos nofun]
    refine halloc.bind ?_
    rintro block n' bs - ⟨-, hblock, rfl⟩
    rw [hgrant] at hblock
    obtain rfl : block = none := hblock
    refine Does.seq (fun _ _ _ => True) ?_ fun _ _ _ _ _ => .pure trivial
    rw [memFreeString, he]
    exact .free mem_cons_self trivial
  | true =>
    have hcond : (true = true → flags.removeBackslashes = true →
        ¬[backslash, backslash] <:+: expand.text) ↔
        ((tmpText flags expand.text).length + 1) * 2 = tmpSize flags expand.text :=
      (forall_prop_of_true rfl).trans (tmpSize_iff flags expand.text).symm
    split
    · rename_i hkeeps
      refine halloc.bind ?_
      rintro block n' bs - ⟨-, hblock, rfl⟩
      rw [hgrant] at hblock
      obtain rfl : block = some n := hblock
      have hboth : HoldsBoth expand e { block := some n, text := tmpText flags expand.text }
          [(n, tmpSize flags expand.text), (e, expand.size)] := by
        rw [← hcond.mp hkeeps]
        exact ⟨n, rfl, rfl⟩
      exact (addPattern_does hboth he flags list).mono fun _ _ _ _ _ => trivial
    · rename_i hshorter
      have hsize := mt hcond.mpr hshorter
      refine Faults.bind_after halloc ?_
      rintro block n' bs - ⟨rfl, hblock, rfl⟩
      rw [hgrant] at hblock
      obtain rfl : block = some n := hblock
      refine addPattern_faults rfl ?_ (Nat.lt_succ_self n) flags list
      intro hmem
      rcases mem_cons.mp hmem with heq | hmem
      · exact hsize (congrArg Prod.snd heq)
      · have hsame : n = e := congrArg Prod.fst (mem_singleton.mp hmem)
        omega

/-- **The temporary string comes back with its size** exactly when no backslash was taken out of
the expanded value. -/
theorem addPath2_iff (flags : AddFlags) (list : PathList) (value : List WChar)
    (settingName : Option (List WChar)) (n : Nat) :
    Clean (addPath2 env args flags list value settingName) n ↔
      KeepsLength env args flags value settingName n := by
  obtain ⟨r, n', bs, hle, hends, hrun⟩ :=
    @confExpand_does env.toEnv args _ (Nat.lt_succ_self _) value settingName n
  have hrun₀ := hrun []
  rw [append_nil, append_nil] at hrun₀
  have hstep : Does n [] (confExpand env.toEnv args (retryLimit + 1) value settingName)
      fun a m cs => a = r ∧ m = n' ∧ cs = bs := ⟨r, n', bs, hle, ⟨rfl, rfl, rfl⟩, hrun⟩
  cases r with
  | none =>
    refine iff_of_true (@Does.clean _ _ _ (fun _ _ _ => True) (hstep.bind ?_)) ?_
    · rintro a m cs - ⟨rfl, rfl, rfl⟩
      exact .pure trivial
    · intro expand h hexpand
      rw [hrun₀] at hexpand
      cases hexpand
  | some expand =>
    obtain ⟨-, e, he, -, hlt, rfl⟩ : _ ∧ Given 0 (some expand) n' bs := by
      rcases hends with hin | ⟨-, hnone, -⟩
      · exact hin
      · cases hnone
    have hkeeps : KeepsLength env args flags value settingName n ↔
        (env.grant n' = true → flags.removeBackslashes = true →
          ¬[backslash, backslash] <:+: expand.text) := by
      constructor
      · intro h
        exact h expand _ hrun₀
      · intro h expand' h' hexpand
        obtain ⟨hsome, rfl⟩ := Prod.mk.inj (Option.some.inj (hrun₀.symm.trans hexpand))
        cases hsome
        exact h
    rw [hkeeps]
    have hcases := @addExpanded_cases env _ _ _ he hlt flags list
    split at hcases
    · rename_i hfits
      refine iff_of_true (@Does.clean _ _ _ (fun _ _ _ => True) (hstep.bind ?_)) hfits
      rintro a m cs - ⟨rfl, rfl, rfl⟩
      exact hcases
    · rename_i hshorter
      refine iff_of_false (Faults.not_clean (Faults.bind_after hstep ?_)) hshorter
      rintro a m cs - ⟨rfl, rfl, rfl⟩
      exact hcases

end Paths

/-! ### Maps and strings together -/

open PoolAlloc MapMemory

/-- **Memory comes back as it was taken**: for every run of a map's calls exactly when all that
goes back is roomy, for the copy of a path exactly when it is not made or not cut, and for the
copy of a setting exactly when no backslash is taken out of it.  What comes back so has the
effect on the pool that it has with its own size. -/
theorem memory_returned_iff (L : Layout) :
    (∀ {κ : Type} [DecidableEq κ] (K : Kind κ) (ops : List (Op κ)) (s : Memory K)
      (rs : List Return), ({} : Memory K).run ops = some (s, rs) →
        ((∀ r ∈ rs, r.Exact L) ↔ Run (Memory.Steps K) (Memory.Meets L) {} ops s)) ∧
    (∀ {π : Type} (env : Env) (patternMatch : π → List WChar → Bool)
      (nlsSame : List WChar → List WChar → Bool) (forceFolder : List (ForceEntry π))
      (prefixLen : Nat) (path : List WChar) (n : Nat),
        Clean (checkForceFolderList env patternMatch nlsSame forceFolder prefixLen path) n ↔
          copies env nlsSame path prefixLen forceFolder n = false ∨ prefixLen = path.length) ∧
    (∀ (env : PathEnv) (args : Args) (flags : AddFlags) (list : PathList) (value : List WChar)
      (settingName : Option (List WChar)) (n : Nat),
        Clean (addPath2 env args flags list value settingName) n ↔
          KeepsLength env args flags value settingName n) ∧
    ∀ {tag : BitVec 32} {memory : Option Nat} {lock : Bool} {pool : Pool}
      {calls : List Call} {s : PoolAlloc.State} (b : Block) (given : Nat),
      (∀ ptr, memory = some ptr → L.pageSize ∣ ptr) →
        createTagged L tag memory lock = some pool →
          Calls L { pool := pool, live := [] } calls s → b ∈ s.live →
            Return.Exact L ⟨b.size, given⟩ →
              ∃ s', PoolAlloc.free L s.pool b.ptr given = .ok s'.pool ∧
                s'.live = s.live.erase b ∧ Sound L s' := by
  refine ⟨fun K ops s rs hrun => Memory.run_exact_iff Memory.inv_empty hrun,
    fun env patternMatch nlsSame forceFolder prefixLen path n =>
      checkForceFolderList_iff forceFolder n,
    fun env args flags list value settingName n => addPath2_iff flags list value settingName n, ?_⟩
  intro tag memory lock pool calls s b given hmemory hpool hcalls hb hexact
  have hinv := hcalls.inv (createTagged_inv hmemory hpool)
  obtain ⟨s', hcall, hinv'⟩ := call_step hinv (c := .free b.ptr b.size) hb
  rw [call] at hcall
  split at hcall
  · cases hcall
  · rename_i pool' hfree
    cases hcall
    exact ⟨_, (free_of_exact hinv hb hexact).trans hfree, rfl, hinv'.sound⟩

def pidKind : Kind Nat where
  toKeys := MapIter.State.natKeys
  pointer := 8
  keySize _ := 8

/-- A node without a value takes three cells and gives two back, and of the path `\a\b` that was
copied for a folder with wildcards 6 bytes of 10 are given back. -/
theorem memory_not_returned :
    (∃ (s : Memory pidKind) (rs : List Return),
      ({} : Memory pidKind).run [.add 1 0 true, .take 1] = some (s, rs) ∧
        ¬∀ r ∈ rs, r.Exact kernel64) ∧
    ¬Clean (checkForceFolderList plainEnv (fun (_ : Unit) _ => true) (fun _ _ => false)
      [{ pat := some (), len := 0, buf := [] }] 2 [92, 97, 92, 98]) 0 := by
  constructor
  · obtain ⟨⟨s, rs⟩, hrun, hrs⟩ := Option.map_eq_some_iff.mp
      (show (({} : Memory pidKind).run [.add 1 0 true, .take 1]).map Prod.snd =
        some [⟨40, 32⟩] by decide +kernel)
    obtain rfl : rs = [⟨8 + 32, 32⟩] := hrs
    refine ⟨s, _, hrun, fun hall => ?_⟩
    have hroomy := (exact_iff_roomy (L := kernel64) 8 32).mp (hall _ mem_cons_self)
    exact absurd hroomy (by decide)
  · intro hclean
    rcases (checkForceFolderList_iff _ 0).mp hclean with hnone | hlen
    · cases hnone
    · cases hlen

end Sandboxie.StringReturn
