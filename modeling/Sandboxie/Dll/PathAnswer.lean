import Sandboxie.Dll.PathSave

/-!
# What a loaded tree answers

The answers of `File_GetPathFlags_internal` on a tree that was saved and loaded, against those on
the tree itself.  The answer for a path only depends on the marks at it and at the paths above
it (`answer`).
-/

namespace Sandboxie.PathTree

open Text List

/-! ### Flags -/

theorem and_flag_ne_zero (x : BitVec 32) {i : Nat} (hi : i < 32) :
    x &&& BitVec.twoPow 32 i ≠ 0 ↔ x.getLsbD i = true := by
  rw [BitVec.and_twoPow]
  cases x.getLsbD i with
  | false => simp
  | true =>
    have hne : BitVec.twoPow 32 i ≠ 0#32 := by
      intro h
      have hbit := congrArg (BitVec.getLsbD · i) h
      simp [hi] at hbit
    simp [hne]

/-- The flags are deleted, the path itself or one above it: `FILE_PATH_DELETED`. -/
def filePathDeleted (flags : BitVec 32) : Bool := flags &&& fileDeletedMask ≠ 0

theorem Mark.deleted_eq (m : Mark) : m.deleted = m.flags.getLsbD 0 := by
  rw [Bool.eq_iff_iff, ← and_flag_ne_zero m.flags (by decide), Mark.deleted, decide_eq_true_iff]
  rfl

theorem Mark.relocated_eq (m : Mark) : m.relocated = m.flags.getLsbD 1 := by
  rw [Bool.eq_iff_iff, ← and_flag_ne_zero m.flags (by decide), Mark.relocated, decide_eq_true_iff]
  rfl

variable (flags : BitVec 32)

theorem filePathDeleted_eq :
    filePathDeleted flags = (flags.getLsbD 0 || flags.getLsbD 16) := by
  have hmask : fileDeletedMask = BitVec.twoPow 32 0 ||| BitVec.twoPow 32 16 := by decide
  have hor : flags &&& fileDeletedMask =
      (flags &&& BitVec.twoPow 32 0) ||| (flags &&& BitVec.twoPow 32 16) := by
    rw [hmask, BitVec.and_or_distrib_left]
  rw [Bool.eq_iff_iff, Bool.or_eq_true, ← and_flag_ne_zero flags (i := 0) (by decide),
    ← and_flag_ne_zero flags (i := 16) (by decide), filePathDeleted, decide_eq_true_iff, hor]
  exact (not_congr BitVec.or_eq_zero_iff).trans not_and_or

theorem filePathDeleted_passFlags (m : Mark) :
    filePathDeleted (passFlags flags m) =
      (!m.relocated && (m.deleted || filePathDeleted flags)) := by
  unfold passFlags
  cases m.relocated with
  | true => simp [filePathDeleted_eq, filePathRelocatedFlag]
  | false =>
    cases m.deleted with
    | true => simp [filePathDeleted_eq, filePathDeletedFlag]
    | false => simp

theorem filePathDeleted_lastFlags (m : Mark) :
    filePathDeleted (lastFlags flags m) = (filePathDeleted flags || m.deleted) := by
  unfold lastFlags
  cases m.relocated <;> cases m.deleted <;>
    simp [filePathDeleted_eq, fileRelocationFlag, fileDeletedFlag]

/-! ### Answers -/

/-- The loop of `File_GetPathFlags_internal` over the marks of the paths, where a node that is
missing has no mark. -/
def answer (marks : List (List WChar) → Mark) : List (List WChar × List WChar) → BitVec 32 →
    Option (List WChar) → BitVec 32 × Option (List WChar)
  | [], flags, relocation => (flags, relocation)
  | (name, next) :: more, flags, relocation =>
    let mark := marks [name]
    if next = [] then (lastFlags flags mark, lastRelocation relocation mark next)
    else
      answer (fun path => marks (name :: path)) more (passFlags flags mark)
        (lastRelocation relocation mark next)

@[simp]
theorem Mark.deleted_none : Mark.none.deleted = false := by decide

@[simp]
theorem Mark.relocated_none : Mark.none.relocated = false := by decide

@[simp]
theorem passFlags_none : passFlags flags Mark.none = flags := by
  simp [passFlags]

@[simp]
theorem lastFlags_none : lastFlags flags Mark.none = flags := by
  simp [lastFlags]

@[simp]
theorem lastRelocation_none (relocation : Option (List WChar)) (next : List WChar) :
    lastRelocation relocation Mark.none next = relocation := by
  simp [lastRelocation]

theorem answer_congr {marks : List (List WChar) → Mark} (marks' : List (List WChar) → Mark)
    (h : ∀ path, path ≠ [] → marks path = marks' path)
    (segs : List (List WChar × List WChar)) (flags : BitVec 32)
    (relocation : Option (List WChar)) :
    answer marks segs flags relocation = answer marks' segs flags relocation := by
  induction segs generalizing marks marks' flags relocation with
  | nil => rfl
  | cons seg more ih =>
    obtain ⟨name, next⟩ := seg
    rw [answer, answer, h [name] (cons_ne_nil _ _),
      ih (fun path => marks' (name :: path)) fun path _ => h (name :: path) (by simp)]

theorem answer_congr_head {marks : List (List WChar) → Mark} (marks' : List (List WChar) → Mark)
    {name : List WChar} (h : ∀ path, marks (name :: path) = marks' (name :: path))
    (next : List WChar)
    (more : List (List WChar × List WChar)) (flags : BitVec 32)
    (relocation : Option (List WChar)) :
    answer marks ((name, next) :: more) flags relocation =
      answer marks' ((name, next) :: more) flags relocation := by
  rw [answer, answer, h []]
  simp only [h]

theorem answer_none (segs : List (List WChar × List WChar)) (flags : BitVec 32)
    (relocation : Option (List WChar)) :
    answer (fun _ => Mark.none) segs flags relocation = (flags, relocation) := by
  induction segs with
  | nil => rfl
  | cons seg more ih => simp [answer, ih]

section Fold

variable {towlower : WChar → WChar}

theorem label_below {tree : PathNodes} {name : List WChar} {mark : Mark} {items : PathNodes}
    (h : tree.child (List.map towlower) name = some (mark, items)) (path : List (List WChar)) :
    tree.label (List.map towlower) Mark.none (name :: path) =
      if path = [] then mark else items.label (List.map towlower) Mark.none path := by
  rw [Forest.label_cons, h]

theorem walk_eq_answer (tree : PathNodes) (segs : List (List WChar × List WChar))
    (flags : BitVec 32) (relocation : Option (List WChar)) :
    walk towlower false tree segs flags relocation =
      answer (tree.label (List.map towlower) Mark.none) segs flags relocation := by
  induction segs generalizing tree flags relocation with
  | nil => rfl
  | cons seg more ih =>
    obtain ⟨name, next⟩ := seg
    cases hchild : tree.child (List.map towlower) name with
    | none =>
      have hnone : ∀ path, tree.label (List.map towlower) Mark.none (name :: path) = Mark.none := by
        intro path
        rw [Forest.label_cons, hchild]
      rw [walk, hchild, answer_congr_head (fun _ => Mark.none) hnone, answer_none]
    | some found =>
      obtain ⟨mark, items⟩ := found
      have hmark : tree.label (List.map towlower) Mark.none [name] = mark := label_below hchild []
      have hbelow : ∀ path, path ≠ [] → tree.label (List.map towlower) Mark.none (name :: path) =
          items.label (List.map towlower) Mark.none path := by
        intro path hpath
        rw [label_below hchild, if_neg hpath]
      rw [walk, hchild, answer, hmark]
      by_cases hnext : next = []
      · simp [hnext]
      · simp only [if_neg hnext]
        rw [ih, answer_congr _ hbelow]

theorem walk_checkChildren (tree : PathNodes) (segs : List (List WChar × List WChar))
    (flags : BitVec 32) (relocation : Option (List WChar)) :
    (walk towlower true tree segs flags relocation).1 &&& fileDeletedMask =
        (walk towlower false tree segs flags relocation).1 &&& fileDeletedMask ∧
      (walk towlower true tree segs flags relocation).2 =
        (walk towlower false tree segs flags relocation).2 := by
  induction segs generalizing tree flags relocation with
  | nil => exact ⟨rfl, rfl⟩
  | cons seg more ih =>
    obtain ⟨name, next⟩ := seg
    rw [walk, walk]
    cases tree.child (List.map towlower) name with
    | none => exact ⟨rfl, rfl⟩
    | some found =>
      by_cases hnext : next = []
      · have hmask : fileChildrenDeletedFlag &&& fileDeletedMask = 0 := by decide
        have hor : ∀ x : BitVec 32,
            (x ||| fileChildrenDeletedFlag) &&& fileDeletedMask = x &&& fileDeletedMask := by
          intro x
          rw [BitVec.and_or_distrib_right, hmask]
          exact BitVec.or_zero
        refine ⟨?_, ?_⟩
        · simp only [if_pos hnext, Bool.true_and, Bool.false_and, Bool.false_eq_true, if_false]
          split
          · exact hor _
          · rfl
        · simp only [if_pos hnext]
      · simp only [if_neg hnext]
        exact ih found.2 _ _

/-! ### What is written -/

theorem and_not_zero (x : BitVec 32) : x &&& ~~~0 = x := by
  show x &&& ~~~(0#32) = x
  rw [BitVec.not_zero, BitVec.and_allOnes]

theorem Mark.loaded_flags (m : Mark) : m.loaded.flags = m.flags := by
  show (0 ||| m.flags) &&& ~~~0 = m.flags
  rw [and_not_zero]
  exact BitVec.zero_or

theorem Mark.loaded_deleted (m : Mark) : m.loaded.deleted = m.deleted := by
  rw [Mark.deleted, Mark.deleted, m.loaded_flags]

theorem Mark.loaded_relocated (m : Mark) : m.loaded.relocated = m.relocated := by
  rw [Mark.relocated, Mark.relocated, m.loaded_flags]

/-- The flags and the relocation that the calls set. -/
structure Mark.Plain (m : Mark) : Prop where
  flags : m.flags &&& ~~~(fileDeletedFlag ||| fileRelocationFlag) = 0
  relocated : m.relocated = false → m.relocation = Option.none
  target : m.relocation ≠ some []

variable {m : Mark}

theorem inherited_relocated (h : m.relocated = true) (setFlags : BitVec 32) :
    inherited setFlags m = 0 := by
  simp [inherited, h]

theorem inherited_not_relocated (h : m.relocated = false) (setFlags : BitVec 32) :
    inherited setFlags m = setFlags := by
  simp [inherited, h]

theorem isWritten_relocated (h : m.relocated = true) (setFlags : BitVec 32) :
    isWritten (inherited setFlags m) m = true := by
  have hflags : m.flags ≠ 0 := by
    intro hzero
    simp [m.relocated_eq, hzero] at h
  rw [inherited_relocated h, isWritten, and_not_zero, decide_eq_true hflags, Bool.true_or]

theorem deleted_not_written {setFlags : BitVec 32} (h : m.deleted = true)
    (hno : isWritten (inherited setFlags m) m = false) :
    m.relocated = false ∧ setFlags.getLsbD 0 = true := by
  have hrelocated : m.relocated = false := by
    by_contra hne
    rw [isWritten_relocated (Bool.not_eq_false _ ▸ hne)] at hno
    cases hno
  refine ⟨hrelocated, ?_⟩
  rw [inherited_not_relocated hrelocated, isWritten, Bool.or_eq_false_iff,
    decide_eq_false_iff_not, not_not] at hno
  have hbit := congrArg (BitVec.getLsbD · 0) hno.1
  rw [m.deleted_eq] at h
  simpa [h] using hbit

theorem Mark.Plain.not_written (hm : m.Plain) (hrelocated : m.relocated = false)
    {setFlags : BitVec 32} (hset : setFlags.getLsbD 0 = true) :
    isWritten (inherited setFlags m) m = false := by
  have hbits : m.flags &&& ~~~setFlags = 0 := by
    apply BitVec.eq_of_getLsbD_eq
    intro i hi
    have hzero : (0 : BitVec 32).getLsbD i = false := BitVec.getLsbD_zero
    rw [BitVec.getLsbD_and, BitVec.getLsbD_not, hzero]
    by_cases h0 : i = 0
    · rw [h0, hset, Bool.not_true, Bool.and_false, Bool.and_false]
    have hflag : m.flags.getLsbD i = false := by
      by_cases h1 : i = 1
      · rw [h1, ← m.relocated_eq, hrelocated]
      · have hother : ∀ i < 32, i ≠ 0 → i ≠ 1 →
            (fileDeletedFlag ||| fileRelocationFlag).getLsbD i = false := by decide
        have hbit := congrArg (BitVec.getLsbD · i) hm.flags
        rw [BitVec.getLsbD_and, BitVec.getLsbD_not, hother i hi h0 h1, hzero] at hbit
        simpa [hi] using hbit
    rw [hflag, Bool.false_and]
  rw [inherited_not_relocated hrelocated, isWritten, hbits, hm.relocated hrelocated]
  rfl

def keptMark (setFlags : BitVec 32) (m : Mark) : Mark :=
  if isWritten (inherited setFlags m) m then m.loaded else Mark.none

theorem keptMark_relocated (setFlags : BitVec 32) (m : Mark) :
    (keptMark setFlags m).relocated = m.relocated := by
  unfold keptMark
  split
  · exact m.loaded_relocated
  · rename_i hno
    have hrelocated : m.relocated = false := by
      by_contra h
      exact hno (isWritten_relocated (Bool.not_eq_false _ ▸ h) setFlags)
    rw [hrelocated, Mark.relocated_none]

theorem keptMark_lastRelocation (hm : m.Plain) (setFlags : BitVec 32)
    (relocation : Option (List WChar)) (next : List WChar) :
    lastRelocation relocation (keptMark setFlags m) next = lastRelocation relocation m next := by
  unfold lastRelocation
  rw [keptMark_relocated]
  cases hr : m.relocated with
  | false => rfl
  | true =>
    have htarget : m.loaded.relocation = m.relocation := by
      have hset : m.flags &&& fileRelocationFlag ≠ 0 := by
        simpa [Mark.relocated] using hr
      show (if 0 &&& fileRelocationFlag ≠ 0 ∨ m.flags &&& fileRelocationFlag ≠ 0 then
        if m.flags &&& fileRelocationFlag ≠ 0 then m.relocation.filter (· ≠ []) else none
        else none) = m.relocation
      rw [if_pos (.inr hset), if_pos hset]
      cases hrel : m.relocation with
      | none => rfl
      | some r =>
        have hne : r ≠ [] := fun h => hm.target (by rw [hrel, h])
        simp [hne]
    rw [keptMark, if_pos (isWritten_relocated hr setFlags), htarget]

theorem keptMark_deleted (setFlags : BitVec 32) (m : Mark) :
    (keptMark setFlags m).deleted = m.deleted ∨
      m.deleted = true ∧ (keptMark setFlags m).deleted = false ∧ m.relocated = false ∧
        setFlags.getLsbD 0 = true := by
  unfold keptMark
  by_cases hw : isWritten (inherited setFlags m) m = true
  · rw [if_pos hw]
    exact .inl m.loaded_deleted
  · rw [if_neg hw]
    cases hd : m.deleted with
    | false => exact .inl Mark.deleted_none
    | true => exact .inr ⟨rfl, rfl, deleted_not_written hd (Bool.not_eq_true _ ▸ hw)⟩

theorem loadedMark_nil (path : List (List WChar)) (setFlags : BitVec 32) :
    loadedMark towlower .nil path setFlags = Mark.none := by
  cases path <;> rfl

variable {items next : PathNodes} {name x : List WChar}

theorem loadedMark_node_pos {mark : Mark}
    (h : name.map towlower = x.map towlower) (path : List (List WChar)) (setFlags : BitVec 32) :
    loadedMark towlower (.node name mark items next) (x :: path) setFlags =
      if path = [] then keptMark setFlags mark
      else loadedMark towlower items path (inherited setFlags mark ||| mark.flags) := by
  rw [loadedMark, savedMark, if_pos h]
  by_cases hpath : path = []
  · rw [if_pos hpath, if_pos hpath, keptMark]
    split <;> rfl
  · rw [if_neg hpath, if_neg hpath, loadedMark]

theorem loadedMark_node_neg {mark : Mark}
    (h : name.map towlower ≠ x.map towlower) (path : List (List WChar)) (setFlags : BitVec 32) :
    loadedMark towlower (.node name mark items next) (x :: path) setFlags =
      loadedMark towlower next (x :: path) (inherited setFlags mark) := by
  rw [loadedMark, savedMark, if_neg h, loadedMark]

theorem label_node_pos {mark : Mark}
    (h : name.map towlower = x.map towlower) (path : List (List WChar)) :
    Forest.label (List.map towlower) Mark.none (.node name mark items next) (x :: path) =
      if path = [] then mark else items.label (List.map towlower) Mark.none path := by
  have hchild : Forest.child (List.map towlower) (.node name mark items next) x =
      some (mark, items) := if_pos h
  exact label_below hchild path

theorem label_node_neg {mark : Mark}
    (h : name.map towlower ≠ x.map towlower) (path : List (List WChar)) :
    Forest.label (List.map towlower) Mark.none (.node name mark items next) (x :: path) =
      next.label (List.map towlower) Mark.none (x :: path) := by
  rw [Forest.label_cons, Forest.label_cons, Forest.child, if_neg h]

/-! The answer at a node, in the tree and in the loaded one. -/

section Node

variable {name x : List WChar} {mark : Mark} {items nextNode : PathNodes}

theorem answer_label_pos (h : name.map towlower = x.map towlower) (next : List WChar)
    (more : List (List WChar × List WChar)) (flags : BitVec 32)
    (relocation : Option (List WChar)) :
    answer (Forest.label (List.map towlower) Mark.none (.node name mark items nextNode))
        ((x, next) :: more) flags relocation =
      if next = [] then (lastFlags flags mark, lastRelocation relocation mark next)
      else answer (items.label (List.map towlower) Mark.none) more (passFlags flags mark)
        (lastRelocation relocation mark next) := by
  have hmark : Forest.label (List.map towlower) Mark.none (.node name mark items nextNode) [x] =
      mark := by
    rw [label_node_pos h, if_pos rfl]
  rw [answer, hmark, answer_congr (items.label (List.map towlower) Mark.none)]
  intro path hpath
  rw [label_node_pos h, if_neg hpath]

theorem answer_label_neg (h : name.map towlower ≠ x.map towlower) (next : List WChar)
    (more : List (List WChar × List WChar)) (flags : BitVec 32)
    (relocation : Option (List WChar)) :
    answer (Forest.label (List.map towlower) Mark.none (.node name mark items nextNode))
        ((x, next) :: more) flags relocation =
      answer (nextNode.label (List.map towlower) Mark.none) ((x, next) :: more) flags relocation :=
  answer_congr_head _ (fun path => label_node_neg h path) next more flags relocation

theorem answer_loadedMark_pos (h : name.map towlower = x.map towlower) (setFlags : BitVec 32)
    (next : List WChar) (more : List (List WChar × List WChar)) (flags : BitVec 32)
    (relocation : Option (List WChar)) :
    answer (fun path => loadedMark towlower (.node name mark items nextNode) path setFlags)
        ((x, next) :: more) flags relocation =
      if next = [] then
        (lastFlags flags (keptMark setFlags mark),
          lastRelocation relocation (keptMark setFlags mark) next)
      else
        answer (fun path => loadedMark towlower items path (inherited setFlags mark ||| mark.flags))
          more (passFlags flags (keptMark setFlags mark))
          (lastRelocation relocation (keptMark setFlags mark) next) := by
  have hkept : loadedMark towlower (.node name mark items nextNode) [x] setFlags =
      keptMark setFlags mark := by
    rw [loadedMark_node_pos h, if_pos rfl]
  rw [answer, hkept, answer_congr (fun path =>
    loadedMark towlower items path (inherited setFlags mark ||| mark.flags))]
  intro path hpath
  rw [loadedMark_node_pos h, if_neg hpath]

theorem answer_loadedMark_neg (h : name.map towlower ≠ x.map towlower) (setFlags : BitVec 32)
    (next : List WChar) (more : List (List WChar × List WChar)) (flags : BitVec 32)
    (relocation : Option (List WChar)) :
    answer (fun path => loadedMark towlower (.node name mark items nextNode) path setFlags)
        ((x, next) :: more) flags relocation =
      answer (fun path => loadedMark towlower nextNode path (inherited setFlags mark))
        ((x, next) :: more) flags relocation :=
  answer_congr_head _ (fun path => loadedMark_node_neg h path setFlags) next more flags relocation

end Node

/-! ### Nodes whose deletion is not written -/

/-- A node that is marked deleted is below one that `P` holds of, and neither a node from there
on down to it is relocated nor one in front of these in their levels.  With `shade` there is such
a node above the tree. -/
def below (P : Mark → Bool) : PathNodes → Bool → Bool
  | .nil, _ => false
  | .node _ mark items next, shade =>
    let shade := shade && !mark.relocated
    shade && mark.deleted || below P items (shade || P mark) || below P next shade

def leftOut (root : PathNodes) : Bool := below Mark.deleted root false

/-- A deleted node is below one that is both deleted and relocated. -/
def lost (root : PathNodes) : Bool := below (fun m => m.deleted && m.relocated) root false

theorem below_node {P : Mark → Bool} {name : List WChar} {mark : Mark}
    {shade : Bool} (h : below P (.node name mark items next) shade = false) :
    ((shade && !mark.relocated) && mark.deleted) = false ∧
      below P items ((shade && !mark.relocated) || P mark) = false ∧
      below P next (shade && !mark.relocated) = false := by
  rw [below, Bool.or_eq_false_iff, Bool.or_eq_false_iff] at h
  exact ⟨h.1.1, h.1.2, h.2⟩

theorem answer_relocation {marks marks' : List (List WChar) → Mark}
    (h : ∀ path, path ≠ [] → ∀ relocation next,
      lastRelocation relocation (marks path) next = lastRelocation relocation (marks' path) next)
    (segs : List (List WChar × List WChar)) (flags flags' : BitVec 32)
    (relocation : Option (List WChar)) :
    (answer marks segs flags relocation).2 = (answer marks' segs flags' relocation).2 := by
  induction segs generalizing marks marks' flags flags' relocation with
  | nil => rfl
  | cons seg more ih =>
    obtain ⟨name, next⟩ := seg
    rw [answer, answer]
    have hname := h [name] (cons_ne_nil _ _) relocation next
    by_cases hnext : next = []
    · simp only [if_pos hnext]
      exact hname
    · simp only [if_neg hnext]
      rw [hname]
      exact ih (fun path _ => h (name :: path) (cons_ne_nil _ _)) _ _ _

theorem loadedMark_rel {R : Mark → Mark → Prop} (hnone : R Mark.none Mark.none)
    (hkept : ∀ setFlags m, m.Plain → R (keptMark setFlags m) m) {root : PathNodes}
    (hplain : root.All fun _ m => m.Plain) (path : List (List WChar)) (setFlags : BitVec 32) :
    R (loadedMark towlower root path setFlags)
      (root.label (List.map towlower) Mark.none path) := by
  induction root generalizing path setFlags with
  | nil =>
    rw [loadedMark_nil, Forest.label_nil]
    exact hnone
  | node name mark items nextNode ihItems ihNext =>
    obtain ⟨hm, hitems, hnextNode⟩ := hplain
    cases path with
    | nil => exact hnone
    | cons x xs =>
      by_cases hx : name.map towlower = x.map towlower
      · rw [loadedMark_node_pos hx, label_node_pos hx]
        by_cases hxs : xs = []
        · rw [if_pos hxs, if_pos hxs]
          exact hkept setFlags mark hm
        · rw [if_neg hxs, if_neg hxs]
          exact ihItems hitems xs _
      · rw [loadedMark_node_neg hx, label_node_neg hx]
        exact ihNext hnextNode (x :: xs) _

/-! ### Deleted or not -/

theorem kept_step {setFlags flags flags' : BitVec 32} {shade : Bool}
    (hflags : filePathDeleted flags = filePathDeleted flags')
    (hset : setFlags.getLsbD 0 = true → filePathDeleted flags' = true ∨ shade = true)
    (hno : ((shade && !m.relocated) && m.deleted) = false) :
    filePathDeleted (lastFlags flags m) =
        filePathDeleted (lastFlags flags' (keptMark setFlags m)) ∧
      filePathDeleted (passFlags flags m) =
        filePathDeleted (passFlags flags' (keptMark setFlags m)) ∧
      ((inherited setFlags m ||| m.flags).getLsbD 0 = true →
        filePathDeleted (passFlags flags' (keptMark setFlags m)) = true ∨
          ((shade && !m.relocated) || (m.deleted && m.relocated)) = true) ∧
      ((inherited setFlags m).getLsbD 0 = true →
        filePathDeleted flags' = true ∨ (shade && !m.relocated) = true) := by
  rw [filePathDeleted_lastFlags, filePathDeleted_lastFlags, filePathDeleted_passFlags,
    filePathDeleted_passFlags, keptMark_relocated, BitVec.getLsbD_or, ← m.deleted_eq, hflags]
  have hinherited : (inherited setFlags m).getLsbD 0 = (setFlags.getLsbD 0 && !m.relocated) := by
    cases hr : m.relocated with
    | true => simp [inherited_relocated hr]
    | false => simp [inherited_not_relocated hr]
  rw [hinherited]
  obtain hsame | ⟨hdeleted, hgone, hrelocated, hbit⟩ := keptMark_deleted setFlags m
  · rw [hsame]
    cases hr : m.relocated <;> cases hd : m.deleted <;> simp_all
  · rw [hdeleted, hrelocated] at hno
    obtain hpath | hshade := hset hbit
    · simp [hpath, hdeleted, hgone, hrelocated]
    · simp [hshade] at hno

theorem answer_loadedMark {root : PathNodes} {shade : Bool} {setFlags : BitVec 32}
    (hbelow : below (fun m => m.deleted && m.relocated) root shade = false)
    (segs : List (List WChar × List WChar)) {flags flags' : BitVec 32}
    (hflags : filePathDeleted flags = filePathDeleted flags')
    (hset : setFlags.getLsbD 0 = true → filePathDeleted flags' = true ∨ shade = true)
    (relocation relocation' : Option (List WChar)) :
    filePathDeleted
        (answer (root.label (List.map towlower) Mark.none) segs flags relocation).1 =
      filePathDeleted (answer (fun path => loadedMark towlower root path setFlags) segs flags'
        relocation').1 := by
  induction root generalizing shade setFlags segs flags flags' relocation relocation' with
  | nil =>
    have hlabel : ∀ path, path ≠ [] →
        (Forest.nil : PathNodes).label (List.map towlower) Mark.none path = Mark.none :=
      fun path _ => Forest.label_nil path
    have hloaded : ∀ path, path ≠ [] → loadedMark towlower .nil path setFlags = Mark.none :=
      fun path _ => loadedMark_nil path setFlags
    rw [answer_congr (fun _ => Mark.none) hlabel,
      answer_congr (fun _ => Mark.none) hloaded, answer_none, answer_none]
    exact hflags
  | node name mark items nextNode ihItems ihNext =>
    obtain ⟨hno, hitems, hnextNode⟩ := below_node hbelow
    obtain ⟨hlast, hpass, hsetItems, hsetNext⟩ := kept_step hflags hset hno
    cases segs with
    | nil => exact hflags
    | cons seg more =>
      obtain ⟨x, next⟩ := seg
      by_cases hx : name.map towlower = x.map towlower
      · rw [answer_label_pos hx, answer_loadedMark_pos hx]
        by_cases hnext : next = []
        · rw [if_pos hnext, if_pos hnext]
          exact hlast
        · rw [if_neg hnext, if_neg hnext]
          exact ihItems hitems more hpass hsetItems _ _
      · rw [answer_label_neg hx, answer_loadedMark_neg hx]
        exact ihNext hnextNode _ hflags hsetNext _ _

theorem keptMark_below {setFlags flags' : BitVec 32} {shade : Bool}
    (hset : shade = true → setFlags.getLsbD 0 = true ∧ filePathDeleted flags' = false)
    (hno : ((shade && !m.relocated) && m.deleted) = false)
    (hshade : ((shade && !m.relocated) || (m.deleted && m.relocated)) = true) :
    (inherited setFlags m ||| m.flags).getLsbD 0 = true ∧
      filePathDeleted (passFlags flags' (keptMark setFlags m)) = false := by
  rw [filePathDeleted_passFlags, keptMark_relocated, BitVec.getLsbD_or, ← m.deleted_eq]
  cases hr : m.relocated with
  | true => simp_all
  | false =>
    have hs : shade = true := by simpa [hr] using hshade
    have hd : m.deleted = false := by simpa [hr, hs] using hno
    have hkept : (keptMark setFlags m).deleted = false := by
      obtain hsame | ⟨hdeleted, -⟩ := keptMark_deleted setFlags m
      · rw [hsame, hd]
      · rw [hd] at hdeleted
        cases hdeleted
    rw [inherited_not_relocated hr, (hset hs).1, hkept, (hset hs).2]
    exact ⟨rfl, rfl⟩

theorem exists_lost {root : PathNodes} (hapart : root.Apart (List.map towlower))
    (hall : root.All fun name m => IsName name ∧ m.Plain) {shade : Bool} {setFlags : BitVec 32}
    {flags' : BitVec 32} (hbelow : below (fun m => m.deleted && m.relocated) root shade = true)
    (hset : shade = true → setFlags.getLsbD 0 = true ∧ filePathDeleted flags' = false) :
    ∃ x path, x ∈ root.keys ∧ ∀ flags relocation relocation',
      filePathDeleted (answer (root.label (List.map towlower) Mark.none)
          (segments (pathText (x :: path))) flags relocation).1 = true ∧
        filePathDeleted (answer (fun path => loadedMark towlower root path setFlags)
          (segments (pathText (x :: path))) flags' relocation').1 = false := by
  induction root generalizing shade setFlags flags' with
  | nil => cases hbelow
  | node name mark items nextNode ihItems ihNext =>
    obtain ⟨hnames, hapartItems, hapartNext⟩ := hapart
    obtain ⟨⟨hname, hm⟩, hallItems, hallNext⟩ := hall
    by_cases hown : ((shade && !mark.relocated) && mark.deleted) = true
    · -- the deletion of the node itself is not written
      obtain ⟨⟨hs, hr⟩, hd⟩ := by simpa using hown
      refine ⟨name, [], mem_cons_self, fun flags relocation relocation' => ?_⟩
      have hkept : keptMark setFlags mark = Mark.none := by
        rw [keptMark, hm.not_written hr (hset hs).1]
        rfl
      rw [segments_pathText_cons hname, answer_label_pos rfl, answer_loadedMark_pos rfl, hkept]
      refine ⟨?_, ?_⟩
      · show filePathDeleted (lastFlags flags mark) = true
        rw [filePathDeleted_lastFlags, hd, Bool.or_true]
      · show filePathDeleted (lastFlags flags' Mark.none) = false
        rw [lastFlags_none, (hset hs).2]
    · rw [below, Bool.eq_false_iff.mpr hown, Bool.false_or, Bool.or_eq_true] at hbelow
      obtain hitems | hnext := hbelow
      · obtain ⟨x, path, -, hlost⟩ := ihItems hapartItems hallItems hitems
          (keptMark_below hset (Bool.eq_false_iff.mpr hown))
        refine ⟨name, x :: path, mem_cons_self, fun flags relocation relocation' => ?_⟩
        rw [segments_pathText_cons hname, answer_label_pos rfl, answer_loadedMark_pos rfl,
          if_neg (by simp), if_neg (by simp)]
        exact hlost _ _ _
      · have hset' : (shade && !mark.relocated) = true →
            (inherited setFlags mark).getLsbD 0 = true ∧ filePathDeleted flags' = false := by
          intro h
          obtain ⟨hs, hr⟩ := by simpa using h
          rw [inherited_not_relocated hr]
          exact hset hs
        obtain ⟨x, path, hx, hlost⟩ := ihNext hapartNext hallNext hnext hset'
        refine ⟨x, path, mem_cons_of_mem name hx, fun flags relocation relocation' => ?_⟩
        have hne : name.map towlower ≠ x.map towlower := fun h => hnames x hx h.symm
        obtain ⟨_, hnameX, -⟩ := hallNext.key hx
        have hshow := hlost flags relocation relocation'
        rw [segments_pathText_cons hnameX] at hshow ⊢
        rw [answer_label_neg hne, answer_loadedMark_neg hne]
        exact hshow

/-! ### The flags of a deletion -/

theorem answer_flags {marks marks' : List (List WChar) → Mark}
    (h : ∀ path, (marks path).deleted = (marks' path).deleted ∧
      (marks path).relocated = (marks' path).relocated)
    (segs : List (List WChar × List WChar)) (flags : BitVec 32)
    (relocation relocation' : Option (List WChar)) :
    (answer marks segs flags relocation).1 = (answer marks' segs flags relocation').1 := by
  induction segs generalizing marks marks' flags relocation relocation' with
  | nil => rfl
  | cons seg more ih =>
    obtain ⟨name, next⟩ := seg
    rw [answer, answer]
    have hpass : passFlags flags (marks [name]) = passFlags flags (marks' [name]) := by
      rw [passFlags, passFlags, (h [name]).1, (h [name]).2]
    have hlast : lastFlags flags (marks [name]) = lastFlags flags (marks' [name]) := by
      rw [lastFlags, lastFlags, (h [name]).1, (h [name]).2]
    by_cases hnext : next = []
    · simp only [if_pos hnext]
      exact hlast
    · simp only [if_neg hnext, hpass]
      exact ih (fun path => h (name :: path)) _ _ _

theorem lastFlags_ownFlag (flags : BitVec 32) (m : Mark) :
    (lastFlags flags m).getLsbD 0 = (flags.getLsbD 0 || m.deleted) := by
  unfold lastFlags
  cases m.relocated <;> cases m.deleted <;> simp [fileRelocationFlag, fileDeletedFlag]

theorem passFlags_ownFlag {flags : BitVec 32} (h : flags.getLsbD 0 = false) (m : Mark) :
    (passFlags flags m).getLsbD 0 = false := by
  unfold passFlags
  split
  · decide
  · split
    · rw [BitVec.getLsbD_or, h]
      decide
    · exact h

theorem answer_ownFlag (marks : List (List WChar) → Mark) {path : List (List WChar)}
    (hpath : ∀ name ∈ path, IsName name) (hne : path ≠ []) {flags : BitVec 32}
    (hflags : flags.getLsbD 0 = false) (relocation : Option (List WChar)) :
    (answer marks (segments (pathText path)) flags relocation).1.getLsbD 0 =
      (marks path).deleted := by
  induction path generalizing marks flags relocation with
  | nil => exact absurd rfl hne
  | cons name path ih =>
    rw [segments_pathText_cons (hpath name mem_cons_self), answer]
    cases path with
    | nil =>
      show (lastFlags flags (marks [name])).getLsbD 0 = _
      rw [lastFlags_ownFlag, hflags, Bool.false_or]
    | cons child path =>
      rw [if_neg (by simp)]
      have hpass := passFlags_ownFlag hflags (marks [name])
      exact ih (fun path => marks (name :: path))
        (fun name' h => hpath name' (mem_cons_of_mem name h)) (cons_ne_nil child path)
        hpass _

theorem loadedMark_deleted {root : PathNodes} {shade : Bool} {setFlags : BitVec 32}
    (hbelow : below Mark.deleted root shade = false)
    (hset : setFlags.getLsbD 0 = true → shade = true) (path : List (List WChar)) :
    (loadedMark towlower root path setFlags).deleted =
      (root.label (List.map towlower) Mark.none path).deleted := by
  induction root generalizing path shade setFlags with
  | nil => rw [loadedMark_nil, Forest.label_nil]
  | node name mark items nextNode ihItems ihNext =>
    obtain ⟨hno, hitems, hnextNode⟩ := below_node hbelow
    have hinherited : (inherited setFlags mark).getLsbD 0 = true →
        (shade && !mark.relocated) = true := by
      intro h
      cases hr : mark.relocated with
      | true => simp [inherited_relocated hr] at h
      | false =>
        rw [inherited_not_relocated hr] at h
        simp [hset h]
    cases path with
    | nil => rfl
    | cons x xs =>
      by_cases hx : name.map towlower = x.map towlower
      · rw [loadedMark_node_pos hx, label_node_pos hx]
        by_cases hxs : xs = []
        · rw [if_pos hxs, if_pos hxs]
          obtain hsame | ⟨hd, -, hr, hbit⟩ := keptMark_deleted setFlags mark
          · exact hsame
          · simp [hset hbit, hd, hr] at hno
        · rw [if_neg hxs, if_neg hxs]
          refine ihItems hitems (fun h => ?_) xs
          rw [BitVec.getLsbD_or, Bool.or_eq_true, ← mark.deleted_eq] at h
          obtain h | h := h
          · rw [hinherited h, Bool.true_or]
          · rw [h, Bool.or_true]
      · rw [loadedMark_node_neg hx, label_node_neg hx]
        exact ihNext hnextNode hinherited (x :: xs)

theorem exists_leftOut {root : PathNodes} (hapart : root.Apart (List.map towlower))
    (hall : root.All fun name m => IsName name ∧ m.Plain) {shade : Bool} {setFlags : BitVec 32}
    (hbelow : below Mark.deleted root shade = true)
    (hset : shade = true → setFlags.getLsbD 0 = true) :
    ∃ x path, x ∈ root.keys ∧ (∀ name ∈ x :: path, IsName name) ∧
      (root.label (List.map towlower) Mark.none (x :: path)).deleted = true ∧
      (loadedMark towlower root (x :: path) setFlags).deleted = false := by
  induction root generalizing shade setFlags with
  | nil => cases hbelow
  | node name mark items nextNode ihItems ihNext =>
    obtain ⟨hnames, hapartItems, hapartNext⟩ := hapart
    obtain ⟨⟨hname, hm⟩, hallItems, hallNext⟩ := hall
    have hset' : (shade && !mark.relocated) = true →
        (inherited setFlags mark).getLsbD 0 = true := by
      intro h
      obtain ⟨hs, hr⟩ := by simpa using h
      rw [inherited_not_relocated hr]
      exact hset hs
    rw [below, Bool.or_eq_true, Bool.or_eq_true] at hbelow
    obtain (hown | hitems) | hnext := hbelow
    · obtain ⟨⟨hs, hr⟩, hd⟩ := by simpa using hown
      refine ⟨name, [], mem_cons_self, by simpa using hname, ?_, ?_⟩
      · rw [label_node_pos rfl]
        exact hd
      · rw [loadedMark_node_pos rfl, if_pos rfl, keptMark, hm.not_written hr (hset hs),
          if_neg Bool.false_ne_true, Mark.deleted_none]
    · have hsetItems : ((shade && !mark.relocated) || mark.deleted) = true →
          (inherited setFlags mark ||| mark.flags).getLsbD 0 = true := by
        intro h
        rw [BitVec.getLsbD_or, Bool.or_eq_true, ← mark.deleted_eq]
        obtain h | h := Bool.or_eq_true _ _ ▸ h
        · exact .inl (hset' h)
        · exact .inr h
      obtain ⟨x, path, -, hpath, hd, hgone⟩ := ihItems hapartItems hallItems hitems hsetItems
      refine ⟨name, x :: path, mem_cons_self, forall_mem_cons.mpr ⟨hname, hpath⟩, ?_, ?_⟩
      · rw [label_node_pos rfl, if_neg (cons_ne_nil x path)]
        exact hd
      · rw [loadedMark_node_pos rfl, if_neg (cons_ne_nil x path)]
        exact hgone
    · obtain ⟨x, path, hx, hpath, hd, hgone⟩ := ihNext hapartNext hallNext hnext hset'
      have hne : name.map towlower ≠ x.map towlower := fun h => hnames x hx h.symm
      refine ⟨x, path, mem_cons_of_mem name hx, hpath, ?_, ?_⟩
      · rw [label_node_neg hne]
        exact hd
      · rw [loadedMark_node_neg hne]
        exact hgone

/-! ### The laws of a tree -/

section Laws

variable (towlower)

/-- The deleted status of a path, as `File_IsDeleted_v2` returns it. -/
def deletedStatus (root : PathNodes) (path : List WChar) : BitVec 32 :=
  (getPathFlags towlower root path true).1 &&& fileDeletedMask

def relocation (root : PathNodes) (path : List WChar) : Option (List WChar) :=
  (getPathFlags towlower root path true).2

/-- Every path is deleted in both trees or in none, and relocated to the same one. -/
def SameDeletions (root root' : PathNodes) : Prop :=
  ∀ path, (deletedStatus towlower root' path ≠ 0 ↔ deletedStatus towlower root path ≠ 0) ∧
    relocation towlower root' path = relocation towlower root path

/-- Every path has the same deleted status in both trees, with the flags for the path itself and
for the paths above it, and is relocated to the same one. -/
def SameAnswers (root root' : PathNodes) : Prop :=
  ∀ path, deletedStatus towlower root' path = deletedStatus towlower root path ∧
    relocation towlower root' path = relocation towlower root path

variable {towlower}

theorem deletedStatus_eq (root : PathNodes) (path : List WChar) :
    deletedStatus towlower root path =
      (answer (root.label (List.map towlower) Mark.none) (segments path) 0 none).1 &&&
        fileDeletedMask := by
  rw [deletedStatus, getPathFlags, (walk_checkChildren root (segments path) 0 none).1,
    walk_eq_answer]

theorem relocation_eq (root : PathNodes) (path : List WChar) :
    relocation towlower root path =
      (answer (root.label (List.map towlower) Mark.none) (segments path) 0 none).2 := by
  rw [relocation, getPathFlags, (walk_checkChildren root (segments path) 0 none).2, walk_eq_answer]

theorem deletedStatus_ne_zero (root : PathNodes) (path : List WChar) :
    deletedStatus towlower root path ≠ 0 ↔
      filePathDeleted (answer (root.label (List.map towlower) Mark.none) (segments path) 0 none).1 =
        true := by
  rw [deletedStatus_eq, filePathDeleted, decide_eq_true_iff]

variable {toFile toTree : TranslatePath} {root : PathNodes}

theorem label_loaded (hapart : root.Apart (List.map towlower))
    (hback : ComesBack toFile toTree root) :
    (loadPathTree towlower toTree (savePathTree toFile root)).label (List.map towlower) Mark.none =
      fun path => loadedMark towlower root path 0 :=
  funext (label_loadPathTree hapart hback)

theorem relocation_loaded (hapart : root.Apart (List.map towlower))
    (hplain : root.All fun _ m => m.Plain) (hback : ComesBack toFile toTree root)
    (path : List WChar) :
    relocation towlower (loadPathTree towlower toTree (savePathTree toFile root)) path =
      relocation towlower root path := by
  rw [relocation_eq, relocation_eq, label_loaded hapart hback]
  refine answer_relocation (fun path' _ relocation next => ?_) _ _ _ _
  exact loadedMark_rel
    (R := fun m m' => lastRelocation relocation m next = lastRelocation relocation m' next) rfl
    (fun setFlags m hm => keptMark_lastRelocation hm setFlags relocation next) hplain path' 0

/-- **The deletions of a tree** come back when none of its nodes is lost, and then only. -/
theorem sameDeletions_iff (hapart : root.Apart (List.map towlower))
    (hall : root.All fun name m => IsName name ∧ m.Plain)
    (hback : ComesBack toFile toTree root) :
    SameDeletions towlower root (loadPathTree towlower toTree (savePathTree toFile root)) ↔
      lost root = false := by
  have hplain : root.All fun _ m => m.Plain := hall.mono fun _ _ h => h.2
  refine ⟨fun hsame => ?_, fun hlost path => ⟨?_, relocation_loaded hapart hplain hback path⟩⟩
  · by_contra hne
    obtain ⟨x, path, -, hgone⟩ := @exists_lost towlower root hapart hall false 0 0
      (Bool.not_eq_false _ ▸ hne) (by simp)
    obtain ⟨hdeleted, hno⟩ := hgone 0 none none
    have hboth := (hsame (pathText (x :: path))).1
    rw [deletedStatus_ne_zero, deletedStatus_ne_zero, label_loaded hapart hback, hno,
      hdeleted] at hboth
    exact absurd (hboth.mpr rfl) Bool.false_ne_true
  · rw [deletedStatus_ne_zero, deletedStatus_ne_zero, label_loaded hapart hback,
      @answer_loadedMark towlower root false 0 hlost (segments path) 0 0 rfl (by simp) none none]

/-- **The flags of the deletions** come back when none of them is left out, and then only. -/
theorem sameAnswers_iff (hapart : root.Apart (List.map towlower))
    (hall : root.All fun name m => IsName name ∧ m.Plain)
    (hback : ComesBack toFile toTree root) :
    SameAnswers towlower root (loadPathTree towlower toTree (savePathTree toFile root)) ↔
      leftOut root = false := by
  have hplain : root.All fun _ m => m.Plain := hall.mono fun _ _ h => h.2
  refine ⟨fun hsame => ?_, fun hno path => ⟨?_, relocation_loaded hapart hplain hback path⟩⟩
  · by_contra hne
    obtain ⟨x, path, -, hpath, hdeleted, hgone⟩ := @exists_leftOut towlower root hapart hall
      false 0 (Bool.not_eq_false _ ▸ hne) (by simp)
    have hboth := (hsame (pathText (x :: path))).1
    rw [deletedStatus_eq, deletedStatus_eq, label_loaded hapart hback] at hboth
    have hbit := congrArg (BitVec.getLsbD · 0) hboth
    have hmask : fileDeletedMask.getLsbD 0 = true := by decide
    rw [BitVec.getLsbD_and, BitVec.getLsbD_and, hmask, Bool.and_true, Bool.and_true,
      answer_ownFlag _ hpath (cons_ne_nil x path) (by decide),
      answer_ownFlag _ hpath (cons_ne_nil x path) (by decide), hdeleted, hgone] at hbit
    cases hbit
  · rw [deletedStatus_eq, deletedStatus_eq, label_loaded hapart hback]
    refine congrArg (· &&& fileDeletedMask) (answer_flags (fun path' => ⟨?_, ?_⟩) _ _ _ _)
    · exact loadedMark_deleted hno (by simp) path'
    · exact loadedMark_rel (R := fun m m' => m.relocated = m'.relocated) rfl
        (fun setFlags m _ => keptMark_relocated setFlags m) hplain path' 0

end Laws

end Fold

end Sandboxie.PathTree
