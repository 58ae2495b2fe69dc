import Sandboxie.Dll.PathMove

/-!
# What the mark of a deleted path does

`File_MarkDeleted_internal` is for this: the path and what is below it are deleted, the other
paths are as before, and a path has deleted children exactly when a direct child of it is
deleted itself (`Intended`).

The loop over the children does not ask whether one of them is deleted: it asks for one that has
all the flags of the path above it, and so for any child where there are none.  `intended_iff` is
when that comes to the same.
-/

namespace Sandboxie.PathTree

open Text List

section Fold

variable (towlower : WChar → WChar)

/-- `File_HasDeleted_v2` -/
def hasDeleted (root : PathNodes) (path : List WChar) : Bool :=
  (getPathFlags towlower root path true).1 &&& fileChildrenDeletedFlag ≠ 0

def DeletedChild (root : PathNodes) (path : List WChar) : Prop :=
  ∃ name, (root.label (List.map towlower) Mark.none (names path ++ [name])).deleted = true

/-- What the mark of a path is for, for the paths that are `asked`. -/
structure Intended (asked : List WChar → Prop) (root : PathNodes) (path : List WChar) : Prop where
  under : ∀ path', asked path' → IsUnder towlower (names path) (names path') →
    deletedStatus towlower (markDeleted towlower root path).root path' ≠ 0
  others : ∀ path', asked path' → ¬IsUnder towlower (names path) (names path') →
    deletedStatus towlower (markDeleted towlower root path).root path' =
        deletedStatus towlower root path' ∧
      relocation towlower (markDeleted towlower root path).root path' =
        relocation towlower root path'
  children : ∀ path', asked path' →
    (hasDeleted towlower (markDeleted towlower root path).root path' = true ↔
      DeletedChild towlower (markDeleted towlower root path).root path')

/-- 1. The tree without the branch of the path, which is taken out unless it is the mark of a
deletion alone.  A second node of the same name comes to light here. -/
def unbranched (root : PathNodes) (path : List WChar) : PathNodes :=
  match findPathBranche towlower root path with
  | some (mark, items) =>
    if mark.flags = fileDeletedFlag ∧ items = .nil then root
    else root.remove (List.map towlower) (names path)
  | none => root

def IsParent (path path' : List WChar) : Prop :=
  IsUnder towlower (names path) (names path') ∧ (names path').length = (names path).length + 1

instance (path path' : List (List WChar)) : Decidable (IsUnder towlower path path') :=
  inferInstanceAs (Decidable (_ <+: _))

instance (path path' : List WChar) : Decidable (IsParent towlower path path') :=
  inferInstanceAs (Decidable (_ ∧ _))

/-- The flags that the mark of `path` adds to those of another path. -/
def addedFlags (path path' : List WChar) : BitVec 32 :=
  if hasLast path = true ∧ IsUnder towlower (names path) (names path') then
    if (names path').length = (names path).length ∧ hasLast path' = true then fileDeletedFlag
    else filePathDeletedFlag
  else 0

/-- A child of `path'` has the flags that the loop asks for, once `path` is marked: one that is
there without the branch of `path`, or the one that leads to it. -/
def ChildPasses (root : PathNodes) (path path' : List WChar) : Prop :=
  let tree := unbranched towlower root path
  let flags := (getPathFlags towlower tree path' false).1 ||| addedFlags towlower path path'
  hasChildWith flags (tree.itemsAt (List.map towlower) (names path')) = true ∨
    IsUnder towlower (names path') (names path) ∧ (names path').length < (names path).length ∧
      if hasLast path = true ∧ IsParent towlower path' path then
        ((tree.label (List.map towlower) Mark.none (names path)).flags ||| fileDeletedFlag) &&&
          flags = flags
      else flags = 0

def NoneRelocated (tree : PathNodes) (path : List WChar) : Prop :=
  hasLast path = true → ∀ path', hasLast path' = true →
    IsUnder towlower (names path) (names path') →
      (tree.label (List.map towlower) Mark.none (names path')).relocated = false

/-- The mark of `path` does what it is for: no node at the path or below it is relocated when its
branch is taken out; a path with a backslash behind it is deleted already, with all below it; and
a child with the flags that the loop asks for is there exactly when one is deleted. -/
structure MarksRight (root : PathNodes) (path : List WChar) : Prop where
  relocated : NoneRelocated towlower (unbranched towlower root path) path
  deleted : hasLast path = false → ∀ path', hasLast path' = true →
    IsUnder towlower (names path) (names path') → deletedStatus towlower root path' ≠ 0
  children : ∀ path', hasLast path' = true →
    (ChildPasses towlower root path path' ↔
      hasLast path = true ∧ IsParent towlower path' path ∨
        DeletedChild towlower (unbranched towlower root path) path')

variable {towlower}

/-! ### The flag of the children -/

variable {flags : BitVec 32}

theorem getLsbD_passFlags (h : flags.getLsbD 18 = false) (m : Mark) :
    (passFlags flags m).getLsbD 18 = false := by
  unfold passFlags
  split
  · decide
  · split
    · rw [BitVec.getLsbD_or, h]
      decide
    · exact h

theorem getLsbD_lastFlags (h : flags.getLsbD 18 = false) (m : Mark) :
    (lastFlags flags m).getLsbD 18 = false := by
  have hbits : ∀ relocated deleted : Bool,
      ((if relocated then fileRelocationFlag else 0 : BitVec 32).getLsbD 18 ||
        (if deleted then fileDeletedFlag else 0 : BitVec 32).getLsbD 18) = false := by decide
  rw [lastFlags, BitVec.getLsbD_or, BitVec.getLsbD_or, h, Bool.false_or]
  exact hbits m.relocated m.deleted

theorem and_fileChildrenDeletedFlag (flags : BitVec 32) :
    flags &&& fileChildrenDeletedFlag ≠ 0 ↔ flags.getLsbD 18 = true := by
  rw [← and_flag_ne_zero flags (by decide)]
  rfl

theorem walk_children {tree : PathNodes} {segs : List (List WChar × List WChar)}
    (hinit : ∀ seg ∈ segs.dropLast, seg.2 ≠ []) (hlast : segs.getLast?.map Prod.snd = some [])
    {flags : BitVec 32} (hflags : flags.getLsbD 18 = false) (relocation : Option (List WChar)) :
    (walk towlower true tree segs flags relocation).1.getLsbD 18 =
      hasChildWith (walk towlower false tree segs flags relocation).1
        (tree.itemsAt (List.map towlower) (segs.map Prod.fst)) := by
  induction segs generalizing tree flags relocation with
  | nil => cases hlast
  | cons seg more ih =>
    obtain ⟨name, next⟩ := seg
    rw [walk, walk, map_cons, Forest.itemsAt_cons]
    cases hchild : tree.child (List.map towlower) name with
    | none =>
      have hnil : ∀ path, (Forest.nil : PathNodes).itemsAt (List.map towlower) path = .nil := by
        intro path
        rw [Forest.itemsAt, Forest.find_nil]
        rfl
      simp only [Option.map_none, Option.getD_none, hnil, ite_self, hasChildWith]
      exact hflags
    | some found =>
      obtain ⟨mark, items⟩ := found
      cases more with
      | nil =>
        obtain rfl : next = [] := by simpa using hlast
        simp only [if_pos, Bool.true_and, Bool.false_and, Bool.false_eq_true, if_false,
          map_nil, Option.map_some, Option.getD_some]
        cases hpasses : hasChildWith (lastFlags flags mark) items with
        | false =>
          exact getLsbD_lastFlags hflags mark
        | true =>
          simp only [if_true, BitVec.getLsbD_or]
          rw [show fileChildrenDeletedFlag.getLsbD 18 = true by decide, Bool.or_true]
      | cons first more =>
        have hnext : next ≠ [] := hinit (name, next) (by simp)
        have hmore : ((first :: more).getLast?).map Prod.snd = some [] := by
          exact hlast
        have hrest : ∀ seg ∈ (first :: more).dropLast, seg.2 ≠ [] := by
          intro seg hseg
          apply hinit seg
          rw [dropLast_cons_cons]
          exact mem_cons_of_mem _ hseg
        simp only [if_neg hnext, if_neg (show (first :: more).map Prod.fst ≠ [] by simp),
          Option.map_some, Option.getD_some]
        exact ih hrest hmore (getLsbD_passFlags hflags mark) _

theorem walk_noChildren {tree : PathNodes} {segs : List (List WChar × List WChar)}
    (hnext : ∀ seg ∈ segs, seg.2 ≠ []) {flags : BitVec 32} (hflags : flags.getLsbD 18 = false)
    (relocation : Option (List WChar)) :
    (walk towlower true tree segs flags relocation).1.getLsbD 18 = false := by
  induction segs generalizing tree flags relocation with
  | nil => exact hflags
  | cons seg more ih =>
    obtain ⟨name, next⟩ := seg
    rw [walk]
    cases tree.child (List.map towlower) name with
    | none => exact hflags
    | some found =>
      simp only [if_neg (hnext (name, next) mem_cons_self)]
      exact ih (fun seg hseg => hnext seg (mem_cons_of_mem _ hseg))
        (getLsbD_passFlags hflags found.1) _

variable {path : List WChar} {root : PathNodes}

theorem hasDeleted_eq (h : hasLast path = true) :
    hasDeleted towlower root path =
      hasChildWith (getPathFlags towlower root path false).1
        (root.itemsAt (List.map towlower) (names path)) := by
  have hflag := @walk_children towlower root (segments path) (segmentsFrom_init path [])
    (getLast_of_hasLast h) 0 rfl none
  rw [Bool.eq_iff_iff, hasDeleted, decide_eq_true_iff, and_fileChildrenDeletedFlag]
  exact Bool.eq_iff_iff.mp hflag

theorem segments_noLast (h : hasLast path = false) :
    ∀ seg ∈ segments path, seg.2 ≠ [] := by
  intro seg hseg
  cases hlast : (segments path).getLast? with
  | none =>
    rw [getLast?_eq_none_iff.mp hlast] at hseg
    cases hseg
  | some last =>
    have hsplit := dropLast_append_getLast? last hlast
    rw [← hsplit, mem_append, mem_singleton] at hseg
    obtain hseg | rfl := hseg
    · exact segmentsFrom_init path [] seg hseg
    · intro hnil
      obtain ⟨name, next⟩ := seg
      obtain rfl : next = [] := hnil
      simp [hasLast, hlast] at h

theorem hasDeleted_eq_false (h : hasLast path = false) :
    hasDeleted towlower root path = false := by
  have hflag := @walk_noChildren towlower root _ (segments_noLast h) 0 rfl none
  rw [hasDeleted, decide_eq_false_iff_not, and_fileChildrenDeletedFlag, getPathFlags, hflag]
  exact Bool.false_ne_true

/-! ### The tree that the mark is set in -/

theorem markDeleted_root (root : PathNodes) (path : List WChar) :
    (markDeleted towlower root path).root =
      setPathFlags towlower (unbranched towlower root path) path fileDeletedFlag 0 none := by
  unfold markDeleted unbranched
  cases hfound : findPathBranche towlower root path with
  | none => rfl
  | some found =>
    obtain ⟨mark, items⟩ := found
    by_cases halready : mark.flags = fileDeletedFlag ∧ items = .nil
    · simp only [if_pos halready]
      have hlast : hasLast path = true := by
        by_contra hno
        rw [findPathBranche, if_neg hno] at hfound
        cases hfound
      rw [findPathBranche, if_pos hlast] at hfound
      -- the mark that is set again is the one that is there
      have hsame : Mark.set fileDeletedFlag 0 none mark = mark := by
        have hno : ¬((0 : BitVec 32) &&& fileRelocationFlag ≠ 0 ∨
            fileDeletedFlag &&& fileRelocationFlag ≠ 0) := by decide
        ext1
        · show (mark.flags ||| fileDeletedFlag) &&& ~~~0 = mark.flags
          rw [and_not_zero, halready.1, BitVec.or_self]
        · simp only [Mark.set, if_neg hno]
      rw [setPathFlags, changeLast, if_pos hlast]
      exact (Forest.update_eq_self hfound hsame).symm
    · simp only [if_neg halready]

theorem unbranched_eq (h : hasLast path = false) :
    unbranched towlower root path = root := by
  rw [unbranched, findPathBranche, if_neg (by rw [h]; exact Bool.false_ne_true)]

theorem label_setDeleted (tree : PathNodes) (path : List WChar) (ys : List (List WChar)) :
    (setPathFlags towlower tree path fileDeletedFlag 0 none).label (List.map towlower) Mark.none
        ys =
      if hasLast path = true ∧ (names path).map (List.map towlower) = ys.map (List.map towlower)
      then (tree.label (List.map towlower) Mark.none ys).set fileDeletedFlag 0 none
      else tree.label (List.map towlower) Mark.none ys := by
  rw [setPathFlags, changeLast]
  by_cases hnames : names path = []
  · have hlast : ¬hasLast path = true := fun h => names_ne_nil h hnames
    rw [hnames, Forest.update_nil_path, if_neg fun h => hlast h.1]
  · rw [Forest.label_update _ _ hnames]
    by_cases heq : (names path).map (List.map towlower) = ys.map (List.map towlower)
    · by_cases hlast : hasLast path = true
      · rw [if_pos heq, if_pos hlast, if_pos ⟨hlast, heq⟩]
      · rw [if_pos heq, if_neg hlast, if_neg fun h => hlast h.1]
        rfl
    · rw [if_neg heq, if_neg fun h => heq h.2]

/-! ### The flags of a path after the mark -/

theorem relocated_setDeleted (m : Mark) :
    (m.set fileDeletedFlag 0 none).relocated = m.relocated := (Mark.keeps_setDeleted m).relocated

theorem or_right_comm (x y z : BitVec 32) : x ||| y ||| z = x ||| z ||| y := by
  rw [BitVec.or_assoc, BitVec.or_comm y, ← BitVec.or_assoc]

theorem lastFlags_setDeleted (flags : BitVec 32) (m : Mark) :
    lastFlags flags (m.set fileDeletedFlag 0 none) = lastFlags flags m ||| fileDeletedFlag := by
  rw [lastFlags, lastFlags, relocated_setDeleted, Mark.deleted_setDeleted, if_pos rfl]
  cases m.deleted with
  | true => rw [if_pos rfl, BitVec.or_assoc (flags ||| _), BitVec.or_self]
  | false => exact congrArg (· ||| fileDeletedFlag) BitVec.or_zero.symm

theorem answer_pass (marks : List (List WChar) → Mark) {name next : List WChar} (h : next ≠ [])
    (more : List (List WChar × List WChar)) (flags : BitVec 32)
    (relocation : Option (List WChar)) :
    (answer marks ((name, next) :: more) flags relocation).1 =
      (answer (fun ys => marks (name :: ys)) more (passFlags flags (marks [name]))
        (lastRelocation relocation (marks [name]) next)).1 := by
  rw [answer]
  simp only [if_neg h]

variable {segs : List (List WChar × List WChar)}

theorem answer_or {marks : List (List WChar) → Mark}
    (h : ∀ ys, ys ≠ [] → ys <+: segs.map Prod.fst → (marks ys).relocated = false)
    (flags more : BitVec 32) (relocation relocation' : Option (List WChar)) :
    (answer marks segs (flags ||| more) relocation).1 =
      (answer marks segs flags relocation').1 ||| more := by
  induction segs generalizing marks flags relocation relocation' with
  | nil => rfl
  | cons seg rest ih =>
    obtain ⟨name, next⟩ := seg
    have hname : (marks [name]).relocated = false :=
      h [name] (cons_ne_nil _ _) (cons_prefix_cons.mpr ⟨rfl, nil_prefix⟩)
    rw [answer, answer]
    by_cases hnext : next = []
    · simp only [if_pos hnext, lastFlags]
      rw [or_right_comm flags more, or_right_comm _ more]
    simp only [if_neg hnext]
    have hpass : passFlags (flags ||| more) (marks [name]) =
        passFlags flags (marks [name]) ||| more := by
      simp only [passFlags, hname, Bool.false_eq_true, if_false]
      split
      · exact or_right_comm flags more _
      · rfl
    rw [hpass]
    exact ih (fun ys _ hys => h (name :: ys) (cons_ne_nil _ _)
      (cons_prefix_cons.mpr ⟨rfl, hys⟩)) _ _ _

theorem answer_setDeleted_below {marks marks' : List (List WChar) → Mark}
    {path : List (List WChar)} (hne : path ≠ [])
    (hpre : path <+: segs.map Prod.fst) (hnext : ∀ seg ∈ segs.take path.length, seg.2 ≠ [])
    (hsame : ∀ ys, ys ≠ [] → ys ≠ path → ys <+: segs.map Prod.fst → marks' ys = marks ys)
    (hset : marks' path = (marks path).set fileDeletedFlag 0 none)
    (hrelocated : ∀ ys, path <+: ys → ys <+: segs.map Prod.fst → (marks ys).relocated = false)
    (flags : BitVec 32) (relocation relocation' : Option (List WChar)) :
    (answer marks' segs flags relocation).1 =
      (answer marks segs flags relocation').1 ||| filePathDeletedFlag := by
  induction path generalizing marks marks' segs flags relocation relocation' with
  | nil => exact absurd rfl hne
  | cons x path ih =>
    cases segs with
    | nil => cases prefix_nil.mp hpre
    | cons seg more =>
      obtain ⟨name, next⟩ := seg
      obtain ⟨rfl, htail⟩ := cons_prefix_cons.mp hpre
      have hfirst : next ≠ [] := hnext (x, next) (by simp)
      rw [answer_pass marks' hfirst, answer_pass marks hfirst]
      by_cases hpath : path = []
      · subst hpath
        have hno := hrelocated [x] (prefix_refl _)
          (cons_prefix_cons.mpr ⟨rfl, nil_prefix⟩)
        have hbelow : ∀ ys, ys ≠ [] → ys <+: more.map Prod.fst →
            marks' (x :: ys) = marks (x :: ys) := fun ys hys hpre =>
          hsame (x :: ys) (cons_ne_nil _ _) (fun heq => hys (List.cons.inj heq).2)
            (cons_prefix_cons.mpr ⟨rfl, hpre⟩)
        have hmarked : passFlags flags (marks' [x]) = flags ||| filePathDeletedFlag := by
          simp only [hset, passFlags, relocated_setDeleted, hno, Mark.deleted_setDeleted,
            Bool.false_eq_true, if_false, if_true]
        have hpass : flags ||| filePathDeletedFlag =
            passFlags flags (marks [x]) ||| filePathDeletedFlag := by
          simp only [passFlags, hno, Bool.false_eq_true, if_false]
          split
          · rw [BitVec.or_assoc, BitVec.or_self]
          · rfl
        rw [@answer_congr_names (fun ys => marks (x :: ys)) _ more hbelow, hmarked, hpass]
        exact answer_or (fun ys _ hys => hrelocated (x :: ys)
          (cons_prefix_cons.mpr ⟨rfl, nil_prefix⟩)
          (cons_prefix_cons.mpr ⟨rfl, hys⟩)) _ _ _ _
      · have hmark : marks' [x] = marks [x] :=
          hsame [x] (cons_ne_nil _ _) (fun heq => hpath (List.cons.inj heq).2.symm)
            (cons_prefix_cons.mpr ⟨rfl, nil_prefix⟩)
        rw [hmark]
        refine ih hpath htail (fun seg hseg => hnext seg ?_)
          (fun ys hys hne hpre => ?_) hset (fun ys hys hpre => ?_) _ _ _
        · rw [length_cons, take_succ_cons]
          exact mem_cons_of_mem _ hseg
        · exact hsame (x :: ys) (cons_ne_nil _ _) (fun heq => hne (List.cons.inj heq).2)
            (cons_prefix_cons.mpr ⟨rfl, hpre⟩)
        · exact hrelocated (x :: ys) (cons_prefix_cons.mpr ⟨rfl, hys⟩)
            (cons_prefix_cons.mpr ⟨rfl, hpre⟩)

theorem length_of_map {xs ys : List (List WChar)}
    (h : xs.map (List.map towlower) = ys.map (List.map towlower)) : xs.length = ys.length := by
  rw [← length_map (List.map towlower), h, length_map]

theorem isName_of_mem_names {path name : List WChar} (h : name ∈ names path) : IsName name := by
  obtain ⟨seg, hseg, rfl⟩ := mem_map.mp h
  exact (segments_mem hseg).1

theorem names_of_isPrefix {ys : List (List WChar)} (hys : ys ≠ [])
    (h : ys <+: names path) : hasLast (pathText ys) = true ∧ names (pathText ys) = ys := by
  have hnames : ∀ name ∈ ys, IsName name := fun name hname => isName_of_mem_names (h.subset hname)
  exact ⟨hasLast_pathText hnames hys, names_pathText hnames⟩

variable {tree : PathNodes} {path path' : List WChar}

theorem flags_setDeleted_at (hlast : hasLast path = true) (hlast' : hasLast path' = true)
    (hsame : (names path).map (List.map towlower) = (names path').map (List.map towlower)) :
    (answer ((setPathFlags towlower tree path fileDeletedFlag 0 none).label (List.map towlower)
        Mark.none) (segments path') 0 none).1 =
      (answer (tree.label (List.map towlower) Mark.none) (segments path') 0 none).1 |||
        fileDeletedFlag := by
  have hbefore : ∀ ys, ys ≠ [] → ys <+: names path' → ys ≠ names path' →
      (setPathFlags towlower tree path fileDeletedFlag 0 none).label (List.map towlower)
        Mark.none ys = tree.label (List.map towlower) Mark.none ys := by
    intro ys _ hpre hne
    rw [label_setDeleted, if_neg]
    rintro ⟨-, heq⟩
    exact hne (hpre.eq_of_length ((length_of_map heq).symm.trans (length_of_map hsame)))
  obtain ⟨flags, relocation, hanswer, hanswer'⟩ := answer_last_congr hlast' hbefore
  rw [hanswer, hanswer', label_setDeleted, if_pos ⟨hlast, hsame⟩]
  exact lastFlags_setDeleted flags _

theorem flags_setDeleted_below
    (hlast : hasLast path = true) (hunder : IsUnder towlower (names path) (names path'))
    (hat : ¬((names path').length = (names path).length ∧ hasLast path' = true))
    (hnone : NoneRelocated towlower tree path) :
    (answer ((setPathFlags towlower tree path fileDeletedFlag 0 none).label (List.map towlower)
        Mark.none) (segments path') 0 none).1 =
      (answer (tree.label (List.map towlower) Mark.none) (segments path') 0 none).1 |||
        filePathDeletedFlag := by
  have hle : (names path).length ≤ (names path').length := by
    have hle := hunder.length_le
    rwa [length_map, length_map] at hle
  have htake : ((names path').take (names path).length).map (List.map towlower) =
      (names path).map (List.map towlower) := by
    obtain ⟨more, hmore⟩ := hunder
    rw [map_take, ← hmore]
    simp
  have hne : (names path').take (names path).length ≠ [] := by
    intro hnil
    rw [hnil] at htake
    exact names_ne_nil hlast (map_eq_nil_iff.mp htake.symm)
  refine answer_setDeleted_below hne ( take_prefix _ _) (fun seg hseg => ?_)
    (fun ys _ hne hpre => ?_) ?_ (fun ys hys hpre => ?_) 0 none none
  · -- a backslash is behind each of the names down to the path
    rw [length_take, Nat.min_eq_left hle] at hseg
    by_cases hlast' : hasLast path' = true
    · have hlt : (names path).length ≤ (segments path').length - 1 := by
        have hsegs : (segments path').length = (names path').length := (length_map _).symm
        have hne : (names path').length ≠ (names path).length := fun h => hat ⟨h, hlast'⟩
        omega
      refine segmentsFrom_init path' [] seg ?_
      rw [dropLast_eq_take]
      exact take_subset_take_left _ hlt hseg
    · exact segments_noLast (Bool.not_eq_true _ ▸ hlast') seg (mem_of_mem_take hseg)
  · rw [label_setDeleted, if_neg]
    rintro ⟨-, heq⟩
    exact hne (length_of_map heq ▸ prefix_iff_eq_take.mp hpre)
  · rw [label_setDeleted, if_pos ⟨hlast, htake.symm⟩]
  · have hys' : ys ≠ [] := by
      rintro rfl
      exact hne (prefix_nil.mp hys)
    obtain ⟨hlastY, hnamesY⟩ := names_of_isPrefix hys' hpre
    have hno := hnone hlast (pathText ys) hlastY (by
      rw [hnamesY]
      exact (IsUnder.of_eq htake.symm).trans (IsUnder.of_isPrefix hys))
    rwa [hnamesY] at hno

theorem flags_setDeleted_other
    (h : ¬(hasLast path = true ∧ IsUnder towlower (names path) (names path'))) :
    answer ((setPathFlags towlower tree path fileDeletedFlag 0 none).label (List.map towlower)
        Mark.none) (segments path') 0 none =
      answer (tree.label (List.map towlower) Mark.none) (segments path') 0 none := by
  refine answer_congr_names (segments path') (fun ys _ hpre => ?_) 0 none
  rw [label_setDeleted, if_neg]
  rintro ⟨hlast, heq⟩
  exact h ⟨hlast, (IsUnder.of_eq heq).trans (IsUnder.of_isPrefix hpre)⟩

/-- **The flags of a path after the mark** are those from before, and those that it adds. -/
theorem flags_setDeleted (hnone : NoneRelocated towlower tree path) (path' : List WChar) :
    (getPathFlags towlower (setPathFlags towlower tree path fileDeletedFlag 0 none) path' false).1 =
      (getPathFlags towlower tree path' false).1 ||| addedFlags towlower path path' := by
  rw [getPathFlags, getPathFlags, walk_eq_answer, walk_eq_answer, addedFlags]
  by_cases hunder : hasLast path = true ∧ IsUnder towlower (names path) (names path')
  · rw [if_pos hunder]
    by_cases hat : (names path').length = (names path).length ∧ hasLast path' = true
    · have hsame : (names path).map (List.map towlower) = (names path').map (List.map towlower) :=
        hunder.2.eq_of_length (by rw [length_map, length_map, hat.1])
      rw [if_pos hat, flags_setDeleted_at hunder.1 hat.2 hsame]
    · rw [if_neg hat, flags_setDeleted_below hunder.1 hunder.2 hat hnone]
  · rw [if_neg hunder, flags_setDeleted_other hunder]
    exact BitVec.or_zero.symm

/-! ### The children of a path after the mark -/

theorem and_or_eq {x flags : BitVec 32} (h : x &&& flags = flags) (more : BitVec 32) :
    (x ||| more) &&& flags = flags := by
  rw [BitVec.and_or_distrib_right, h, BitVec.and_comm]
  apply BitVec.eq_of_getLsbD_eq
  intro i _
  rw [BitVec.getLsbD_or, BitVec.getLsbD_and]
  cases flags.getLsbD i <;> rfl

theorem hasChildWith_update {f : Mark → Mark} {more : BitVec 32}
    (hf : ∀ m, (f m).flags = m.flags ||| more) (flags : BitVec 32) (tree : PathNodes)
    (z : List WChar) (zs : List (List WChar)) :
    hasChildWith flags (tree.update (List.map towlower) Mark.none f (z :: zs)) = true ↔
      hasChildWith flags tree = true ∨
        ((tree.label (List.map towlower) Mark.none [z]).flags ||| if zs = [] then more else 0) &&&
          flags = flags := by
  have hzero : ∀ x : BitVec 32, x ||| 0 = x := fun _ => BitVec.or_zero
  induction tree with
  | nil =>
    rw [Forest.update, Forest.chain, Forest.label_nil, hasChildWith, hasChildWith]
    by_cases hzs : zs = []
    · simp [hzs, hf, hasChildWith]
    · simp [hzs, hasChildWith]
  | node k m items next _ ih =>
    rw [Forest.update]
    by_cases hkz : k.map towlower = z.map towlower
    · have hlabel : Forest.label (List.map towlower) Mark.none (.node k m items next) [z] = m := by
        rw [label_node_pos hkz, if_pos rfl]
      rw [if_pos hkz, hlabel]
      by_cases hzs : zs = []
      · rw [if_pos hzs, if_pos hzs, hasChildWith, hasChildWith, hf, Bool.or_eq_true,
          Bool.or_eq_true, decide_eq_true_iff, decide_eq_true_iff]
        refine ⟨fun h => ?_, fun h => ?_⟩
        · exact h.elim .inr fun h => .inl (.inr h)
        · exact h.elim (fun h => h.imp (fun h => and_or_eq h more) id) .inl
      · rw [if_neg hzs, if_neg hzs, hasChildWith, hasChildWith, hzero, Bool.or_eq_true,
          decide_eq_true_iff]
        exact ⟨.inl, fun h => h.elim id .inl⟩
    · have hlabel : Forest.label (List.map towlower) Mark.none (.node k m items next) [z] =
          next.label (List.map towlower) Mark.none [z] := label_node_neg hkz []
      rw [if_neg hkz, hlabel, hasChildWith, hasChildWith, Bool.or_eq_true, Bool.or_eq_true]
      exact (or_congr_right ih).trans or_assoc.symm

theorem hasChildWith_label {z : List WChar} :
    hasChildWith flags tree = true ∨
        (tree.label (List.map towlower) Mark.none [z]).flags &&& flags = flags ↔
      hasChildWith flags tree = true ∨ flags = 0 := by
  refine ⟨?_, fun h => h.imp id fun h => ?_⟩
  · rintro (h | h)
    · exact .inl h
    · induction tree with
      | nil =>
        exact .inr (h.symm.trans BitVec.zero_and)
      | node k m items next _ ih =>
        rw [hasChildWith, Bool.or_eq_true, decide_eq_true_iff]
        by_cases hkz : k.map towlower = z.map towlower
        · rw [label_node_pos hkz, if_pos rfl] at h
          exact .inl (.inl h)
        · rw [label_node_neg hkz] at h
          exact (ih h).imp .inr id
  · rw [h]
    exact BitVec.and_zero

theorem flags_setDeleted_mark (m : Mark) :
    (m.set fileDeletedFlag 0 none).flags = m.flags ||| fileDeletedFlag := and_not_zero _

theorem flags_ofLast (path : List WChar) (m : Mark) :
    ((if hasLast path = true then Mark.set fileDeletedFlag 0 none else id) m).flags =
      m.flags ||| if hasLast path = true then fileDeletedFlag else 0 := by
  split
  · exact flags_setDeleted_mark m
  · exact BitVec.or_zero.symm

theorem IsUnder.rest {path path' : List (List WChar)} (h : IsUnder towlower path' path) :
    ∃ ys zs, path = ys ++ zs ∧ ys.map (List.map towlower) = path'.map (List.map towlower) ∧
      zs.length + path'.length = path.length := by
  have hle : path'.length ≤ path.length := by
    have h := h.length_le
    rwa [length_map, length_map] at h
  refine ⟨path.take path'.length, path.drop path'.length, (take_append_drop _ _).symm, ?_, ?_⟩
  · obtain ⟨more, hmore⟩ := h
    rw [map_take, ← hmore]
    simp
  · rw [length_drop]
    omega

/-- **The flag of the children after the mark**, from the tree before it. -/
theorem hasDeleted_markDeleted (hlast' : hasLast path' = true)
    (hnone : NoneRelocated towlower (unbranched towlower root path) path) :
    hasDeleted towlower (markDeleted towlower root path).root path' = true ↔
      ChildPasses towlower root path path' := by
  have hne := names_ne_nil hlast'
  rw [markDeleted_root, hasDeleted_eq hlast', flags_setDeleted hnone, ChildPasses]
  generalize (getPathFlags towlower (unbranched towlower root path) path' false).1 |||
    addedFlags towlower path path' = flags
  generalize unbranched towlower root path = tree
  rw [setPathFlags, changeLast]
  by_cases hunder : IsUnder towlower (names path') (names path)
  · obtain ⟨ys, zs, hsplit, hys, hlength⟩ := hunder.rest
    have hysne : ys ≠ [] := by
      rintro rfl
      exact hne (map_eq_nil_iff.mp hys.symm)
    rw [hsplit, Forest.itemsAt_update _ _ hysne hys, ← hsplit]
    cases zs with
    | nil =>
      have heq : ¬(names path').length < (names path).length := by
        rw [length_nil] at hlength
        omega
      rw [Forest.update_nil_path]
      exact (or_iff_left fun h => heq h.2.1).symm
    | cons z zs =>
      have hlt : (names path').length < (names path).length := by
        rw [length_cons] at hlength
        omega
      rw [hasChildWith_update (flags_ofLast path)]
      by_cases hparent : hasLast path = true ∧ IsParent towlower path' path
      · -- the child is the path itself
        have hzs : zs = [] := by
          have hlen := hparent.2.2
          rw [length_cons] at hlength
          exact length_eq_zero_iff.mp (by omega)
        have hlabel : (tree.itemsAt (List.map towlower) (names path')).label (List.map towlower)
            Mark.none [z] = tree.label (List.map towlower) Mark.none (names path) := by
          rw [← Forest.label_concat tree hne]
          refine Forest.label_congr tree ?_
          rw [hsplit, hzs, map_append, map_append, hys]
        simp only [if_pos hparent, hzs, if_true, if_pos hparent.1, hlabel]
        exact or_congr_right ⟨fun h => ⟨hunder, hlt, h⟩, fun h => h.2.2⟩
      · -- the child is only on the way to the path, or is not marked
        have hnothing : (if zs = [] then if hasLast path = true then fileDeletedFlag else 0
            else 0) = (0 : BitVec 32) := by
          split
          · rename_i hzs
            rw [hzs, length_singleton] at hlength
            exact if_neg fun hlast => hparent ⟨hlast, hunder, by omega⟩
          · rfl
        have hzero : ∀ x : BitVec 32, x ||| 0 = x := fun _ => BitVec.or_zero
        rw [hnothing, hzero, if_neg hparent, hasChildWith_label]
        exact or_congr_right ⟨fun h => ⟨hunder, hlt, h⟩, fun h => h.2.2⟩
  · rw [Forest.itemsAt_update_other _ _ hunder]
    exact (or_iff_left fun h => hunder h.1).symm

/-- **The deleted children after the mark**: those from before, and the path itself. -/
theorem deletedChild_markDeleted :
    DeletedChild towlower (markDeleted towlower root path).root path' ↔
      hasLast path = true ∧ IsParent towlower path' path ∨
        DeletedChild towlower (unbranched towlower root path) path' := by
  rw [markDeleted_root]
  refine ⟨?_, ?_⟩
  · rintro ⟨name, hname⟩
    rw [label_setDeleted] at hname
    split at hname
    · rename_i heq
      refine .inl ⟨heq.1, ?_, ?_⟩
      · exact (IsUnder.of_isPrefix (prefix_append _ _)).trans (IsUnder.of_eq heq.2.symm)
      · rw [length_of_map heq.2, length_append, length_singleton]
    · exact .inr ⟨name, hname⟩
  · rintro (⟨hlast, hunder, hlength⟩ | ⟨name, hname⟩)
    · obtain ⟨ys, zs, hsplit, hys, hrest⟩ := hunder.rest
      obtain ⟨name, rfl⟩ := length_eq_one_iff.mp (show zs.length = 1 by omega)
      refine ⟨name, ?_⟩
      rw [label_setDeleted, if_pos, Mark.deleted_setDeleted]
      exact ⟨hlast, by rw [hsplit, map_append, map_append, hys]⟩
    · refine ⟨name, ?_⟩
      rw [label_setDeleted]
      split
      · exact Mark.deleted_setDeleted _
      · exact hname

/-! ### The paths at the marked one and below it -/

theorem exists_fresh (tree : PathNodes) :
    ∃ name, IsName name ∧ ∀ k ∈ tree.keys, k.map towlower ≠ name.map towlower := by
  obtain ⟨n, hn⟩ : ∃ n, ∀ k ∈ tree.keys, k.length ≤ n := by
    induction tree.keys with
    | nil => exact ⟨0, fun k hk => nomatch hk⟩
    | cons k ks ih =>
      obtain ⟨n, hn⟩ := ih
      refine ⟨max k.length n, fun k' hk' => ?_⟩
      obtain rfl | hk' := mem_cons.mp hk'
      · exact le_max_left _ _
      · exact (hn k' hk').trans (le_max_right _ _)
  refine ⟨List.replicate (n + 1) 97, ⟨by simp, by simp⟩, fun k hk heq => ?_⟩
  have hlength := congrArg List.length heq
  rw [length_map, length_map, length_replicate] at hlength
  have hle := hn k hk
  omega

theorem segments_name {name : List WChar} (h : IsName name) : segments name = [(name, [])] := by
  have hcut := segmentsFrom_append h.noBackslash [] []
  rw [append_nil, nil_append] at hcut
  rw [segments, hcut, segmentsFrom_nil h.ne_nil]

theorem not_deleted_below_relocated (hlast : hasLast path = true)
    (hrelocated : (tree.label (List.map towlower) Mark.none (names path)).relocated = true) :
    ∃ path', hasLast path' = true ∧ IsUnder towlower (names path) (names path') ∧
      deletedStatus towlower tree path' = 0 := by
  obtain ⟨name, hname, hfresh⟩ :=
    @exists_fresh towlower (tree.itemsAt (List.map towlower) (names path))
  have hsegs : segments (path ++ 92 :: name) =
      (segments path).map (fun seg => (seg.1, seg.2 ++ 92 :: name)) ++ [(name, [])] := by
    rw [segments_slash hlast, segments_name hname]
  have hnames : names (path ++ 92 :: name) = names path ++ [name] := by
    rw [names, hsegs, map_append, map_map]
    rfl
  have hlabel : tree.label (List.map towlower) Mark.none (names path ++ [name]) = Mark.none := by
    rw [Forest.label_concat tree (names_ne_nil hlast), Forest.label_cons,
      Forest.child_eq_none hfresh]
  refine ⟨path ++ 92 :: name, ?_, ?_, ?_⟩
  · rw [hasLast, hsegs, getLast?_concat]
  · rw [hnames]
    exact IsUnder.of_isPrefix (prefix_append _ _)
  · obtain ⟨flags, hflags, hanswer⟩ :=
      answer_slash hlast (tree.label (List.map towlower) Mark.none) name
    by_contra hne
    rw [← ne_eq, deletedStatus_ne_zero, hanswer] at hne
    rw [segments_name hname, answer, if_pos rfl, filePathDeleted_lastFlags, hlabel, hflags,
      hrelocated] at hne
    simp at hne

theorem under_iff (hlast : hasLast path = true) :
    (∀ path', hasLast path' = true → IsUnder towlower (names path) (names path') →
        deletedStatus towlower (markDeleted towlower root path).root path' ≠ 0) ↔
      NoneRelocated towlower (unbranched towlower root path) path := by
  rw [markDeleted_root]
  generalize unbranched towlower root path = tree
  have hrelocated : ∀ ys, ((setPathFlags towlower tree path fileDeletedFlag 0 none).label
      (List.map towlower) Mark.none ys).relocated =
        (tree.label (List.map towlower) Mark.none ys).relocated := by
    intro ys
    rw [setPathFlags]
    exact (label_changeLast_keeps Mark.keeps_setDeleted tree path ys).relocated
  refine ⟨fun h _ path' hlast' hunder => ?_, fun h path' hlast' hunder => ?_⟩
  · by_contra hno
    rw [← hrelocated] at hno
    obtain ⟨path'', hlast'', hunder', hzero⟩ :=
      not_deleted_below_relocated hlast' (Bool.not_eq_false _ ▸ hno)
    exact h path'' hlast'' (hunder.trans hunder') hzero
  · have hflags := flags_setDeleted h path'
    simp only [getPathFlags, walk_eq_answer] at hflags
    rw [deletedStatus_ne_zero, hflags, addedFlags, if_pos ⟨hlast, hunder⟩, filePathDeleted_eq,
      BitVec.getLsbD_or, BitVec.getLsbD_or]
    split
    · rw [show fileDeletedFlag.getLsbD 0 = true by decide, Bool.or_true, Bool.true_or]
    · rw [show filePathDeletedFlag.getLsbD 16 = true by decide, Bool.or_true, Bool.or_true]

theorem deletedStatus_noLast (h : hasLast path = false) (path' : List WChar) :
    deletedStatus towlower (markDeleted towlower root path).root path' =
      deletedStatus towlower root path' := by
  have hlabel : (markDeleted towlower root path).root.label (List.map towlower) Mark.none =
      root.label (List.map towlower) Mark.none := by
    funext ys
    rw [markDeleted_root, label_setDeleted, unbranched_eq h, if_neg fun hlast => by
      rw [h] at hlast
      exact Bool.false_ne_true hlast.1]
  rw [deletedStatus_eq, deletedStatus_eq, hlabel]

theorem others_markDeleted (h : ¬IsUnder towlower (names path) (names path')) :
    deletedStatus towlower (markDeleted towlower root path).root path' =
        deletedStatus towlower root path' ∧
      relocation towlower (markDeleted towlower root path).root path' =
        relocation towlower root path' := by
  have hlabel : ∀ ys, ys ≠ [] → ys <+: names path' →
      (markDeleted towlower root path).root.label (List.map towlower) Mark.none ys =
        root.label (List.map towlower) Mark.none ys := fun ys _ hpre =>
    label_markDeleted_ne fun hat => h (hat.trans (IsUnder.of_isPrefix hpre))
  have hsame := answer_congr_names (segments path') hlabel 0 none
  rw [deletedStatus_eq, deletedStatus_eq, relocation_eq, relocation_eq, hsame]
  exact ⟨rfl, rfl⟩

theorem exists_deleted {marks : List (List WChar) → Mark}
    {relocation : Option (List WChar)} (hflags : filePathDeleted flags = false)
    (h : filePathDeleted (answer marks segs flags relocation).1 = true) :
    ∃ ys name, ys ++ [name] <+: segs.map Prod.fst ∧ (marks (ys ++ [name])).deleted = true := by
  induction segs generalizing marks flags relocation with
  | nil => exact absurd (hflags.symm.trans h) Bool.false_ne_true
  | cons seg more ih =>
    obtain ⟨name, next⟩ := seg
    cases hname : (marks [name]).deleted with
    | true => exact ⟨[], name, cons_prefix_cons.mpr ⟨rfl, nil_prefix⟩, hname⟩
    | false =>
      rw [answer] at h
      by_cases hnext : next = []
      · rw [if_pos hnext, filePathDeleted_lastFlags, hflags, hname] at h
        cases h
      · rw [if_neg hnext] at h
        have hpass : filePathDeleted (passFlags flags (marks [name])) = false := by
          rw [filePathDeleted_passFlags, hflags, hname, Bool.or_false, Bool.and_false]
        obtain ⟨ys, name', hpre, hdeleted⟩ := ih hpass h
        exact ⟨name :: ys, name', cons_prefix_cons.mpr ⟨rfl, hpre⟩, hdeleted⟩

theorem segments_pathText_slash {ys : List (List WChar)} (h : ∀ name ∈ ys, IsName name) :
    names (pathText ys ++ [92]) = ys ∧ hasLast (pathText ys ++ [92]) = false := by
  by_cases hys : ys = []
  · subst hys
    exact ⟨rfl, rfl⟩
  have hsegs := segments_slash (hasLast_pathText h hys) []
  rw [show segments [] = [] from rfl, append_nil] at hsegs
  refine ⟨?_, ?_⟩
  · rw [names, hsegs, map_map]
    exact names_pathText h
  · obtain ⟨⟨name, next⟩, hlast⟩ : ∃ seg, (segments (pathText ys)).getLast? = some seg := by
      have hsome := getLast_of_hasLast (hasLast_pathText h hys)
      obtain ⟨seg, hseg, -⟩ := Option.map_eq_some_iff.mp hsome
      exact ⟨seg, hseg⟩
    rw [hasLast, hsegs, getLast?_map, hlast]
    cases next <;> rfl

/-- **What the mark of a path does**: what it is for, for the paths that end in a name, exactly
when these are right before it; and never for the paths with a backslash behind them, for which
there is no look at the children. -/
theorem intended_iff (root : PathNodes) (path : List WChar) :
    (Intended towlower (fun path' => hasLast path' = true) root path ↔
        MarksRight towlower root path) ∧
      ¬Intended towlower (fun _ => True) root path := by
  refine ⟨⟨fun h => ?_, fun h => ?_⟩, fun h => ?_⟩
  · have hnone : NoneRelocated towlower (unbranched towlower root path) path :=
      fun hlast => (under_iff hlast).mp h.under hlast
    refine ⟨hnone, fun hlast path' hlast' hunder => ?_, fun path' hlast' => ?_⟩
    · rw [← deletedStatus_noLast hlast]
      exact h.under path' hlast' hunder
    · rw [← hasDeleted_markDeleted hlast' hnone, ← deletedChild_markDeleted]
      exact h.children path' hlast'
  · refine ⟨fun path' hlast' hunder => ?_, fun path' _ => others_markDeleted,
      fun path' hlast' => ?_⟩
    · by_cases hlast : hasLast path = true
      · exact (under_iff hlast).mpr h.relocated path' hlast' hunder
      · have hlast := Bool.not_eq_true _ ▸ hlast
        rw [deletedStatus_noLast hlast]
        exact h.deleted hlast path' hlast' hunder
    · rw [hasDeleted_markDeleted hlast' h.relocated, deletedChild_markDeleted]
      exact h.children path' hlast'
  · -- the path is deleted through a node, and that is a child of the path in front of it
    have hdeleted := h.under path trivial (IsUnder.of_eq rfl)
    rw [deletedStatus_ne_zero] at hdeleted
    obtain ⟨ys, name, hpre, hname⟩ := exists_deleted rfl hdeleted
    have hys : ∀ name ∈ ys, IsName name := fun name' hname' =>
      isName_of_mem_names (hpre.subset (mem_append_left _ hname'))
    obtain ⟨hnames, hlast⟩ := segments_pathText_slash hys
    have hchildren := (h.children (pathText ys ++ [92]) trivial).mpr ⟨name, by rw [hnames, hname]⟩
    rw [hasDeleted_eq_false hlast] at hchildren
    exact Bool.false_ne_true hchildren

end Fold

/-- The first deletion of all is that of `\a\b\c`: `\a` has deleted children then, but its only
child `\a\b` is not deleted. -/
theorem children_not_deleted :
    ¬∀ (calls : List Call) (root : PathNodes) (path : List WChar),
      Calls asciiLower .nil calls root →
        Intended asciiLower (fun path' => hasLast path' = true) root path := by
  intro h
  have hmarked := h [] .nil (wide ['\\', 'a', '\\', 'b', '\\', 'c']) (.nil _)
  obtain ⟨name, hname⟩ := (hmarked.children (wide ['\\', 'a']) (by decide)).mp (by decide)
  have htree : (markDeleted asciiLower .nil (wide ['\\', 'a', '\\', 'b', '\\', 'c'])).root =
      .node (wide ['a']) ⟨0, none⟩
        (.node (wide ['b']) ⟨0, none⟩ (.node (wide ['c']) ⟨1, none⟩ .nil .nil) .nil) .nil := by
    decide
  have hlabel : ((markDeleted asciiLower .nil
      (wide ['\\', 'a', '\\', 'b', '\\', 'c'])).root.label (List.map asciiLower) Mark.none
        (names (wide ['\\', 'a']) ++ [name])).deleted = false := by
    rw [htree, show names (wide ['\\', 'a']) = [wide ['a']] by decide, singleton_append,
      label_node_pos rfl, if_neg (cons_ne_nil _ _)]
    by_cases hb : (wide ['b']).map asciiLower = name.map asciiLower
    · rw [label_node_pos hb]
      decide
    · rw [label_node_neg hb, Forest.label_nil, Mark.deleted_none]
  rw [hlabel] at hname
  cases hname

end Sandboxie.PathTree
