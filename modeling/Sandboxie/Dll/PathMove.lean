import Sandboxie.Dll.PathMarks

/-!
# What a rename moves

`File_SetRelocation_internal` gives the new path the view that the old one had, and marks the old
one deleted, when nothing in the tree is in the way (`Movable`): `rename_moves`.  The new path may
not be marked deleted then, since the code adds the relocation to the flags that its node has.
-/

namespace Sandboxie.PathTree

open Text List Option

section Fold

variable (towlower : WChar → WChar)

def resolve (root : PathNodes) (path : List WChar) : List WChar :=
  (relocation towlower root path).getD path

/-- A node is not both deleted and relocated, and has the text of its relocation. -/
structure Mark.Single (m : Mark) : Prop where
  single : (m.deleted && m.relocated) = false
  text : m.relocated = true → m.relocation.isSome = true

/-- The relocation leaves the tree in order: neither of its paths is below the other one, the
new path is not marked deleted and has no node below it that the old one has too, and the target
of the old path is neither relocated nor at or below one of them. -/
structure Fair (root : PathNodes) (oldTruePath newTruePath : List WChar) : Prop where
  moves : sameNoCase towlower oldTruePath newTruePath = false
  oldLast : hasLast oldTruePath = true
  newLast : hasLast newTruePath = true
  newBelow : ¬IsUnder towlower (names oldTruePath) (names newTruePath)
  oldBelow : ¬IsUnder towlower (names newTruePath) (names oldTruePath)
  notDeleted : (root.label (List.map towlower) Mark.none (names newTruePath)).deleted = false
  below : ∀ x, (root.find (List.map towlower) (names newTruePath ++ [x])).isSome = true →
    root.find (List.map towlower) (names oldTruePath ++ [x]) = none
  target : ∀ truePath ∈ relocationOf towlower root oldTruePath,
    (root.label (List.map towlower) Mark.none (names truePath)).relocated = false ∧
      ¬IsUnder towlower (names oldTruePath) (names truePath) ∧
      ¬IsUnder towlower (names newTruePath) (names truePath)

variable {oldTruePath newTruePath : List WChar}

theorem Fair.names_ne {root : PathNodes} (h : Fair towlower root oldTruePath newTruePath) :
    (names oldTruePath).map (List.map towlower) ≠
      (names newTruePath).map (List.map towlower) :=
  fun hsame => h.newBelow (IsUnder.of_eq hsame)

/-- The view of the old path can be moved: the old path is neither deleted nor relocated itself,
the new one is not deleted, nor is one above it, and there is no mark below it. -/
structure Movable (root : PathNodes) (oldTruePath newTruePath : List WChar) : Prop
    extends Fair towlower root oldTruePath newTruePath where
  oldThere : deletedStatus towlower root oldTruePath = 0
  oldTrue : (root.label (List.map towlower) Mark.none (names oldTruePath)).relocated = false
  newFree : deletedStatus towlower root newTruePath = 0
  unmarked : ∀ ys, ys ≠ [] →
    root.label (List.map towlower) Mark.none (names newTruePath ++ ys) = Mark.none

/-- The view of the old path is moved to the new one. -/
structure Moved (root root' : PathNodes) (oldTruePath newTruePath : List WChar) : Prop where
  below : ∀ s,
    (deletedStatus towlower root' (newTruePath ++ 92 :: s) ≠ 0 ↔
        deletedStatus towlower root (oldTruePath ++ 92 :: s) ≠ 0) ∧
      resolve towlower root' (newTruePath ++ 92 :: s) =
        resolve towlower root (oldTruePath ++ 92 :: s)
  new : deletedStatus towlower root' newTruePath = 0 ∧
    relocation towlower root' newTruePath = some (resolve towlower root oldTruePath)
  old : ∀ path, IsUnder towlower (names oldTruePath) (names path) →
    deletedStatus towlower root' path ≠ 0
  others : ∀ path, ¬IsUnder towlower (names oldTruePath) (names path) →
    ¬IsUnder towlower (names newTruePath) (names path) →
    deletedStatus towlower root' path = deletedStatus towlower root path ∧
      relocation towlower root' path = relocation towlower root path
  single : root'.All fun _ m => m.Single

def Call.IsFair (root : PathNodes) : Call → Prop
  | .markDeleted _ => True
  | .setRelocation oldTruePath newTruePath => Fair towlower root oldTruePath newTruePath

def FairCalls : List Call → PathNodes → Prop :=
  Run (fun root call root' => call.run towlower root = some root') (Call.IsFair towlower) .nil

variable {towlower}

/-! ### Paths that go on -/

theorem segmentsFrom_slash (path name s : List WChar) :
    (segmentsFrom name path).getLast?.map Prod.snd = some [] →
    segmentsFrom name (path ++ 92 :: s) =
      (segmentsFrom name path).map (fun seg => (seg.1, seg.2 ++ 92 :: s)) ++ segments s := by
  induction path generalizing name with
  | nil =>
    intro h
    cases name with
    | nil => cases h
    | cons c name => rfl
  | cons c path ih =>
    intro h
    rw [cons_append, segmentsFrom, segmentsFrom]
    rw [segmentsFrom] at h
    by_cases hc : c = 92
    · rw [if_pos hc] at h
      rw [if_pos hc, if_pos hc]
      by_cases hname : name = []
      · rw [if_pos hname] at h
        rw [if_pos hname, if_pos hname]
        exact ih [] h
      rw [if_neg hname] at h
      rw [if_neg hname, if_neg hname]
      -- there is a name behind the backslash
      have hrest : (segmentsFrom [] path).getLast?.map Prod.snd = some [] := by
        cases hsegs : segmentsFrom [] path with
        | nil => simp [hsegs] at h
        | cons seg more =>
          rw [hsegs, getLast?_cons_cons] at h
          exact h
      rw [ih [] hrest, map_cons, cons_append, cons_append]
    · rw [if_neg hc] at h
      rw [if_neg hc, if_neg hc]
      exact ih (name ++ [c]) h

variable {path : List WChar}

theorem getLast_of_hasLast (h : hasLast path = true) :
    (segments path).getLast?.map Prod.snd = some [] := by
  rw [hasLast] at h
  split at h
  · rename_i name hname
    rw [hname]
    rfl
  · cases h

theorem segments_slash (h : hasLast path = true) (s : List WChar) :
    segments (path ++ 92 :: s) =
      (segments path).map (fun seg => (seg.1, seg.2 ++ 92 :: s)) ++ segments s :=
  segmentsFrom_slash path [] s (getLast_of_hasLast h)

/-- The answer for a path below another one goes on from that for the other one. -/
theorem answer_slash (h : hasLast path = true) (marks : List (List WChar) → Mark) (s : List WChar) :
    ∃ flags, filePathDeleted flags = (!(marks (names path)).relocated &&
        filePathDeleted (answer marks (segments path) 0 none).1) ∧
      answer marks (segments (path ++ 92 :: s)) 0 none =
        answer (fun ys => marks (names path ++ ys)) (segments s) flags
          ((answer marks (segments path) 0 none).2.map (· ++ 92 :: s)) := by
  have hsegs : ∀ (segs : List (List WChar × List WChar)) (marks : List (List WChar) → Mark)
      (flags : BitVec 32) (relocation : Option (List WChar)),
      segs.getLast?.map Prod.snd = some [] → (∀ seg ∈ segs.dropLast, seg.2 ≠ []) →
      ∃ flags', filePathDeleted flags' = (!(marks (segs.map Prod.fst)).relocated &&
          filePathDeleted (answer marks segs flags relocation).1) ∧
        answer marks (segs.map (fun seg => (seg.1, seg.2 ++ 92 :: s)) ++ segments s) flags
            (relocation.map (· ++ 92 :: s)) =
          answer (fun ys => marks (segs.map Prod.fst ++ ys)) (segments s) flags'
            ((answer marks segs flags relocation).2.map (· ++ 92 :: s)) := by
    intro segs
    induction segs with
    | nil =>
      intro marks flags relocation hlast
      cases hlast
    | cons seg more ih =>
      intro marks flags relocation hlast hinit
      obtain ⟨name, next⟩ := seg
      have hne : next ++ 92 :: s ≠ [] := by simp
      have hrelocation : lastRelocation (relocation.map (· ++ 92 :: s)) (marks [name])
          (next ++ 92 :: s) =
            (lastRelocation relocation (marks [name]) next).map (· ++ 92 :: s) := by
        unfold lastRelocation
        split
        · simp [Function.comp_def]
        · rfl
      have hpass : answer marks (((name, next) :: more).map (fun seg =>
        (seg.1, seg.2 ++ 92 :: s)) ++
          segments s) flags (relocation.map (· ++ 92 :: s)) =
          answer (fun path => marks (name :: path))
            (more.map (fun seg => (seg.1, seg.2 ++ 92 :: s)) ++ segments s)
            (passFlags flags (marks [name]))
            ((lastRelocation relocation (marks [name]) next).map (· ++ 92 :: s)) := by
        rw [← hrelocation]
        exact if_neg hne
      rw [hpass, answer]
      cases more with
      | nil =>
        obtain rfl : next = [] := by simpa using hlast
        refine ⟨passFlags flags (marks [name]), ?_, rfl⟩
        rw [if_pos rfl, filePathDeleted_passFlags, filePathDeleted_lastFlags]
        show _ = (!(marks [name]).relocated && _)
        rw [Bool.or_comm]
      | cons first more =>
        have hnext : next ≠ [] := hinit (name, next) (by simp)
        have hmore : (first :: more).getLast?.map Prod.snd = some [] := by
          exact hlast
        have hrest : ∀ seg ∈ (first :: more).dropLast, seg.2 ≠ [] := by
          intro seg hseg
          apply hinit seg
          rw [dropLast_cons_cons]
          exact mem_cons_of_mem _ hseg
        rw [if_neg hnext]
        exact ih (fun path => marks (name :: path)) _ _ hmore hrest
  rw [segments_slash h]
  exact hsegs (segments path) marks 0 none (getLast_of_hasLast h) (segmentsFrom_init path [])

theorem answer_deleted_congr (marks : List (List WChar) → Mark)
    (segs : List (List WChar × List WChar)) {flags flags' : BitVec 32}
    (h : filePathDeleted flags' = filePathDeleted flags)
    (relocation relocation' : Option (List WChar)) :
    filePathDeleted (answer marks segs flags' relocation').1 =
      filePathDeleted (answer marks segs flags relocation).1 := by
  induction segs generalizing marks flags flags' relocation relocation' with
  | nil => exact h
  | cons seg more ih =>
    rw [answer, answer]
    split
    · rw [filePathDeleted_lastFlags, filePathDeleted_lastFlags, h]
    · apply ih
      rw [filePathDeleted_passFlags, filePathDeleted_passFlags, h]

theorem answer_resolve_congr {marks : List (List WChar) → Mark}
    (htext : ∀ ys, (marks ys).relocated = true → (marks ys).relocation.isSome = true)
    (segs : List (List WChar × List WChar)) (flags flags' : BitVec 32)
    {relocation relocation' : Option (List WChar)} {path path' : List WChar}
    (h : relocation'.getD path' = relocation.getD path) :
    (answer marks segs flags' relocation').2.getD path' =
      (answer marks segs flags relocation).2.getD path := by
  induction segs generalizing marks flags flags' relocation relocation' with
  | nil => exact h
  | cons seg more ih =>
    obtain ⟨name, next⟩ := seg
    have hlast : (lastRelocation relocation' (marks [name]) next).getD path' =
        (lastRelocation relocation (marks [name]) next).getD path := by
      unfold lastRelocation
      split
      · rename_i hrelocated
        obtain ⟨r, hr⟩ := isSome_iff_exists.mp (htext [name] hrelocated)
        rw [hr]
        rfl
      · exact h
    rw [answer, answer]
    split
    · exact hlast
    · exact ih (fun ys => htext (name :: ys)) _ _ hlast

theorem answer_congr_names {marks marks' : List (List WChar) → Mark}
    (segs : List (List WChar × List WChar))
    (h : ∀ ys, ys ≠ [] → ys <+: segs.map Prod.fst → marks' ys = marks ys) (flags : BitVec 32)
    (relocation : Option (List WChar)) :
    answer marks' segs flags relocation = answer marks segs flags relocation := by
  induction segs generalizing marks marks' flags relocation with
  | nil => rfl
  | cons seg more ih =>
    obtain ⟨name, next⟩ := seg
    have hmore : ∀ ys, ys ≠ [] → ys <+: more.map Prod.fst →
        (fun path => marks' (name :: path)) ys = (fun path => marks (name :: path)) ys :=
      fun ys _ hys => h (name :: ys) (cons_ne_nil _ _) (cons_prefix_cons.mpr ⟨rfl, hys⟩)
    rw [answer, answer, h [name] (cons_ne_nil _ _)
      (cons_prefix_cons.mpr ⟨rfl, nil_prefix⟩), ih hmore]

/-! ### Marks -/

theorem Mark.single_none : Mark.none.Single := ⟨by decide, by decide⟩

theorem Mark.relocated_release (m : Mark) : m.release.relocated = false := by
  unfold Mark.release
  split
  · have hbit : fileRelocationFlag.getLsbD 1 = true := by decide
    rw [Mark.relocated_eq, BitVec.getLsbD_and, BitVec.getLsbD_not, hbit]
    simp
  · rename_i h
    exact Bool.not_eq_true _ ▸ h

theorem Mark.release_eq {m : Mark} (h : m.relocated = false) : m.release = m := by
  rw [Mark.release, if_neg (by simp [h])]

theorem Mark.Single.release {m : Mark} (h : m.Single) : m.release.Single := by
  cases hr : m.relocated with
  | false =>
    rw [Mark.release_eq hr]
    exact h
  | true =>
    refine ⟨?_, fun hrelease => ?_⟩
    · rw [m.relocated_release, Bool.and_false]
    · rw [m.relocated_release] at hrelease
      cases hrelease

theorem Mark.single_setDeleted {m : Mark} (h : m.relocated = false) :
    (m.set fileDeletedFlag 0 Option.none).Single := by
  have hrelocated := m.keeps_setDeleted.relocated.trans h
  refine ⟨?_, fun hr => ?_⟩
  · rw [hrelocated, Bool.and_false]
  · rw [hrelocated] at hr
    cases hr

def Mark.relocate (truePath : List WChar) (m : Mark) : Mark :=
  ⟨m.flags ||| fileRelocationFlag, some truePath⟩

theorem Mark.relocated_relocate (truePath : List WChar) (m : Mark) :
    (m.relocate truePath).relocated = true := by
  have hbit : fileRelocationFlag.getLsbD 1 = true := by decide
  rw [Mark.relocated_eq, relocate, BitVec.getLsbD_or, hbit, Bool.or_true]

theorem Mark.deleted_relocate (truePath : List WChar) (m : Mark) :
    (m.relocate truePath).deleted = m.deleted := by
  have hbit : fileRelocationFlag.getLsbD 0 = false := by decide
  rw [Mark.deleted_eq, relocate, BitVec.getLsbD_or, hbit, Bool.or_false, Mark.deleted_eq]

theorem Mark.single_relocate {m : Mark} (truePath : List WChar) (h : m.deleted = false) :
    (m.relocate truePath).Single := by
  refine ⟨?_, fun _ => rfl⟩
  rw [m.deleted_relocate, h, Bool.false_and]

/-! ### Nodes -/

variable {root : PathNodes}

theorem label_changeLast {f : Mark → Mark} (hlast : hasLast path = true) (ys : List (List WChar)) :
    (changeLast towlower f root path).label (List.map towlower) Mark.none ys =
      if (names path).map (List.map towlower) = ys.map (List.map towlower) then
        f (root.label (List.map towlower) Mark.none ys)
      else root.label (List.map towlower) Mark.none ys := by
  rw [changeLast, if_pos hlast, Forest.label_update _ _ (names_ne_nil hlast)]

theorem find_changeLast {f : Mark → Mark}
    {ys : List (List WChar)} (h : ¬IsUnder towlower ys (names path)) :
    (changeLast towlower f root path).find (List.map towlower) ys =
      root.find (List.map towlower) ys :=
  Forest.find_update _ root h

theorem single_changeLast {f : Mark → Mark} {root : PathNodes} {path : List WChar}
    (hroot : root.All fun _ m => m.Single)
    (hf : (root.label (List.map towlower) Mark.none (names path)).Single →
      (f (root.label (List.map towlower) Mark.none (names path))).Single) :
    (changeLast towlower f root path).All fun _ m => m.Single := by
  refine hroot.update_label (fun _ _ => Mark.single_none) fun _ h => ?_
  split
  · exact hf h
  · exact h

theorem label_findPathBranche_none
    (hlast : hasLast path = true) (h : findPathBranche towlower root path = none)
    (more : List (List WChar)) :
    root.label (List.map towlower) Mark.none (names path ++ more) = Mark.none := by
  rw [findPathBranche, if_pos hlast] at h
  exact Forest.label_find_none (names_ne_nil hlast) h more

theorem label_releaseOld (hlast : hasLast path = true) (ys : List (List WChar)) :
    (releaseOld towlower root path).label (List.map towlower) Mark.none ys =
      if (names path).map (List.map towlower) = ys.map (List.map towlower) then
        (root.label (List.map towlower) Mark.none ys).release
      else root.label (List.map towlower) Mark.none ys := by
  unfold releaseOld
  cases hfind : findPathBranche towlower root path with
  | some found => exact label_changeLast hlast ys
  | none =>
    have hnone := label_findPathBranche_none hlast hfind []
    rw [append_nil] at hnone
    show root.label (List.map towlower) Mark.none ys = _
    split
    · rename_i hsame
      rw [Forest.label_congr root hsame.symm, hnone]
      rfl
    · rfl

theorem relocationOf_eq_none
    (h : (root.label (List.map towlower) Mark.none (names path)).relocated = false) :
    relocationOf towlower root path = none := by
  unfold relocationOf
  cases hfind : findPathBranche towlower root path with
  | none => rfl
  | some found =>
    rw [findPathBranche] at hfind
    split at hfind
    · rw [Forest.label, hfind] at h
      show (if found.1.relocated then found.1.relocation else none) = none
      rw [if_neg (by simp [h])]
    · cases hfind

/-! ### Fair calls -/

section FairCall

variable {root : PathNodes} {oldTruePath newTruePath : List WChar}

theorem Fair.truePath (h : Fair towlower root oldTruePath newTruePath) {truePath : List WChar}
    (htrue : truePath = (relocationOf towlower root oldTruePath).getD oldTruePath) :
    ((releaseOld towlower root oldTruePath).label (List.map towlower) Mark.none
        (names truePath)).relocated = false ∧
      (∀ x, ¬IsUnder towlower (names oldTruePath ++ [x]) (names truePath)) ∧
      ¬IsUnder towlower (names newTruePath) (names truePath) := by
  rw [label_releaseOld h.oldLast]
  cases htarget : relocationOf towlower root oldTruePath with
  | none =>
    rw [htarget] at htrue
    obtain rfl : truePath = oldTruePath := htrue
    rw [if_pos rfl]
    refine ⟨Mark.relocated_release _, fun x hunder => ?_, h.oldBelow⟩
    have hlength := hunder.length_le
    simp only [length_map, length_append, length_singleton] at hlength
    omega
  | some target =>
    rw [htarget] at htrue
    obtain rfl : truePath = target := htrue
    obtain ⟨hrelocated, hold, hnew⟩ := h.target truePath htarget
    rw [if_neg fun hsame => hold (IsUnder.of_eq hsame)]
    exact ⟨hrelocated, fun x hunder => hold
      ((IsUnder.of_isPrefix (prefix_append _ _)).trans hunder), hnew⟩

theorem find_redirected {truePath : List WChar} {isTarget : Bool} {ys : List (List WChar)}
    (hold : ¬IsUnder towlower ys (names oldTruePath))
    (htrue : ¬IsUnder towlower ys (names truePath))
    (hnew : ¬IsUnder towlower ys (names newTruePath)) :
    (redirected towlower root oldTruePath newTruePath truePath isTarget).find (List.map towlower)
      ys = root.find (List.map towlower) ys := by
  rw [redirected, redirect, find_changeLast hnew, find_changeLast hnew, setPathFlags,
    find_changeLast htrue]
  unfold releaseOld
  split
  · exact find_changeLast hold
  · rfl

theorem not_isUnder_concat (path : List (List WChar)) (x : List WChar) :
    ¬IsUnder towlower (path ++ [x]) path := by
  intro hunder
  have hlength := hunder.length_le
  simp only [length_map, length_append, length_singleton] at hlength
  omega

theorem not_isUnder_of_concat {path path' : List (List WChar)} {x : List WChar}
    (h : ¬IsUnder towlower path path') : ¬IsUnder towlower (path ++ [x]) path' :=
  fun hunder => h ((IsUnder.of_isPrefix (prefix_append _ _)).trans hunder)

theorem Fair.apart (h : Fair towlower root oldTruePath newTruePath) {root' : PathNodes}
    (hstep : setRelocation towlower root oldTruePath newTruePath = some root')
    (hapart : root.Apart (List.map towlower)) : root'.Apart (List.map towlower) := by
  obtain ⟨-, directed, moved, hdirected, hmoved, rfl⟩ := setRelocation_steps hstep h.moves
  obtain ⟨-, htrueOld, htrueNew⟩ := h.truePath rfl
  have hreleased : (releaseOld towlower root oldTruePath).Apart (List.map towlower) := by
    unfold releaseOld
    split
    · exact hapart.update _ _
    · exact hapart
  have hdirectedApart : directed.Apart (List.map towlower) := by
    rw [hdirected]
    exact ((hreleased.update _ _).update _ _).update _ _
  have hmovedApart : moved.Apart (List.map towlower) := by
    split at hmoved
    · unfold reattach at hmoved
      cases hfind : directed.find (List.map towlower) (names oldTruePath) with
      | none =>
        rw [hfind] at hmoved
        exact Option.some.inj hmoved ▸ hdirectedApart
      | some found =>
        obtain ⟨mark, items⟩ := found
        rw [hfind] at hmoved
        have hne := h.names_ne
        simp only [if_neg hne] at hmoved
        cases hmoved
        have hitems := hdirectedApart.find hfind
        have hcleared : (directed.mapItems (List.map towlower) (fun _ => .nil)
            (names oldTruePath)).Apart (List.map towlower) :=
          hdirectedApart.mapItems fun _ _ _ _ => trivial
        refine hcleared.mapItems fun mark' below hbelow hu => hu.append hitems ?_
        intro k hk x hx hsame
        -- the name is below both paths
        have hlast := (setRelocation_steps hstep h.moves).1
        have hnew : (root.find (List.map towlower) (names newTruePath ++ [k])).isSome = true := by
          rw [← find_redirected (not_isUnder_of_concat h.oldBelow)
            (not_isUnder_of_concat htrueNew) (not_isUnder_concat _ k), ← hdirected,
            ← Forest.find_mapItems (fun _ => .nil) directed
              (not_isUnder_of_concat h.oldBelow) ?_,
            Forest.find_concat (names_ne_nil hlast), hbelow]
          · exact Forest.child_isSome.mpr ⟨k, hk, rfl⟩
          · intro hunder
            rcases isUnder_concat.mp hunder with heq | hunder
            · exact h.oldBelow ((IsUnder.of_isPrefix (prefix_append _ _)).trans
                (IsUnder.of_eq heq.symm))
            · exact h.newBelow hunder
        have hold := h.below k hnew
        rw [← find_redirected (not_isUnder_concat _ k) (htrueOld k)
          (not_isUnder_of_concat h.newBelow), ← hdirected,
          Forest.find_concat (names_ne_nil h.oldLast), hfind] at hold
        have hchild : (items.child (List.map towlower) k).isSome :=
          Forest.child_isSome.mpr ⟨x, hx, hsame⟩
        rw [show items.child (List.map towlower) k = none from hold] at hchild
        cases hchild
    · exact Option.some.inj hmoved ▸ hdirectedApart
  split
  · exact hmovedApart.update _ _
  · exact hmovedApart

theorem Fair.single (h : Fair towlower root oldTruePath newTruePath) {root' : PathNodes}
    (hstep : setRelocation towlower root oldTruePath newTruePath = some root')
    (hroot : root.All fun _ m => m.Single) : root'.All fun _ m => m.Single := by
  obtain ⟨hlast, directed, moved, hdirected, hmoved, rfl⟩ := setRelocation_steps hstep h.moves
  obtain ⟨htrue, -, htrueNew⟩ := h.truePath rfl
  have hreleased : (releaseOld towlower root oldTruePath).All fun _ m => m.Single := by
    unfold releaseOld
    split
    · exact single_changeLast hroot Mark.Single.release
    · exact hroot
  have hmarked := single_changeLast hreleased fun _ => Mark.single_setDeleted htrue
  have hadded := @single_changeLast towlower id _ newTruePath hmarked id
  have hne := h.names_ne
  have hdirectedAll : directed.All fun _ m => m.Single := by
    rw [hdirected]
    refine single_changeLast hadded fun _ => Mark.single_relocate _ ?_
    rw [label_changeLast hlast, if_pos rfl, id_eq, setPathFlags,
      label_changeLast_other fun hsame => htrueNew (IsUnder.of_eq hsame.symm),
      label_releaseOld h.oldLast, if_neg hne]
    exact h.notDeleted
  have hmovedAll : moved.All fun _ m => m.Single := by
    split at hmoved
    · exact all_reattach hdirectedAll hmoved
    · exact Option.some.inj hmoved ▸ hdirectedAll
  split
  · -- the old node is not relocated any more
    have hold : (moved.label (List.map towlower) Mark.none (names oldTruePath)).relocated =
        false := by
      have hkept : moved.label (List.map towlower) Mark.none (names oldTruePath) =
          directed.label (List.map towlower) Mark.none (names oldTruePath) := by
        split at hmoved
        · exact label_reattach hmoved (fun hat => Nat.lt_irrefl _ hat.2)
            fun hat => h.oldBelow hat.1
        · rw [Option.some.inj hmoved]
      rw [hkept, hdirected, redirected, redirect, label_changeLast_other hne.symm,
        label_changeLast_other hne.symm, setPathFlags,
        (label_changeLast_keeps Mark.keeps_setDeleted _ _ _).relocated,
        label_releaseOld h.oldLast, if_pos rfl]
      exact Mark.relocated_release _
    refine single_changeLast hmovedAll fun hsingle => ⟨hsingle.single, fun hr => ?_⟩
    exact absurd (hold.symm.trans hr) Bool.false_ne_true
  · exact hmovedAll

end FairCall

theorem single_markDeleted (hapart : root.Apart (List.map towlower))
    (hroot : root.All fun _ m => m.Single) (path : List WChar) :
    (markDeleted towlower root path).root.All fun _ m => m.Single := by
  -- the node that is marked is a new one
  have hnew : ∀ tree : PathNodes, (tree.All fun _ m => m.Single) →
      (hasLast path = true →
        tree.label (List.map towlower) Mark.none (names path) = Mark.none) →
      (setPathFlags towlower tree path fileDeletedFlag 0 none).All fun _ m => m.Single := by
    intro tree htree hlabel
    by_cases hlast : hasLast path = true
    · refine single_changeLast htree fun _ => Mark.single_setDeleted ?_
      rw [hlabel hlast, Mark.relocated_none]
    · rw [setPathFlags, changeLast, if_neg hlast]
      exact htree.update (fun _ _ => Mark.single_none) fun _ _ h => h
  unfold markDeleted
  cases hfind : findPathBranche towlower root path with
  | none =>
    refine hnew root hroot fun hlast => ?_
    have hnone := label_findPathBranche_none hlast hfind []
    rwa [append_nil] at hnone
  | some found =>
    by_cases halready : found.1.flags = fileDeletedFlag ∧ found.2 = .nil
    · simp only [if_pos halready]
      exact hroot
    · simp only [if_neg halready]
      exact hnew _ hroot.remove fun hlast =>
        Forest.label_remove_self hapart (names_ne_nil hlast) (prefix_refl _)

/-- **The trees that fair calls make.** -/
theorem FairCalls.invariant {calls : List Call} (h : FairCalls towlower calls root) :
    root.Apart (List.map towlower) ∧ root.All fun _ m => m.Single := by
  refine Run.invariant (I := fun root => Forest.Apart (List.map towlower) root ∧
    Forest.All (fun _ m => m.Single) root) h ⟨trivial, trivial⟩ ?_
  intro root call root' hroot hstep hfair
  cases call with
  | markDeleted path =>
    cases hstep
    exact ⟨apart_markDeleted hroot.1 path, single_markDeleted hroot.1 hroot.2 path⟩
  | setRelocation oldTruePath newTruePath =>
    exact ⟨hfair.apart hstep hroot.1, hfair.single hstep hroot.2⟩

/-! ### The labels after a move -/

section Move

variable {root root' : PathNodes} {oldTruePath newTruePath : List WChar}

theorem Movable.steps (h : Movable towlower root oldTruePath newTruePath)
    (hstep : setRelocation towlower root oldTruePath newTruePath = some root') :
    hasLast newTruePath = true ∧
      (if (findPathBranche towlower root oldTruePath).isSome then
        reattach towlower (redirected towlower root oldTruePath newTruePath oldTruePath false)
          (names oldTruePath) (names newTruePath)
        else some (redirected towlower root oldTruePath newTruePath oldTruePath false)) =
        some root' := by
  obtain ⟨hlast, _, moved, rfl, hmoved, hroot⟩ := setRelocation_steps hstep h.moves
  rw [relocationOf_eq_none h.oldTrue] at hmoved hroot
  obtain rfl : root' = moved := hroot
  exact ⟨hlast, hmoved⟩

theorem Movable.label_redirected (h : Movable towlower root oldTruePath newTruePath)
    (hlast : hasLast newTruePath = true) (ys : List (List WChar)) :
    (redirected towlower root oldTruePath newTruePath oldTruePath false).label
        (List.map towlower) Mark.none ys =
      if (names newTruePath).map (List.map towlower) = ys.map (List.map towlower) then
        (root.label (List.map towlower) Mark.none ys).relocate
          (resolve towlower root oldTruePath)
      else if (names oldTruePath).map (List.map towlower) = ys.map (List.map towlower) then
        (root.label (List.map towlower) Mark.none ys).set fileDeletedFlag 0 Option.none
      else root.label (List.map towlower) Mark.none ys := by
  have hreleased : ∀ ys, (releaseOld towlower root oldTruePath).label (List.map towlower)
      Mark.none ys = root.label (List.map towlower) Mark.none ys := by
    intro ys
    rw [label_releaseOld h.oldLast]
    split
    · rename_i hsame
      rw [Mark.release_eq (Forest.label_congr root hsame ▸ h.oldTrue)]
    · rfl
  have hresolve : (getPathFlags towlower (changeLast towlower id
      (setPathFlags towlower (releaseOld towlower root oldTruePath) oldTruePath fileDeletedFlag 0
        none) newTruePath) oldTruePath true).2.getD oldTruePath =
      resolve towlower root oldTruePath := by
    show (relocation towlower _ oldTruePath).getD _ = (relocation towlower _ oldTruePath).getD _
    rw [relocation_eq, relocation_eq]
    refine congrArg (Option.getD · oldTruePath)
      (answer_keeps (segments oldTruePath) (fun ys _ _ => ?_) id none).2
    rw [label_changeLast hlast, id_eq, ite_self, ← hreleased]
    exact label_changeLast_keeps Mark.keeps_setDeleted _ _ ys
  have hne := h.names_ne
  rw [redirected, redirect, label_changeLast hlast, label_changeLast hlast, id_eq, ite_self,
    setPathFlags, label_changeLast h.oldLast, hreleased]
  split
  · rename_i hsame
    rw [if_neg fun hold => hne (hold.trans hsame.symm)]
    exact congrArg (fun r => Mark.relocate r _) hresolve
  · rfl

theorem Movable.label_other (h : Movable towlower root oldTruePath newTruePath)
    (hstep : setRelocation towlower root oldTruePath newTruePath = some root')
    {ys : List (List WChar)} (hold : ¬IsUnder towlower (names oldTruePath) ys)
    (hnew : ¬IsUnder towlower (names newTruePath) ys) :
    root'.label (List.map towlower) Mark.none ys =
      root.label (List.map towlower) Mark.none ys := by
  obtain ⟨hlast, hmoved⟩ := h.steps hstep
  have hkept : root'.label (List.map towlower) Mark.none ys =
      (redirected towlower root oldTruePath newTruePath oldTruePath false).label
        (List.map towlower) Mark.none ys := by
    split at hmoved
    · exact label_reattach hmoved (fun hat => hold hat.1) fun hat => hnew hat.1
    · rw [Option.some.inj hmoved]
  rw [hkept, h.label_redirected hlast, if_neg fun hsame => hnew (IsUnder.of_eq hsame),
    if_neg fun hsame => hold (IsUnder.of_eq hsame)]

theorem Movable.label_ends (h : Movable towlower root oldTruePath newTruePath)
    (hstep : setRelocation towlower root oldTruePath newTruePath = some root') :
    root'.label (List.map towlower) Mark.none (names newTruePath) =
        (root.label (List.map towlower) Mark.none (names newTruePath)).relocate
          (resolve towlower root oldTruePath) ∧
      root'.label (List.map towlower) Mark.none (names oldTruePath) =
        (root.label (List.map towlower) Mark.none (names oldTruePath)).set fileDeletedFlag 0
          Option.none := by
  obtain ⟨hlast, hmoved⟩ := h.steps hstep
  have hne : (names newTruePath).map (List.map towlower) ≠
      (names oldTruePath).map (List.map towlower) :=
    fun hsame => h.oldBelow (IsUnder.of_eq hsame)
  have hkept : ∀ ys, ys = names newTruePath ∨ ys = names oldTruePath →
      root'.label (List.map towlower) Mark.none ys =
        (redirected towlower root oldTruePath newTruePath oldTruePath false).label
          (List.map towlower) Mark.none ys := by
    intro ys hys
    split at hmoved
    · rcases hys with rfl | rfl
      · exact label_reattach hmoved (fun hat => h.newBelow hat.1)
          fun hat => Nat.lt_irrefl _ hat.2
      · exact label_reattach hmoved (fun hat => Nat.lt_irrefl _ hat.2)
          fun hat => h.oldBelow hat.1
    · rw [Option.some.inj hmoved]
  refine ⟨?_, ?_⟩
  · rw [hkept _ (.inl rfl), h.label_redirected hlast, if_pos rfl]
  · rw [hkept _ (.inr rfl), h.label_redirected hlast, if_neg hne, if_pos rfl]

theorem Movable.label_redirected_below (h : Movable towlower root oldTruePath newTruePath)
    (hlast : hasLast newTruePath = true) {path more : List (List WChar)} (hmore : more ≠ [])
    (hpath : path = names oldTruePath ∨ path = names newTruePath) :
    (redirected towlower root oldTruePath newTruePath oldTruePath false).label
        (List.map towlower) Mark.none (path ++ more) =
      root.label (List.map towlower) Mark.none (path ++ more) := by
  have hlength : ∀ path : List (List WChar),
      path.map (List.map towlower) ≠ (path ++ more).map (List.map towlower) := by
    intro path hsame
    have hlength := congrArg List.length hsame
    simp only [length_map, length_append] at hlength
    exact hmore (length_eq_zero_iff.mp (by omega))
  have hunder : IsUnder towlower path (path ++ more) :=
    IsUnder.of_isPrefix (prefix_append _ _)
  rw [h.label_redirected hlast]
  rcases hpath with rfl | rfl
  · rw [if_neg fun hsame => h.newBelow (hunder.trans (IsUnder.of_eq hsame.symm)),
      if_neg (hlength _)]
  · rw [if_neg (hlength _),
      if_neg fun hsame => h.oldBelow (hunder.trans (IsUnder.of_eq hsame.symm))]

theorem Movable.moved (h : Movable towlower root oldTruePath newTruePath)
    (hstep : setRelocation towlower root oldTruePath newTruePath = some root') :
    (root' = redirected towlower root oldTruePath newTruePath oldTruePath false ∧
        ∀ more, more ≠ [] →
          root.label (List.map towlower) Mark.none (names oldTruePath ++ more) = Mark.none) ∨
      ∃ mark items, (redirected towlower root oldTruePath newTruePath oldTruePath false).find
          (List.map towlower) (names oldTruePath) = some (mark, items) ∧
        root' = ((redirected towlower root oldTruePath newTruePath oldTruePath false).mapItems
          (List.map towlower) (fun _ => .nil) (names oldTruePath)).mapItems (List.map towlower)
            (fun u => u.append items) (names newTruePath) := by
  obtain ⟨hlast, hmoved⟩ := h.steps hstep
  have hne := h.names_ne
  cases hnode : findPathBranche towlower root oldTruePath with
  | none =>
    rw [hnode] at hmoved
    exact .inl ⟨(Option.some.inj hmoved).symm,
      fun more _ => label_findPathBranche_none h.oldLast hnode more⟩
  | some found =>
    rw [hnode, isSome_some, if_pos rfl, reattach] at hmoved
    cases hfind : (redirected towlower root oldTruePath newTruePath oldTruePath false).find
        (List.map towlower) (names oldTruePath) with
    | none =>
      rw [hfind] at hmoved
      refine .inl ⟨(Option.some.inj hmoved).symm, fun more hmore => ?_⟩
      rw [← h.label_redirected_below hlast hmore (.inl rfl)]
      exact Forest.label_find_none (names_ne_nil h.oldLast) hfind more
    | some found' =>
      rw [hfind] at hmoved
      simp only [if_neg hne] at hmoved
      exact .inr ⟨found'.1, found'.2, rfl, (Option.some.inj hmoved).symm⟩

theorem Movable.label_old (h : Movable towlower root oldTruePath newTruePath)
    (hstep : setRelocation towlower root oldTruePath newTruePath = some root')
    {more : List (List WChar)} (hmore : more ≠ []) :
    root'.label (List.map towlower) Mark.none (names oldTruePath ++ more) = Mark.none := by
  obtain ⟨rfl, hnone⟩ | ⟨mark, items, hfind, rfl⟩ := h.moved hstep
  · rw [h.label_redirected_below (h.steps hstep).1 hmore (.inl rfl)]
    exact hnone more hmore
  have hnew : ¬IsUnder towlower (names newTruePath) (names oldTruePath ++ more) := by
    intro hunder
    have hold : IsUnder towlower (names oldTruePath) (names oldTruePath ++ more) :=
      IsUnder.of_isPrefix (prefix_append _ _)
    exact ( prefix_or_prefix_of_prefix hunder hold).elim h.oldBelow h.newBelow
  rw [Forest.label_mapItems _ _ fun hat => hnew hat.1,
    Forest.label_find (by rw [Forest.find_mapItems_self _ _ (names_ne_nil h.oldLast), hfind]; rfl),
    if_neg hmore, Forest.label_nil]

theorem Movable.label_new (h : Movable towlower root oldTruePath newTruePath)
    (hstep : setRelocation towlower root oldTruePath newTruePath = some root')
    {more : List (List WChar)} (hmore : more ≠ []) :
    root'.label (List.map towlower) Mark.none (names newTruePath ++ more) =
      root.label (List.map towlower) Mark.none (names oldTruePath ++ more) := by
  have hlast := (h.steps hstep).1
  obtain ⟨rfl, hnone⟩ | ⟨mark, items, hfind, rfl⟩ := h.moved hstep
  · rw [h.label_redirected_below hlast hmore (.inr rfl), h.unmarked more hmore,
      hnone more hmore]
  -- the node of the new path is there, as it is relocated
  have hnode : ∃ found, (redirected towlower root oldTruePath newTruePath oldTruePath
      false).find (List.map towlower) (names newTruePath) = some found := by
    refine isSome_iff_exists.mp (isSome_iff_ne_none.mpr fun hnil => ?_)
    have hlabel := h.label_redirected hlast (names newTruePath)
    rw [if_pos rfl, Forest.label, hnil] at hlabel
    have hrelocated := congrArg Mark.relocated hlabel
    rw [Mark.relocated_relocate, Mark.relocated_none] at hrelocated
    cases hrelocated
  obtain ⟨⟨mark', below⟩, hnode⟩ := hnode
  have hcleared : ((redirected towlower root oldTruePath newTruePath oldTruePath false).mapItems
      (List.map towlower) (fun _ => .nil) (names oldTruePath)).find (List.map towlower)
        (names newTruePath) = some (mark', below) := by
    rw [Forest.find_mapItems _ _ h.oldBelow h.newBelow, hnode]
  rw [Forest.label_find (by rw [Forest.find_mapItems_self _ _ (names_ne_nil hlast), hcleared]; rfl),
    if_neg hmore, ← h.label_redirected_below hlast hmore (.inl rfl),
    Forest.label_find hfind, if_neg hmore]
  have hbelow : Forest.label _ Mark.none _ _ = _ := Forest.label_find hnode more
  rw [if_neg hmore, h.label_redirected_below hlast hmore (.inr rfl),
    h.unmarked more hmore] at hbelow
  cases more with
  | nil => exact absurd rfl hmore
  | cons x xs =>
    rw [Forest.label_append]
    split
    · rename_i hchild
      -- no node with that name was below the old path
      have hnew : (root.find (List.map towlower) (names newTruePath ++ [x])).isSome = true := by
        rw [← find_redirected (not_isUnder_of_concat h.oldBelow)
          (not_isUnder_of_concat h.oldBelow) (not_isUnder_concat _ x),
          Forest.find_concat (names_ne_nil hlast), hnode]
        exact hchild
      have hold := h.below x hnew
      rw [← find_redirected (not_isUnder_concat _ x) (not_isUnder_concat _ x)
        (not_isUnder_of_concat h.newBelow), Forest.find_concat (names_ne_nil h.oldLast),
        hfind] at hold
      rw [← hbelow, Forest.label_cons items,
        show items.child (List.map towlower) x = none from hold]
    · rfl

/-! ### The law -/

theorem label_single {root : PathNodes} (hroot : root.All fun _ m => m.Single)
    (ys : List (List WChar)) : (root.label (List.map towlower) Mark.none ys).Single := by
  rw [Forest.label]
  cases hfind : root.find (List.map towlower) ys with
  | none => exact Mark.single_none
  | some found =>
    obtain ⟨⟨_, hsingle⟩, -⟩ := hroot.find hfind
    exact hsingle

theorem deletedStatus_eq_zero (root : PathNodes) (path : List WChar) :
    deletedStatus towlower root path = 0 ↔
      filePathDeleted (answer (root.label (List.map towlower) Mark.none) (segments path) 0 none).1 =
        false := by
  rw [← Bool.not_eq_true, ← deletedStatus_ne_zero, not_not]

theorem Movable.view_below (h : Movable towlower root oldTruePath newTruePath)
    (hroot : root.All fun _ m => m.Single)
    (hstep : setRelocation towlower root oldTruePath newTruePath = some root')
    (hnew : relocation towlower root' newTruePath = some (resolve towlower root oldTruePath))
    (s : List WChar) :
    (deletedStatus towlower root' (newTruePath ++ 92 :: s) ≠ 0 ↔
        deletedStatus towlower root (oldTruePath ++ 92 :: s) ≠ 0) ∧
      resolve towlower root' (newTruePath ++ 92 :: s) =
        resolve towlower root (oldTruePath ++ 92 :: s) := by
  have hlast := (h.steps hstep).1
  obtain ⟨flags, hflags, hanswer⟩ :=
    answer_slash h.oldLast (root.label (List.map towlower) Mark.none) s
  obtain ⟨flags', hflags', hanswer'⟩ :=
    answer_slash hlast (root'.label (List.map towlower) Mark.none) s
  rw [answer_congr (fun ys => root.label (List.map towlower) Mark.none (names oldTruePath ++ ys))
    (fun ys hys => h.label_new hstep hys)] at hanswer'
  rw [(deletedStatus_eq_zero root oldTruePath).mp h.oldThere, Bool.and_false] at hflags
  rw [(h.label_ends hstep).1, Mark.relocated_relocate, Bool.not_true, Bool.false_and] at hflags'
  refine ⟨?_, ?_⟩
  · rw [deletedStatus_ne_zero, deletedStatus_ne_zero, hanswer, hanswer',
      answer_deleted_congr _ _ (hflags'.trans hflags.symm)]
  · rw [resolve, resolve, relocation_eq, relocation_eq, hanswer, hanswer']
    refine answer_resolve_congr (fun ys => (label_single hroot _).text) _ _ _ ?_
    rw [← relocation_eq, hnew, ← relocation_eq, resolve]
    cases relocation towlower root oldTruePath <;> rfl

theorem Movable.view_new (h : Movable towlower root oldTruePath newTruePath)
    (hstep : setRelocation towlower root oldTruePath newTruePath = some root') :
    deletedStatus towlower root' newTruePath = 0 ∧
      relocation towlower root' newTruePath = some (resolve towlower root oldTruePath) := by
  have hlast := (h.steps hstep).1
  have habove : ∀ ys, ys ≠ [] → ys <+: names newTruePath → ys ≠ names newTruePath →
      root'.label (List.map towlower) Mark.none ys =
        root.label (List.map towlower) Mark.none ys := by
    intro ys _ hpre hne
    refine h.label_other hstep
      (fun hunder => h.newBelow (hunder.trans (IsUnder.of_isPrefix hpre))) fun hunder => ?_
    have hlength := hunder.length_le
    rw [length_map, length_map] at hlength
    exact hne (hpre.eq_of_length_le hlength)
  obtain ⟨flags, relocation, hanswer, hanswer'⟩ := answer_last_congr hlast habove
  have hfree := (deletedStatus_eq_zero root newTruePath).mp h.newFree
  rw [hanswer, filePathDeleted_lastFlags] at hfree
  rw [deletedStatus_eq_zero, relocation_eq, hanswer', (h.label_ends hstep).1]
  refine ⟨?_, ?_⟩
  · rw [filePathDeleted_lastFlags, Mark.deleted_relocate, hfree]
  · show lastRelocation _ _ _ = _
    rw [lastRelocation, if_pos (Mark.relocated_relocate _ _)]
    show some (_ ++ []) = _
    rw [append_nil]

theorem Movable.moves_view (h : Movable towlower root oldTruePath newTruePath)
    (hroot : root.All fun _ m => m.Single)
    (hstep : setRelocation towlower root oldTruePath newTruePath = some root') :
    Moved towlower root root' oldTruePath newTruePath where
  below := h.view_below hroot hstep (h.view_new hstep).2
  new := h.view_new hstep
  old := by
    intro path hunder
    have hold := (h.label_ends hstep).2
    refine deletedStatus_under (names_ne_nil h.oldLast) hunder (fun ys hys => ?_) fun ys hys => ?_
    · rw [← Forest.label_congr root' hys, hold]
      exact Mark.deleted_setDeleted _
    · obtain ⟨more, hmore⟩ := hys.split
      rw [Forest.label_congr root' hmore]
      by_cases hnil : more = []
      · rw [hnil, append_nil, hold, (Mark.keeps_setDeleted _).relocated]
        exact h.oldTrue
      · rw [h.label_old hstep hnil, Mark.relocated_none]
  others := by
    intro path hold hnew
    have hlabels : ∀ ys, ys ≠ [] → ys <+: names path →
        root'.label (List.map towlower) Mark.none ys =
          root.label (List.map towlower) Mark.none ys := by
      intro ys _ hpre
      exact h.label_other hstep (fun hat => hold (hat.trans (IsUnder.of_isPrefix hpre)))
        fun hat => hnew (hat.trans (IsUnder.of_isPrefix hpre))
    have hanswer := answer_congr_names (segments path) hlabels 0 none
    rw [deletedStatus_eq, deletedStatus_eq, relocation_eq, relocation_eq, hanswer]
    exact ⟨rfl, rfl⟩
  single := h.toFair.single hstep hroot

end Move

theorem Movable.comes_back (h : Movable towlower root oldTruePath newTruePath) :
    ∃ root', setRelocation towlower root oldTruePath newTruePath = some root' := by
  have hne := h.names_ne
  have hreattach : ∀ directed : PathNodes, ∃ moved,
      reattach towlower directed (names oldTruePath) (names newTruePath) = some moved := by
    intro directed
    unfold reattach
    cases directed.find (List.map towlower) (names oldTruePath) with
    | none => exact ⟨directed, rfl⟩
    | some found =>
      simp only [if_neg hne]
      exact ⟨_, rfl⟩
  rw [setRelocation, if_neg (by simp [h.moves]), if_pos h.newLast]
  rw [← isSome_iff_exists, isSome_map]
  split
  · exact isSome_iff_exists.mpr (hreattach _)
  · rfl

theorem below_missing (hlast : hasLast newTruePath = true)
    (h : root.find (List.map towlower) (names newTruePath) = none) :
    ∀ x, (root.find (List.map towlower) (names newTruePath ++ [x])).isSome = true →
      root.find (List.map towlower) (names oldTruePath ++ [x]) = none := by
  intro x hx
  rw [Forest.find_concat (names_ne_nil hlast), h] at hx
  cases hx

/-- **Renames move the whole view**, in a run whose relocations are fair, when the view can be
moved. -/
theorem rename_moves (towlower : WChar → WChar) (calls : List Call) (root : PathNodes)
    (oldTruePath newTruePath : List WChar) (hcalls : FairCalls towlower calls root)
    (hmovable : Movable towlower root oldTruePath newTruePath) :
    ∃ root', setRelocation towlower root oldTruePath newTruePath = some root' ∧
      Moved towlower root root' oldTruePath newTruePath := by
  obtain ⟨root', hstep⟩ := hmovable.comes_back
  exact ⟨root', hstep, hmovable.moves_view hcalls.invariant.2 hstep⟩

/-- The tree where `\d\x` is deleted and `\a` was renamed, with the nodes of its new names. -/
def renamedTwice (nodes : List (WChar × Mark)) : PathNodes :=
  .node [100] Mark.none (.node [120] ⟨fileDeletedFlag, none⟩ .nil .nil)
    (.node [97] ⟨fileDeletedFlag, none⟩ .nil
      (nodes.foldr (fun e next => .node [e.1] e.2 .nil next) .nil))

/-- After a rename of a renamed path, the view of `\d` with the deleted `\d\x` is moved. -/
theorem rename_moves_deleted :
    ∃ calls root root', calls.length = 3 ∧ FairCalls id calls root ∧
      setRelocation id root [92, 100] [92, 101] = some root' ∧
      Moved id root root' [92, 100] [92, 101] := by
  have hfirst : Fair id (markDeleted id .nil [92, 100, 92, 120]).root [92, 97] [92, 98] := by
    refine ⟨by decide, by decide, by decide, by unfold IsUnder; decide, by unfold IsUnder; decide,
      by decide, below_missing (by decide) (by decide), fun truePath htarget => ?_⟩
    rw [show relocationOf id _ [92, 97] = none by decide] at htarget
    cases htarget
  have hsecond : Fair id (renamedTwice [(98, ⟨fileRelocationFlag, some [92, 97]⟩)])
      [92, 98] [92, 99] := by
    refine ⟨by decide, by decide, by decide, by unfold IsUnder; decide, by unfold IsUnder; decide,
      by decide, below_missing (by decide) (by decide), fun truePath htarget => ?_⟩
    rw [show relocationOf id _ [92, 98] = some [92, 97] by decide] at htarget
    cases htarget
    exact ⟨by decide, by unfold IsUnder; decide, by unfold IsUnder; decide⟩
  have hcalls : FairCalls id [.markDeleted [92, 100, 92, 120], .setRelocation [92, 97] [92, 98],
      .setRelocation [92, 98] [92, 99]]
      (renamedTwice [(98, Mark.none), (99, ⟨fileRelocationFlag, some [92, 97]⟩)]) :=
    .cons rfl trivial (.cons (by decide) hfirst (.cons (by decide) hsecond (.nil _)))
  have hmovable : Movable id
      (renamedTwice [(98, Mark.none), (99, ⟨fileRelocationFlag, some [92, 97]⟩)])
      [92, 100] [92, 101] := by
    refine ⟨⟨by decide, by decide, by decide, by unfold IsUnder; decide,
      by unfold IsUnder; decide, by decide, below_missing (by decide) (by decide),
      fun truePath htarget => ?_⟩, by decide, by decide, by decide, fun ys _ => ?_⟩
    · rw [show relocationOf id _ [92, 100] = none by decide] at htarget
      cases htarget
    · exact Forest.label_find_none (by decide) (by decide) ys
  obtain ⟨root', hstep, hmoved⟩ := rename_moves id _ _ [92, 100] [92, 101] hcalls hmovable
  exact ⟨_, _, root', rfl, hcalls, hstep, hmoved⟩

/-- The path `\b` that was deleted is still deleted when `\a` was renamed to it. -/
theorem renamed_deleted :
    ∃ root root', Call.run id .nil (.markDeleted [92, 98]) = some root ∧
      Call.run id root (.setRelocation [92, 97] [92, 98]) = some root' ∧
      deletedStatus id root' [92, 98] ≠ 0 ∧
      ((root'.label (List.map id) Mark.none [[98]]).deleted &&
        (root'.label (List.map id) Mark.none [[98]]).relocated) = true := by
  refine ⟨_, _, rfl, rfl, ?_, ?_⟩
  · decide
  · decide

end Fold

end Sandboxie.PathTree
