import Sandboxie.Dll.PathCalls

/-!
# What the calls keep of the answers

The marks that a call of `File_MarkDeleted_internal` or `File_SetRelocation_internal` leaves alone
are those of the paths that it is not about (`Keeps`), and so are the answers for them.
-/

namespace Sandboxie.PathTree

open Text List

/-! ### Paths -/

theorem segmentsFrom_init (path : List WChar) (name : List WChar) :
    ∀ seg ∈ (segmentsFrom name path).dropLast, seg.2 ≠ [] := by
  induction path generalizing name with
  | nil => cases name <;> simp [segmentsFrom]
  | cons c rest ih =>
    rw [segmentsFrom]
    split
    · split
      · exact ih []
      · intro seg hseg
        cases hrest : segmentsFrom [] rest with
        | nil => simp [hrest] at hseg
        | cons first more =>
          rw [hrest, dropLast_cons_cons] at hseg
          obtain rfl | hseg := mem_cons.mp hseg
          · exact cons_ne_nil c rest
          · exact ih [] seg (hrest ▸ hseg)
    · exact ih (name ++ [c])

/-- The answers for a path that has a last name, from marks that only differ there. -/
theorem answer_last_congr {path : List WChar} (h : hasLast path = true)
    {marks marks' : List (List WChar) → Mark}
    (hsame : ∀ ys, ys ≠ [] → ys <+: names path → ys ≠ names path → marks' ys = marks ys) :
    ∃ flags relocation, answer marks (segments path) 0 none =
        (lastFlags flags (marks (names path)),
          lastRelocation relocation (marks (names path)) []) ∧
      answer marks' (segments path) 0 none =
        (lastFlags flags (marks' (names path)),
          lastRelocation relocation (marks' (names path)) []) := by
  have hlast : ∃ name, (segments path).getLast? = some (name, []) := by
    rw [hasLast] at h
    split at h
    · rename_i name hname
      exact ⟨name, hname⟩
    · cases h
  obtain ⟨last, hlast⟩ := hlast
  have hinit := segmentsFrom_init path []
  have hsegs : ∀ (segs : List (List WChar × List WChar)) (marks marks' : List (List WChar) → Mark)
      (flags : BitVec 32) (relocation : Option (List WChar)),
      segs.getLast? = some (last, []) → (∀ seg ∈ segs.dropLast, seg.2 ≠ []) →
      (∀ ys, ys ≠ [] → ys <+: segs.map Prod.fst → ys ≠ segs.map Prod.fst →
        marks' ys = marks ys) →
      ∃ flags' relocation', answer marks segs flags relocation =
          (lastFlags flags' (marks (segs.map Prod.fst)),
            lastRelocation relocation' (marks (segs.map Prod.fst)) []) ∧
        answer marks' segs flags relocation =
          (lastFlags flags' (marks' (segs.map Prod.fst)),
            lastRelocation relocation' (marks' (segs.map Prod.fst)) []) := by
    intro segs
    induction segs with
    | nil =>
      intro marks marks' flags relocation hlast
      cases hlast
    | cons seg more ih =>
      intro marks marks' flags relocation hlast hinit hsame
      obtain ⟨name, next⟩ := seg
      rw [answer, answer]
      cases more with
      | nil =>
        obtain ⟨rfl, rfl⟩ := by simpa using hlast
        exact ⟨flags, relocation, rfl, rfl⟩
      | cons first more =>
        have hnext : next ≠ [] := hinit (name, next) (by simp)
        have hmore : (first :: more).getLast? = some (last, []) := by
          exact hlast
        have hrest : ∀ seg ∈ (first :: more).dropLast, seg.2 ≠ [] := by
          intro seg hseg
          apply hinit seg
          rw [dropLast_cons_cons]
          exact mem_cons_of_mem _ hseg
        have hname : marks' [name] = marks [name] :=
          hsame [name] (cons_ne_nil _ _)
            (cons_prefix_cons.mpr ⟨rfl, nil_prefix⟩) (by simp)
        rw [if_neg hnext, if_neg hnext, hname]
        refine ih (fun path => marks (name :: path)) (fun path => marks' (name :: path)) _ _ hmore
          hrest fun ys _ hpre hne => ?_
        exact hsame (name :: ys) (cons_ne_nil _ _) (cons_prefix_cons.mpr ⟨rfl, hpre⟩)
          fun heq => hne (List.cons.inj heq).2
  exact hsegs (segments path) marks marks' 0 none hlast hinit hsame

theorem answer_last {path : List WChar} (h : hasLast path = true)
    (marks : List (List WChar) → Mark) :
    ∃ flags relocation, answer marks (segments path) 0 none =
      (lastFlags flags (marks (names path)),
        lastRelocation relocation (marks (names path)) []) := by
  obtain ⟨flags, relocation, hanswer, -⟩ :=
    @answer_last_congr path h marks marks fun _ _ _ _ => rfl
  exact ⟨flags, relocation, hanswer⟩

/-! ### Marks that say as much -/

/-- The second mark says what the first one says, and may say that its path is deleted. -/
structure Mark.Keeps (m m' : Mark) : Prop where
  relocated : m'.relocated = m.relocated
  deleted : m.deleted = true → m'.deleted = true
  relocation : m.relocated = true → m'.relocation = m.relocation

theorem Mark.Keeps.refl (m : Mark) : m.Keeps m := ⟨rfl, id, fun _ => rfl⟩

theorem Mark.keeps_setDeleted (m : Mark) : m.Keeps (m.set fileDeletedFlag 0 Option.none) := by
  have hno : ¬((0 : BitVec 32) &&& fileRelocationFlag ≠ 0 ∨
      fileDeletedFlag &&& fileRelocationFlag ≠ 0) := by decide
  have hflags : (Mark.set fileDeletedFlag 0 Option.none m).flags = m.flags ||| fileDeletedFlag :=
    and_not_zero _
  refine ⟨?_, fun hd => ?_, fun _ => ?_⟩
  · have hbit : fileDeletedFlag.getLsbD 1 = false := by decide
    rw [Mark.relocated_eq, hflags, BitVec.getLsbD_or, hbit, Bool.or_false, Mark.relocated_eq]
  · rw [Mark.deleted_eq] at hd
    rw [Mark.deleted_eq, hflags, BitVec.getLsbD_or, hd, Bool.true_or]
  · simp only [Mark.set, if_neg hno]

theorem Mark.deleted_setDeleted (m : Mark) :
    (m.set fileDeletedFlag 0 Option.none).deleted = true := by
  have hflags : (Mark.set fileDeletedFlag 0 Option.none m).flags = m.flags ||| fileDeletedFlag :=
    and_not_zero _
  have hbit : fileDeletedFlag.getLsbD 0 = true := by decide
  rw [Mark.deleted_eq, hflags, BitVec.getLsbD_or, hbit, Bool.or_true]

theorem answer_keeps {marks marks' : List (List WChar) → Mark}
    (segs : List (List WChar × List WChar))
    (h : ∀ path, path ≠ [] → path <+: segs.map Prod.fst → (marks path).Keeps (marks' path))
    {flags flags' : BitVec 32}
    (hflags : filePathDeleted flags = true → filePathDeleted flags' = true)
    (relocation : Option (List WChar)) :
    (filePathDeleted (answer marks segs flags relocation).1 = true →
        filePathDeleted (answer marks' segs flags' relocation).1 = true) ∧
      (answer marks' segs flags' relocation).2 = (answer marks segs flags relocation).2 := by
  induction segs generalizing marks marks' flags flags' relocation with
  | nil => exact ⟨hflags, rfl⟩
  | cons seg more ih =>
    obtain ⟨name, next⟩ := seg
    have hname : (marks [name]).Keeps (marks' [name]) :=
      h [name] (cons_ne_nil _ _) (cons_prefix_cons.mpr ⟨rfl, nil_prefix⟩)
    have hrelocation : lastRelocation relocation (marks' [name]) next =
        lastRelocation relocation (marks [name]) next := by
      unfold lastRelocation
      rw [hname.relocated]
      split
      · rename_i hr
        rw [hname.relocation hr]
      · rfl
    rw [answer, answer]
    by_cases hnext : next = []
    · simp only [if_pos hnext]
      refine ⟨fun hd => ?_, hrelocation⟩
      rw [filePathDeleted_lastFlags, Bool.or_eq_true] at hd ⊢
      exact hd.imp hflags hname.deleted
    · simp only [if_neg hnext, hrelocation]
      refine ih (fun path hne hpre => ?_) (fun hd => ?_) _
      · exact h (name :: path) (cons_ne_nil _ _)
          (cons_prefix_cons.mpr ⟨rfl, hpre⟩)
      · rw [filePathDeleted_passFlags, Bool.and_eq_true, Bool.or_eq_true] at hd ⊢
        exact ⟨hname.relocated ▸ hd.1, hd.2.imp hname.deleted hflags⟩

/-- A path below a deleted one, with no relocation from there on, is deleted. -/
theorem answer_below_deleted {marks : List (List WChar) → Mark}
    (segs : List (List WChar × List WChar)) {path : List (List WChar)} (hne : path ≠ [])
    (hpre : path <+: segs.map Prod.fst) (hdeleted : (marks path).deleted = true)
    (hrelocated : ∀ path', path <+: path' → (marks path').relocated = false)
    (flags : BitVec 32) (relocation : Option (List WChar))
    (hsegs : ∀ seg ∈ segs.dropLast, seg.2 ≠ []) :
    filePathDeleted (answer marks segs flags relocation).1 = true := by
  have hbelow : ∀ (segs : List (List WChar × List WChar)) (marks : List (List WChar) → Mark)
      (flags : BitVec 32) (relocation : Option (List WChar)),
      (∀ path, (marks path).relocated = false) → filePathDeleted flags = true →
      filePathDeleted (answer marks segs flags relocation).1 = true := by
    intro segs
    induction segs with
    | nil => exact fun _ _ _ _ h => h
    | cons seg more ih =>
      intro marks flags relocation hno hd
      obtain ⟨name, next⟩ := seg
      rw [answer]
      by_cases hnext : next = []
      · simp only [if_pos hnext]
        rw [filePathDeleted_lastFlags, hd, Bool.true_or]
      · simp only [if_neg hnext]
        apply ih _ _ _ fun path => hno (name :: path)
        rw [filePathDeleted_passFlags, hno, hd, Bool.or_true]
        rfl
  induction segs generalizing marks path flags relocation with
  | nil => exact absurd (prefix_nil.mp hpre) hne
  | cons seg more ih =>
    obtain ⟨name, next⟩ := seg
    cases path with
    | nil => exact absurd rfl hne
    | cons x path =>
      obtain ⟨rfl, htail⟩ := cons_prefix_cons.mp hpre
      rw [answer]
      by_cases hnext : next = []
      · simp only [if_pos hnext]
        -- nothing is behind the last name
        have hmore : more = [] := by
          cases more with
          | nil => rfl
          | cons first more => exact absurd hnext (hsegs (x, next) (by simp))
        subst hmore
        obtain rfl := prefix_nil.mp htail
        rw [filePathDeleted_lastFlags, hdeleted, Bool.or_true]
      · simp only [if_neg hnext]
        by_cases hpath : path = []
        · subst hpath
          apply hbelow
          · exact fun path => hrelocated (x :: path)
              (cons_prefix_cons.mpr ⟨rfl, nil_prefix⟩)
          · rw [filePathDeleted_passFlags, hrelocated [x] (prefix_refl _), hdeleted,
              Bool.true_or]
            rfl
        · apply ih hpath htail hdeleted
          · exact fun path' h => hrelocated (x :: path') (cons_prefix_cons.mpr ⟨rfl, h⟩)
          · intro seg hseg
            cases more with
            | nil => cases hseg
            | cons first more =>
              apply hsegs seg
              rw [dropLast_cons_cons]
              exact mem_cons_of_mem _ hseg

/-! ### What a call leaves alone -/

section Fold

variable (towlower : WChar → WChar)

/-- The names lead to a path or below it. -/
def IsUnder (path path' : List (List WChar)) : Prop :=
  path.map (List.map towlower) <+: path'.map (List.map towlower)

variable {towlower}

theorem IsUnder.trans {path path' path'' : List (List WChar)} (h : IsUnder towlower path path')
    (h' : IsUnder towlower path' path'') : IsUnder towlower path path'' :=
  List.IsPrefix.trans h h'

variable {path path' : List (List WChar)}

theorem IsUnder.of_eq (h : path.map (List.map towlower) = path'.map (List.map towlower)) :
    IsUnder towlower path path' := by
  rw [IsUnder, h]

theorem IsUnder.of_isPrefix (h : path <+: path') :
    IsUnder towlower path path' :=
  h.map _

theorem IsUnder.split (h : IsUnder towlower path path') :
    ∃ more, path'.map (List.map towlower) = (path ++ more).map (List.map towlower) := by
  refine ⟨path'.drop path.length, ?_⟩
  obtain ⟨more, hmore⟩ := h
  rw [map_append, map_drop, ← hmore]
  simp

theorem isUnder_concat {name : List WChar} :
    IsUnder towlower path (path' ++ [name]) ↔
      path.map (List.map towlower) = (path' ++ [name]).map (List.map towlower) ∨
        IsUnder towlower path path' := by
  rw [IsUnder, map_append, map_singleton, prefix_concat_iff]
  rfl

variable {path : List WChar} {ys : List (List WChar)} {f : Mark → Mark} {root : PathNodes}

theorem label_changeLast_other
    (h : (names path).map (List.map towlower) ≠ ys.map (List.map towlower)) :
    (changeLast towlower f root path).label (List.map towlower) Mark.none ys =
      root.label (List.map towlower) Mark.none ys := by
  rw [changeLast]
  by_cases hnames : names path = []
  · rw [hnames, Forest.update_nil_path]
  · rw [Forest.label_update _ _ hnames, if_neg h]

theorem label_changeLast_ne (h : ¬IsUnder towlower (names path) ys) :
    (changeLast towlower f root path).label (List.map towlower) Mark.none ys =
      root.label (List.map towlower) Mark.none ys :=
  label_changeLast_other fun heq => h (IsUnder.of_eq heq)

theorem label_changeLast_keeps (hf : ∀ m : Mark, m.Keeps (f m)) (root : PathNodes)
    (path : List WChar) (ys : List (List WChar)) :
    (root.label (List.map towlower) Mark.none ys).Keeps
      ((changeLast towlower f root path).label (List.map towlower) Mark.none ys) := by
  rw [changeLast]
  by_cases hnames : names path = []
  · rw [hnames, Forest.update_nil_path]
    exact Mark.Keeps.refl _
  · rw [Forest.label_update _ _ hnames]
    split
    · split
      · exact hf _
      · exact Mark.Keeps.refl _
    · exact Mark.Keeps.refl _

theorem label_changeLast_self (hlast : hasLast path = true) (hne : ys ≠ [])
    (h : (names path).map (List.map towlower) = ys.map (List.map towlower)) :
    (changeLast towlower f root path).label (List.map towlower) Mark.none ys =
      f (root.label (List.map towlower) Mark.none ys) := by
  have hnames : names path ≠ [] := by
    intro hnil
    rw [hnil] at h
    exact hne (map_eq_nil_iff.mp h.symm)
  rw [changeLast, Forest.label_update _ _ hnames, if_pos h, if_pos hlast]

theorem names_ne_nil (h : hasLast path = true) : names path ≠ [] := by
  intro hnil
  rw [names, map_eq_nil_iff] at hnil
  rw [hasLast, hnil] at h
  cases h

theorem markDeleted_keeps (h : ¬IsUnder towlower (names path) ys) :
    (root.label (List.map towlower) Mark.none ys).Keeps
      ((markDeleted towlower root path).root.label (List.map towlower) Mark.none ys) := by
  unfold markDeleted
  cases findPathBranche towlower root path with
  | none => exact label_changeLast_keeps Mark.keeps_setDeleted root path ys
  | some found =>
    obtain ⟨mark, items⟩ := found
    by_cases hset : mark.flags = fileDeletedFlag ∧ items = .nil
    · simp only [if_pos hset]
      exact Mark.Keeps.refl _
    · simp only [if_neg hset]
      have hremove := @Forest.label_remove _ _ _ _ (List.map towlower) Mark.none root _ _ h
      rw [← hremove]
      exact label_changeLast_keeps Mark.keeps_setDeleted _ path ys

theorem markDeleted_under (hapart : root.Apart (List.map towlower)) (hlast : hasLast path = true)
    (h : IsUnder towlower (names path) ys) :
    ((markDeleted towlower root path).root.label (List.map towlower) Mark.none ys).relocated =
        false ∧
      ((names path).map (List.map towlower) = ys.map (List.map towlower) →
        ((markDeleted towlower root path).root.label (List.map towlower) Mark.none ys).deleted =
          true) := by
  have hnames := names_ne_nil hlast
  have hys : ys ≠ [] := by
    rintro rfl
    exact hnames (map_eq_nil_iff.mp (prefix_nil.mp h))
  -- the labels from the path on, after the change of a tree that has none there
  have hset : ∀ t : PathNodes, t.label (List.map towlower) Mark.none ys = Mark.none →
      ((setPathFlags towlower t path fileDeletedFlag 0 none).label (List.map towlower) Mark.none
          ys).relocated = false ∧
        ((names path).map (List.map towlower) = ys.map (List.map towlower) →
          ((setPathFlags towlower t path fileDeletedFlag 0 none).label (List.map towlower)
            Mark.none ys).deleted = true) := by
    intro t ht
    refine ⟨?_, fun heq => ?_⟩
    · rw [setPathFlags, (label_changeLast_keeps Mark.keeps_setDeleted t path ys).relocated, ht,
        Mark.relocated_none]
    · rw [setPathFlags, label_changeLast_self hlast hys heq]
      exact Mark.deleted_setDeleted _
  obtain ⟨more, hmore⟩ := h.split
  unfold markDeleted
  cases hfound : findPathBranche towlower root path with
  | none =>
    rw [findPathBranche, if_pos hlast] at hfound
    refine hset root ?_
    rw [Forest.label_congr root hmore]
    exact Forest.label_find_none hnames hfound more
  | some found =>
    obtain ⟨mark, items⟩ := found
    rw [findPathBranche, if_pos hlast] at hfound
    by_cases halready : mark.flags = fileDeletedFlag ∧ items = .nil
    · simp only [if_pos halready]
      have hlabel : root.label (List.map towlower) Mark.none ys =
          if more = [] then mark else Mark.none := by
        rw [Forest.label_congr root hmore, Forest.label_find hfound, halready.2, Forest.label_nil]
      have hmark : mark.relocated = false ∧ mark.deleted = true := by
        rw [Mark.relocated, Mark.deleted, halready.1]
        decide
      rw [hlabel]
      refine ⟨?_, fun heq => ?_⟩
      · split
        · exact hmark.1
        · exact Mark.relocated_none
      · have hnil : more = [] := by
          rw [hmore, map_append] at heq
          simpa using heq
        rw [if_pos hnil]
        exact hmark.2
    · simp only [if_neg halready]
      exact hset _ (Forest.label_remove_self hapart hnames h)

theorem markDeleted_deleted (hapart : root.Apart (List.map towlower))
    (hlast : hasLast path = true) {path' : List WChar}
    (h : deletedStatus towlower root path' ≠ 0 ∨ IsUnder towlower (names path) (names path')) :
    deletedStatus towlower (markDeleted towlower root path).root path' ≠ 0 := by
  rw [deletedStatus_ne_zero]
  by_cases hunder : IsUnder towlower (names path) (names path')
  · have hlength : ((names path').take (names path).length).map (List.map towlower) =
        (names path).map (List.map towlower) := by
      obtain ⟨more, hmore⟩ := hunder
      rw [map_take, ← hmore]
      simp
    have hne : (names path').take (names path).length ≠ [] := by
      intro hnil
      rw [hnil] at hlength
      exact names_ne_nil hlast (map_eq_nil_iff.mp hlength.symm)
    refine answer_below_deleted (segments path') hne ( take_prefix _ _) ?_ ?_ 0 none
      (segmentsFrom_init path' [])
    · exact (markDeleted_under hapart hlast (IsUnder.of_eq hlength.symm)).2 hlength.symm
    · intro ys hys
      exact (markDeleted_under hapart hlast
        ((IsUnder.of_eq hlength.symm).trans (IsUnder.of_isPrefix hys))).1
  · have hdeleted := (deletedStatus_ne_zero root path').mp (h.resolve_right hunder)
    refine (answer_keeps (segments path') (fun ys _ hys => markDeleted_keeps fun hat => ?_) id
      none).1 hdeleted
    exact hunder (hat.trans (IsUnder.of_isPrefix hys))

theorem markDeleted_relocation {path path' : List WChar}
    (h : ¬IsUnder towlower (names path) (names path')) :
    relocation towlower (markDeleted towlower root path).root path' =
      relocation towlower root path' := by
  rw [relocation_eq, relocation_eq]
  refine (answer_keeps (segments path') (fun ys _ hys => markDeleted_keeps fun hat => ?_) id none).2
  exact h (hat.trans (IsUnder.of_isPrefix hys))

variable {root root' : PathNodes}

theorem label_reattach {old new ys : List (List WChar)}
    (h : reattach towlower root old new = some root')
    (hold : ¬(IsUnder towlower old ys ∧ old.length < ys.length))
    (hnew : ¬(IsUnder towlower new ys ∧ new.length < ys.length)) :
    root'.label (List.map towlower) Mark.none ys = root.label (List.map towlower) Mark.none ys := by
  unfold reattach at h
  cases hfind : root.find (List.map towlower) old with
  | none =>
    rw [hfind] at h
    cases h
    rfl
  | some found =>
    rw [hfind] at h
    by_cases hsame : old.map (List.map towlower) = new.map (List.map towlower)
    · simp only [if_pos hsame] at h
      split at h
      · cases h
        rfl
      · cases h
    · simp only [if_neg hsame] at h
      cases h
      rw [Forest.label_mapItems _ _ hnew, Forest.label_mapItems _ _ hold]

/-- The tree before what is below the old path is moved. -/
def redirected (towlower : WChar → WChar) (root : PathNodes)
    (oldTruePath newTruePath truePath : List WChar) (isTarget : Bool) : PathNodes :=
  redirect towlower (setPathFlags towlower (releaseOld towlower root oldTruePath) truePath
    fileDeletedFlag 0 none) truePath newTruePath isTarget

variable {oldTruePath newTruePath : List WChar}

theorem setRelocation_steps (h : setRelocation towlower root oldTruePath newTruePath = some root')
    (hmoves : sameNoCase towlower oldTruePath newTruePath = false) :
    hasLast newTruePath = true ∧ ∃ directed moved,
      directed = redirected towlower root oldTruePath newTruePath
        ((relocationOf towlower root oldTruePath).getD oldTruePath)
        (relocationOf towlower root oldTruePath).isSome ∧
      (if (findPathBranche towlower root oldTruePath).isSome then
        reattach towlower directed (names oldTruePath) (names newTruePath)
        else some directed) = some moved ∧
      root' = if (relocationOf towlower root oldTruePath).isSome then
        changeLast towlower (fun m => { m with relocation := Option.none }) moved oldTruePath
        else moved := by
  rw [setRelocation, if_neg (by simp [hmoves])] at h
  split at h
  · rename_i hlast
    obtain ⟨moved, hmoved, rfl⟩ := Option.map_eq_some_iff.mp h
    exact ⟨hlast, _, moved, rfl, hmoved, rfl⟩
  · cases h

theorem label_setRelocation (h : setRelocation towlower root oldTruePath newTruePath = some root')
    (hmoves : sameNoCase towlower oldTruePath newTruePath = false)
    (hold : ¬IsUnder towlower (names oldTruePath) ys)
    (hnew : ¬(IsUnder towlower (names newTruePath) ys ∧ (names newTruePath).length < ys.length)) :
    ∃ truePath isTarget, root'.label (List.map towlower) Mark.none ys =
      (redirected towlower root oldTruePath newTruePath truePath isTarget).label
        (List.map towlower) Mark.none ys := by
  obtain ⟨-, _, moved, rfl, hmoved, hroot⟩ := setRelocation_steps h hmoves
  refine ⟨(relocationOf towlower root oldTruePath).getD oldTruePath,
    (relocationOf towlower root oldTruePath).isSome, ?_⟩
  have hlabel : moved.label (List.map towlower) Mark.none ys =
      (redirected towlower root oldTruePath newTruePath
        ((relocationOf towlower root oldTruePath).getD oldTruePath)
        (relocationOf towlower root oldTruePath).isSome).label
        (List.map towlower) Mark.none ys := by
    split at hmoved
    · exact label_reattach hmoved (fun hat => hold hat.1) hnew
    · rw [Option.some.inj hmoved]
  rw [hroot]
  split
  · rw [label_changeLast_ne hold, hlabel]
  · exact hlabel

theorem setRelocation_keeps (h : setRelocation towlower root oldTruePath newTruePath = some root')
    (hmoves : sameNoCase towlower oldTruePath newTruePath = false)
    (hold : ¬IsUnder towlower (names oldTruePath) ys)
    (hnew : ¬IsUnder towlower (names newTruePath) ys) :
    (root.label (List.map towlower) Mark.none ys).Keeps
      (root'.label (List.map towlower) Mark.none ys) := by
  obtain ⟨truePath, isTarget, hlabel⟩ :=
    label_setRelocation h hmoves hold fun hat => hnew hat.1
  have hreleased : (releaseOld towlower root oldTruePath).label (List.map towlower) Mark.none ys =
      root.label (List.map towlower) Mark.none ys := by
    unfold releaseOld
    split
    · exact label_changeLast_ne hold
    · rfl
  rw [hlabel, redirected, redirect, label_changeLast_ne hnew, label_changeLast_ne hnew,
    ← hreleased]
  exact label_changeLast_keeps Mark.keeps_setDeleted _ truePath ys

theorem setRelocation_deleted (h : setRelocation towlower root oldTruePath newTruePath = some root')
    (hmoves : sameNoCase towlower oldTruePath newTruePath = false)
    (hold : ¬IsUnder towlower (names oldTruePath) (names path))
    (hnew : ¬IsUnder towlower (names newTruePath) (names path))
    (hdeleted : deletedStatus towlower root path ≠ 0) : deletedStatus towlower root' path ≠ 0 := by
  rw [deletedStatus_ne_zero] at hdeleted ⊢
  refine (answer_keeps (segments path) (fun ys _ hys => ?_) id none).1 hdeleted
  exact setRelocation_keeps h hmoves (fun hat => hold (hat.trans (IsUnder.of_isPrefix hys)))
    (fun hat => hnew (hat.trans (IsUnder.of_isPrefix hys)))

theorem setRelocation_relocation
    (h : setRelocation towlower root oldTruePath newTruePath = some root')
    (hmoves : sameNoCase towlower oldTruePath newTruePath = false)
    (hold : ¬IsUnder towlower (names oldTruePath) (names path))
    (hnew : ¬IsUnder towlower (names newTruePath) (names path)) :
    relocation towlower root' path = relocation towlower root path := by
  rw [relocation_eq, relocation_eq]
  refine (answer_keeps (segments path) (fun ys _ hys => ?_) id none).2
  exact setRelocation_keeps h hmoves (fun hat => hold (hat.trans (IsUnder.of_isPrefix hys)))
    (fun hat => hnew (hat.trans (IsUnder.of_isPrefix hys)))

theorem setRelocation_new (h : setRelocation towlower root oldTruePath newTruePath = some root')
    (hmoves : sameNoCase towlower oldTruePath newTruePath = false)
    (hold : ¬IsUnder towlower (names oldTruePath) (names newTruePath)) :
    (relocation towlower root' newTruePath).isSome := by
  have hlast := (setRelocation_steps h hmoves).1
  obtain ⟨truePath, isTarget, hlabel⟩ :=
    label_setRelocation h hmoves hold fun hat => Nat.lt_irrefl _ hat.2
  have hbit : fileRelocationFlag.getLsbD 1 = true := by decide
  obtain ⟨flags, relocation, hanswer⟩ :=
    answer_last hlast (root'.label (List.map towlower) Mark.none)
  rw [relocation_eq, hanswer, hlabel, redirected, redirect,
    label_changeLast_self hlast (names_ne_nil hlast) rfl]
  show (lastRelocation _ _ _).isSome = true
  rw [lastRelocation, Mark.relocated_eq, BitVec.getLsbD_or, hbit, Bool.or_true, if_pos rfl]
  rfl

end Fold

end Sandboxie.PathTree
