import Sandboxie.Dll.PathChildren

/-!
# A line that is appended

`File_MarkDeleted_v2` does not write the file anew when it can append the line of the path.  The
file says of the other paths what it did before.  Of the path it says that it is deleted, while
`File_SavePathTree` leaves the line out where the flags above it seem to say so already
(`setFlagsAt`).
-/

namespace Sandboxie.PathTree

open Text List

section Fold

variable (towlower : WChar → WChar)

/-- `SetFlags` at a path, where `File_SavePathNode_internal` comes to it. -/
def setFlagsAt : PathNodes → List (List WChar) → BitVec 32 → BitVec 32
  | .nil, _, setFlags => setFlags
  | _, [], setFlags => setFlags
  | .node name mark items next, x :: xs, setFlags =>
    if name.map towlower = x.map towlower then
      if xs = [] then inherited setFlags mark
      else setFlagsAt items xs (inherited setFlags mark ||| mark.flags)
    else setFlagsAt next (x :: xs) (inherited setFlags mark)

variable {towlower}

/-! ### What is saved of a tree with a new node -/

theorem loadedMark_path_nil (tree : PathNodes) (setFlags : BitVec 32) :
    loadedMark towlower tree [] setFlags = Mark.none := by
  cases tree <;> rfl

theorem keptMark_none (setFlags : BitVec 32) : keptMark setFlags Mark.none = Mark.none := by
  have hno : isWritten (inherited setFlags Mark.none) Mark.none = false := by
    rw [isWritten, show Mark.none.flags = 0 from rfl, show (0 : BitVec 32) &&& _ = 0 from
      BitVec.zero_and]
    rfl
  rw [keptMark, hno]
  rfl

theorem inherited_none (setFlags : BitVec 32) : inherited setFlags Mark.none = setFlags :=
  inherited_not_relocated Mark.relocated_none setFlags

variable {tree : PathNodes}

theorem loadedMark_find_none {ys : List (List WChar)}
    (h : tree.find (List.map towlower) ys = none) (setFlags : BitVec 32) :
    loadedMark towlower tree ys setFlags = Mark.none := by
  induction tree generalizing ys setFlags with
  | nil => exact loadedMark_nil ys setFlags
  | node k m items next ihItems ihNext =>
    cases ys with
    | nil => exact loadedMark_path_nil _ setFlags
    | cons y ys =>
      rw [Forest.find_cons, Forest.child] at h
      by_cases hky : k.map towlower = y.map towlower
      · rw [if_pos hky, Option.bind_some] at h
        rw [loadedMark_node_pos hky]
        by_cases hys : ys = []
        · rw [if_pos hys] at h
          cases h
        · rw [if_neg hys] at h
          rw [if_neg hys]
          exact ihItems h _
      · rw [if_neg hky, ← Forest.find_cons] at h
        rw [loadedMark_node_neg hky]
        exact ihNext h _

theorem loadedMark_chain (f : Mark → Mark) {xs : List (List WChar)} (hxs : xs ≠ [])
    (ys : List (List WChar)) (setFlags : BitVec 32) :
    loadedMark towlower (Forest.chain Mark.none f xs) ys setFlags =
      if xs.map (List.map towlower) = ys.map (List.map towlower) then
        keptMark setFlags (f Mark.none)
      else Mark.none := by
  induction xs generalizing ys with
  | nil => exact absurd rfl hxs
  | cons x xs ih =>
    cases ys with
    | nil => rw [loadedMark_path_nil, if_neg (by simp)]
    | cons y ys =>
      rw [Forest.chain]
      by_cases hxy : x.map towlower = y.map towlower
      · have hmap : (x :: xs).map (List.map towlower) = (y :: ys).map (List.map towlower) ↔
            xs.map (List.map towlower) = ys.map (List.map towlower) := by
          rw [map_cons, map_cons, hxy]
          exact cons_inj_right _
        rw [loadedMark_node_pos hxy]
        simp only [hmap]
        by_cases hnil : xs = []
        · rw [hnil, if_pos rfl]
          by_cases hys : ys = []
          · simp [hys]
          · have hne : ¬([] : List (List WChar)).map (List.map towlower) =
                ys.map (List.map towlower) := fun h => hys (map_eq_nil_iff.mp h.symm)
            rw [if_neg hys, if_neg hne, Forest.chain, loadedMark_nil]
        · rw [if_neg hnil]
          by_cases hys : ys = []
          · have hne : ¬xs.map (List.map towlower) = ys.map (List.map towlower) := by
              rw [hys]
              exact fun h => hnil (map_eq_nil_iff.mp h)
            rw [if_pos hys, if_neg hne, keptMark_none]
          · have hflags : inherited setFlags Mark.none ||| Mark.none.flags = setFlags := by
              rw [inherited_none]
              exact BitVec.or_zero
            rw [if_neg hys, hflags, ih hnil]
      · have hne : ¬(x :: xs).map (List.map towlower) = (y :: ys).map (List.map towlower) :=
          fun h => hxy (List.cons.inj h).1
        rw [loadedMark_node_neg hxy, loadedMark_nil, if_neg hne]

/-- **A node is added**: what is saved of the others stays, and the line of the new one is
written unless the flags at its place are set already. -/
theorem loadedMark_update {f : Mark → Mark} {xs : List (List WChar)}
    (hxs : xs ≠ []) (hnew : tree.find (List.map towlower) xs = none) (ys : List (List WChar))
    (setFlags : BitVec 32) :
    loadedMark towlower (tree.update (List.map towlower) Mark.none f xs) ys setFlags =
      if xs.map (List.map towlower) = ys.map (List.map towlower) then
        keptMark (setFlagsAt towlower tree xs setFlags) (f Mark.none)
      else loadedMark towlower tree ys setFlags := by
  induction tree generalizing xs ys setFlags with
  | nil =>
    obtain ⟨x, xs, rfl⟩ := exists_cons_of_ne_nil hxs
    rw [Forest.update, loadedMark_chain f hxs, loadedMark_nil, setFlagsAt]
  | node k m items next ihItems ihNext =>
    obtain ⟨x, xs, rfl⟩ := exists_cons_of_ne_nil hxs
    rw [Forest.find_cons, Forest.child] at hnew
    rw [Forest.update, setFlagsAt]
    cases ys with
    | nil => rw [loadedMark_path_nil, loadedMark_path_nil, if_neg (by simp)]
    | cons y ys =>
      by_cases hkx : k.map towlower = x.map towlower
      · rw [if_pos hkx, Option.bind_some] at hnew
        have hnil : xs ≠ [] := by
          intro hnil
          rw [if_pos hnil] at hnew
          cases hnew
        rw [if_neg hnil] at hnew
        rw [if_pos hkx, if_pos hkx, if_neg hnil, if_neg hnil]
        by_cases hky : k.map towlower = y.map towlower
        · have hmap : (x :: xs).map (List.map towlower) = (y :: ys).map (List.map towlower) ↔
              xs.map (List.map towlower) = ys.map (List.map towlower) := by
            rw [map_cons, map_cons, ← hkx, ← hky]
            exact cons_inj_right _
          rw [loadedMark_node_pos hky, loadedMark_node_pos hky]
          simp only [hmap]
          by_cases hys : ys = []
          · have hne : ¬xs.map (List.map towlower) = ys.map (List.map towlower) := by
              rw [hys]
              exact fun h => hnil (map_eq_nil_iff.mp h)
            rw [if_pos hys, if_pos hys, if_neg hne]
          · rw [if_neg hys, if_neg hys]
            exact ihItems hnil hnew ys _
        · have hne : ¬(x :: xs).map (List.map towlower) = (y :: ys).map (List.map towlower) :=
            fun h => hky (hkx.trans (List.cons.inj h).1)
          rw [loadedMark_node_neg hky, loadedMark_node_neg hky, if_neg hne]
      · rw [if_neg hkx, ← Forest.find_cons] at hnew
        rw [if_neg hkx, if_neg hkx]
        by_cases hky : k.map towlower = y.map towlower
        · have hne : ¬(x :: xs).map (List.map towlower) = (y :: ys).map (List.map towlower) :=
            fun h => hkx (hky.trans (List.cons.inj h).1.symm)
          rw [loadedMark_node_pos hky, loadedMark_node_pos hky, if_neg hne]
        · rw [loadedMark_node_neg hky, loadedMark_node_neg hky]
          exact ihNext hxs hnew (y :: ys) _

theorem loadedMark_update_id (tree : PathNodes) (xs ys : List (List WChar))
    (setFlags : BitVec 32) :
    loadedMark towlower (tree.update (List.map towlower) Mark.none id xs) ys setFlags =
      loadedMark towlower tree ys setFlags := by
  by_cases hxs : xs = []
  · rw [hxs, Forest.update_nil_path]
  cases hfound : tree.find (List.map towlower) xs with
  | some found => rw [Forest.update_eq_self hfound rfl]
  | none =>
    rw [loadedMark_update hxs hfound]
    split
    · rename_i hsame
      have hnone := (Forest.find_congr tree hsame).symm.trans hfound
      rw [id, keptMark_none, loadedMark_find_none hnone]
    · rfl

/-! ### Answers where a path has no marks -/

/-- There is no mark at the path, nor below it. -/
def NoneMarked (towlower : WChar → WChar) (tree : PathNodes) (path : List WChar) : Prop :=
  ∀ ys, IsUnder towlower (names path) ys → tree.label (List.map towlower) Mark.none ys = Mark.none

variable {path : List WChar}

theorem NoneMarked.noneRelocated
    (h : NoneMarked towlower tree path) : NoneRelocated towlower tree path :=
  fun _ _ _ hunder => by rw [h _ hunder, Mark.relocated_none]

theorem answer_front {marks marks' : List (List WChar) → Mark}
    {segs segs' : List (List WChar × List WChar)} (hinit : ∀ seg ∈ segs.dropLast, seg.2 ≠ [])
    (hnext : ∀ seg ∈ segs', seg.2 ≠ []) (hunder : IsUnder towlower (segs'.map Prod.fst)
      (segs.map Prod.fst)) (hlt : segs'.length < segs.length)
    (hsame : ∀ ys ys', ys.map (List.map towlower) = ys'.map (List.map towlower) →
      marks ys = marks' ys')
    (hnone : ∀ ys, ys <+: segs.map Prod.fst → segs'.length < ys.length → marks ys = Mark.none)
    (flags : BitVec 32) (relocation relocation' : Option (List WChar)) :
    (answer marks segs flags relocation).1 = (answer marks' segs' flags relocation').1 := by
  induction segs' generalizing marks marks' segs flags relocation relocation' with
  | nil =>
    have hall : ∀ ys, ys ≠ [] → ys <+: segs.map Prod.fst → marks ys = Mark.none :=
      fun ys hys hpre => hnone ys hpre (length_pos_of_ne_nil hys)
    rw [@answer_congr_names (fun _ => Mark.none) marks segs hall, answer_none]
    rfl
  | cons seg' more' ih =>
    obtain ⟨x', next'⟩ := seg'
    cases segs with
    | nil => cases hlt
    | cons seg more =>
      obtain ⟨x, next⟩ := seg
      obtain ⟨hx, hrest⟩ := cons_prefix_cons.mp hunder
      have hlt' : more'.length < more.length := by simpa using hlt
      obtain ⟨first, rest, rfl⟩ := exists_cons_of_ne_nil
        (show more ≠ [] from ne_nil_of_length_pos (by omega))
      have hfirst : next ≠ [] := hinit (x, next) (by simp)
      have hfirst' : next' ≠ [] := hnext (x', next') mem_cons_self
      have hmark : marks [x] = marks' [x'] := hsame [x] [x'] (by simp [hx])
      rw [answer_pass marks hfirst, answer_pass marks' hfirst', hmark]
      have hmore : ∀ seg ∈ more', seg.2 ≠ [] := fun seg hseg =>
        hnext seg (mem_cons_of_mem _ hseg)
      refine ih (fun seg hseg => hinit seg ?_) hmore hrest hlt' (fun ys ys' hys => ?_)
        (fun ys hpre hlength => ?_) _ _ _
      · rw [dropLast_cons_cons]
        exact mem_cons_of_mem _ hseg
      · exact hsame (x :: ys) (x' :: ys') (by rw [map_cons, map_cons, hx, hys])
      · exact hnone (x :: ys) (cons_prefix_cons.mpr ⟨rfl, hpre⟩) (by simpa using hlength)

def front (path : List WChar) : List WChar := pathText (names path).dropLast ++ [92]

theorem names_front (path : List WChar) :
    names (front path) = (names path).dropLast ∧ hasLast (front path) = false :=
  segments_pathText_slash fun _ hname => isName_of_mem_names (dropLast_subset _ hname)

theorem not_isUnder_front (hlast : hasLast path = true) :
    ¬IsUnder towlower (names path) (names (front path)) := by
  intro hunder
  have hle := hunder.length_le
  have hpos := length_pos_of_ne_nil (names_ne_nil hlast)
  rw [length_map, length_map, (names_front path).1, length_dropLast] at hle
  omega

theorem deletedStatus_flags (tree : PathNodes) (path : List WChar) :
    deletedStatus towlower tree path =
      (getPathFlags towlower tree path false).1 &&& fileDeletedMask := by
  rw [deletedStatus_eq, getPathFlags, walk_eq_answer]

variable {path path' : List WChar}

theorem deletedStatus_front (hlast : hasLast path = true) (hnone : NoneMarked towlower tree path)
    (hunder : IsUnder towlower (names path) (names path')) :
    deletedStatus towlower tree path' = deletedStatus towlower tree (front path) := by
  have hnames := (names_front path).1
  have hlength : (segments (front path)).length = (names path).length - 1 := by
    rw [← length_dropLast, ← hnames, names, length_map]
  have hpos := length_pos_of_ne_nil (names_ne_nil hlast)
  have hle := hunder.length_le
  rw [length_map, length_map] at hle
  have hsegs : (segments path').length = (names path').length := (length_map _).symm
  have habove : IsUnder towlower (names (front path)) (names path') := by
    rw [hnames]
    exact (IsUnder.of_isPrefix ( dropLast_prefix _)).trans hunder
  have hbelow : ∀ ys, ys <+: names path' → (segments (front path)).length < ys.length →
      tree.label (List.map towlower) Mark.none ys = Mark.none := by
    intro ys hpre hlt
    refine hnone ys ?_
    have hmap : ys.map (List.map towlower) <+: (names path').map (List.map towlower) := hpre.map _
    refine prefix_of_prefix_length_le hunder hmap ?_
    rw [length_map, length_map]
    omega
  have hlt : (segments (front path)).length < (segments path').length := by omega
  have hfront := answer_front (segmentsFrom_init path' [])
    (segments_noLast (names_front path).2) habove hlt
    (fun ys ys' hys => Forest.label_congr tree hys) hbelow 0 none none
  rw [deletedStatus_eq, deletedStatus_eq]
  exact congrArg (· &&& fileDeletedMask) hfront

/-! ### Two trees in which the path is marked -/

theorem addedFlags_under (hlast : hasLast path = true)
    (h : IsUnder towlower (names path) (names path')) :
    addedFlags towlower path path' &&& fileDeletedMask ≠ 0 := by
  rw [addedFlags, if_pos ⟨hlast, h⟩]
  split
  · decide
  · decide

theorem addedFlags_other
    (h : ¬IsUnder towlower (names path) (names path')) : addedFlags towlower path path' = 0 :=
  if_neg fun hboth => h hboth.2

theorem deletedStatus_setDeleted (hnone : NoneRelocated towlower tree path) (path' : List WChar) :
    deletedStatus towlower (setPathFlags towlower tree path fileDeletedFlag 0 none) path' =
      deletedStatus towlower tree path' |||
        (addedFlags towlower path path' &&& fileDeletedMask) := by
  rw [deletedStatus_flags, deletedStatus_flags, flags_setDeleted hnone,
    BitVec.and_or_distrib_right]

theorem relocation_setDeleted (tree : PathNodes) (path path' : List WChar) :
    relocation towlower (setPathFlags towlower tree path fileDeletedFlag 0 none) path' =
      relocation towlower tree path' := by
  rw [relocation_eq, relocation_eq]
  exact (answer_keeps (segments path')
    (fun ys _ _ => label_changeLast_keeps Mark.keeps_setDeleted tree path ys) id none).2

theorem deletedStatus_setDeleted_other
    (hnone : NoneRelocated towlower tree path) (h : ¬IsUnder towlower (names path) (names path')) :
    deletedStatus towlower (setPathFlags towlower tree path fileDeletedFlag 0 none) path' =
      deletedStatus towlower tree path' := by
  rw [deletedStatus_setDeleted hnone, addedFlags_other h]
  exact (congrArg _ BitVec.zero_and).trans BitVec.or_zero

theorem deletedStatus_setDeleted_under
    (hlast : hasLast path = true) (hnone : NoneRelocated towlower tree path)
    (h : IsUnder towlower (names path) (names path')) :
    deletedStatus towlower (setPathFlags towlower tree path fileDeletedFlag 0 none) path' ≠ 0 := by
  rw [deletedStatus_setDeleted hnone]
  exact fun hzero => addedFlags_under hlast h (BitVec.or_eq_zero_iff.mp hzero).2

theorem answer_noOwnFlag {marks : List (List WChar) → Mark}
    {segs : List (List WChar × List WChar)} (hnext : ∀ seg ∈ segs, seg.2 ≠ []) {flags : BitVec 32}
    (hflags : flags.getLsbD 0 = false) (relocation : Option (List WChar)) :
    (answer marks segs flags relocation).1.getLsbD 0 = false := by
  induction segs generalizing marks flags relocation with
  | nil => exact hflags
  | cons seg more ih =>
    obtain ⟨name, next⟩ := seg
    rw [answer_pass marks (hnext (name, next) mem_cons_self)]
    exact ih (fun seg hseg => hnext seg (mem_cons_of_mem _ hseg))
      (passFlags_ownFlag hflags _) _

section Two

variable {tree tree' : PathNodes} {path : List WChar}

theorem deletedStatus_both (R : BitVec 32 → BitVec 32 → Prop) (hlast : hasLast path = true)
    (hnone : NoneMarked towlower tree path) (hnone' : NoneMarked towlower tree' path)
    (h : ∀ path', ¬IsUnder towlower (names path) (names path') →
      R (deletedStatus towlower tree path') (deletedStatus towlower tree' path'))
    (path' : List WChar) :
    R (deletedStatus towlower tree path') (deletedStatus towlower tree' path') := by
  by_cases hunder : IsUnder towlower (names path) (names path')
  · rw [deletedStatus_front hlast hnone hunder, deletedStatus_front hlast hnone' hunder]
    exact h (front path) (not_isUnder_front hlast)
  · exact h path' hunder

theorem sameDeletions_setDeleted (hlast : hasLast path = true)
    (hnone : NoneMarked towlower tree path) (hnone' : NoneMarked towlower tree' path) :
    SameDeletions towlower (setPathFlags towlower tree path fileDeletedFlag 0 none)
        (setPathFlags towlower tree' path fileDeletedFlag 0 none) ↔
      SameDeletions towlower tree tree' := by
  unfold SameDeletions
  simp only [relocation_setDeleted]
  refine ⟨fun h path' => ⟨?_, (h path').2⟩, fun h path' => ⟨?_, (h path').2⟩⟩
  · refine deletedStatus_both (fun x y => y ≠ 0 ↔ x ≠ 0) hlast hnone hnone' ?_ path'
    intro path'' hother
    have hboth := (h path'').1
    rwa [deletedStatus_setDeleted_other hnone.noneRelocated hother,
      deletedStatus_setDeleted_other hnone'.noneRelocated hother] at hboth
  · by_cases hunder : IsUnder towlower (names path) (names path')
    · exact iff_of_true (deletedStatus_setDeleted_under hlast hnone'.noneRelocated hunder)
        (deletedStatus_setDeleted_under hlast hnone.noneRelocated hunder)
    · rw [deletedStatus_setDeleted_other hnone.noneRelocated hunder,
        deletedStatus_setDeleted_other hnone'.noneRelocated hunder]
      exact (h path').1

theorem sameAnswers_setDeleted (hlast : hasLast path = true)
    (hnone : NoneMarked towlower tree path) (hnone' : NoneMarked towlower tree' path) :
    SameAnswers towlower (setPathFlags towlower tree path fileDeletedFlag 0 none)
        (setPathFlags towlower tree' path fileDeletedFlag 0 none) ↔
      SameAnswers towlower tree tree' := by
  unfold SameAnswers
  simp only [relocation_setDeleted]
  refine ⟨fun h path' => ⟨?_, (h path').2⟩, fun h path' => ⟨?_, (h path').2⟩⟩
  · refine deletedStatus_both (fun x y => y = x) hlast hnone hnone' ?_ path'
    intro path'' hother
    have hboth := (h path'').1
    rwa [deletedStatus_setDeleted_other hnone.noneRelocated hother,
      deletedStatus_setDeleted_other hnone'.noneRelocated hother] at hboth
  · rw [deletedStatus_setDeleted hnone.noneRelocated, deletedStatus_setDeleted hnone'.noneRelocated,
      (h path').1]

theorem sameDeletions_leftOut (hlast : hasLast path = true)
    (hnone : NoneMarked towlower tree path) (hnone' : NoneMarked towlower tree' path) :
    SameDeletions towlower tree (setPathFlags towlower tree' path fileDeletedFlag 0 none) ↔
      SameDeletions towlower tree tree' ∧ deletedStatus towlower tree path ≠ 0 := by
  have hself : IsUnder towlower (names path) (names path) := IsUnder.of_eq rfl
  unfold SameDeletions
  simp only [relocation_setDeleted]
  refine ⟨fun h => ⟨fun path' => ⟨?_, (h path').2⟩, ?_⟩, fun ⟨h, hpath⟩ path' => ⟨?_, (h path').2⟩⟩
  · refine deletedStatus_both (fun x y => y ≠ 0 ↔ x ≠ 0) hlast hnone hnone' ?_ path'
    intro path'' hother
    have hboth := (h path'').1
    rwa [deletedStatus_setDeleted_other hnone'.noneRelocated hother] at hboth
  · exact (h path).1.mp (deletedStatus_setDeleted_under hlast hnone'.noneRelocated hself)
  · by_cases hunder : IsUnder towlower (names path) (names path')
    · rw [deletedStatus_front hlast hnone hself] at hpath
      rw [deletedStatus_front hlast hnone hunder]
      exact iff_of_true (deletedStatus_setDeleted_under hlast hnone'.noneRelocated hunder) hpath
    · rw [deletedStatus_setDeleted_other hnone'.noneRelocated hunder]
      exact (h path').1

theorem not_sameAnswers_leftOut (hlast : hasLast path = true)
    (hnone : NoneMarked towlower tree path) (hnone' : NoneMarked towlower tree' path) :
    ¬SameAnswers towlower tree (setPathFlags towlower tree' path fileDeletedFlag 0 none) := by
  have hself : IsUnder towlower (names path) (names path) := IsUnder.of_eq rfl
  intro h
  have hbits := congrArg (BitVec.getLsbD · 0) (h path).1
  have hadded : (addedFlags towlower path path &&& fileDeletedMask).getLsbD 0 = true := by
    rw [addedFlags, if_pos ⟨hlast, hself⟩, if_pos ⟨rfl, hlast⟩]
    decide
  have hown := @answer_noOwnFlag (tree.label (List.map towlower) Mark.none) _
    (segments_noLast (names_front path).2) 0 rfl none
  rw [deletedStatus_setDeleted hnone'.noneRelocated, BitVec.getLsbD_or, hadded, Bool.or_true,
    deletedStatus_front hlast hnone hself, deletedStatus_eq, BitVec.getLsbD_and, hown] at hbits
  cases hbits

end Two

/-! ### The file and the tree of a process -/

variable (towlower) in
/-- The file is in sync with the tree of a process: the tree was read from it, or written to it,
and the process has appended lines since. -/
inductive InSync (toFile toTree : TranslatePath) : List WChar → PathNodes → Prop
  | loaded {text : List WChar} (hlines : WholeLines text)
      (hnodes : (loadPathTree towlower toTree text).All IsNode) :
      InSync toFile toTree text (loadPathTree towlower toTree text)
  | saved {root : PathNodes} (hnodes : root.All IsNode) (hapart : root.Apart (List.map towlower))
      (htranslates : Translates toFile toTree root) :
      InSync toFile toTree (savePathTree toFile root) root
  | appended {text path : List WChar} {root : PathNodes} (h : InSync toFile toTree text root)
      (hnew : findPathBranche towlower root path = none) (hwritable : Writable path)
      (htranslated : Translated toFile toTree path) :
      InSync toFile toTree (text ++ appendPathEntry toFile path ⟨fileDeletedFlag, none⟩)
        (markDeleted towlower root path).root

variable {toFile toTree : TranslatePath} {root : PathNodes}

theorem markDeleted_new (hnew : findPathBranche towlower root path = none) :
    (markDeleted towlower root path).root =
      setPathFlags towlower root path fileDeletedFlag 0 none := by
  rw [markDeleted, hnew]

theorem Translated.appendable (h : Translated toFile toTree path)
    (hwritable : Writable path) : Appendable toFile toTree path :=
  ⟨h.writable hwritable, h.back⟩

/-- A file in sync has whole lines, and marks only where the tree has nodes. -/
structure InSyncSpec (towlower : WChar → WChar) (toTree : TranslatePath) (text : List WChar)
    (root : PathNodes) : Prop where
  lines : WholeLines text
  nodes : root.All IsNode
  apart : root.Apart (List.map towlower)
  label : ∀ ys, root.find (List.map towlower) ys = none →
    (loadPathTree towlower toTree text).label (List.map towlower) Mark.none ys = Mark.none

theorem InSync.spec {text : List WChar}
    (h : InSync towlower toFile toTree text root) : InSyncSpec towlower toTree text root := by
  induction h with
  | loaded hlines hnodes =>
    exact ⟨hlines, hnodes, apart_loadPathTree _, fun ys hys => by rw [Forest.label, hys]⟩
  | saved hnodes hapart htranslates =>
    have hback := comesBack hnodes htranslates
    refine ⟨wholeLines_savePathTree hback, hnodes, hapart, fun ys hys => ?_⟩
    rw [label_loadPathTree hapart hback]
    exact loadedMark_find_none hys 0
  | @appended text path root _ hnew hwritable htranslated ih =>
    have happendable := htranslated.appendable hwritable
    have hentry : Mark.Writable toFile path ⟨fileDeletedFlag, none⟩ :=
      ⟨happendable.writable, fun r hr => by cases hr⟩
    refine ⟨wholeLines_append ih.lines (wholeLines_entry hentry),
      isNode_markDeleted ih.nodes hwritable, apart_markDeleted ih.apart path, fun ys hys => ?_⟩
    rw [markDeleted_new hnew, setPathFlags, changeLast] at hys
    rw [loadPathTree_append ih.lines happendable, label_setDeleted, if_neg]
    · exact ih.label ys (Forest.find_of_update hys)
    · rintro ⟨hlast, hsame⟩
      exact Forest.find_update_self _ root (names_ne_nil hlast) hsame hys

variable (towlower) in
def savedTree (toFile toTree : TranslatePath) (root : PathNodes) : PathNodes :=
  loadPathTree towlower toTree (savePathTree toFile root)

variable (towlower) in
/-- No line is written for the path when the tree is saved: the flags at its place have
`FILE_DELETED_FLAG`. -/
def LineLeftOut (root : PathNodes) (path : List WChar) : Prop :=
  hasLast path = true ∧ setFlagsAt towlower root (names path) 0 &&& fileDeletedFlag ≠ 0

instance (root : PathNodes) (path : List WChar) : Decidable (LineLeftOut towlower root path) :=
  inferInstanceAs (Decidable (_ ∧ _))

theorem keptMark_deletion (setFlags : BitVec 32) :
    keptMark setFlags (Mark.none.set fileDeletedFlag 0 none) =
      if setFlags &&& fileDeletedFlag ≠ 0 then Mark.none
      else Mark.none.set fileDeletedFlag 0 none := by
  have hmark : Mark.none.set fileDeletedFlag 0 none = ⟨fileDeletedFlag, none⟩ := by decide
  have hflag : fileDeletedFlag = BitVec.twoPow 32 0 := by decide
  have hwritten : isWritten setFlags ⟨fileDeletedFlag, none⟩ = !setFlags.getLsbD 0 := by
    have hbit : (~~~setFlags).getLsbD 0 = !setFlags.getLsbD 0 := by simp
    rw [isWritten, ← hbit, BitVec.and_comm, hflag, Bool.eq_iff_iff,
      ← and_flag_ne_zero _ (by decide)]
    simp
  rw [hmark, keptMark, inherited_not_relocated (by decide), hwritten]
  by_cases hset : setFlags.getLsbD 0 = true
  · rw [hset, if_neg (by decide), if_pos (by rw [hflag, and_flag_ne_zero _ (by decide), hset])]
  · have hnot : ¬setFlags &&& fileDeletedFlag ≠ 0 := by
      rw [hflag, and_flag_ne_zero _ (by decide)]
      exact hset
    rw [if_neg hnot, Bool.eq_false_of_not_eq_true hset]
    rfl

theorem translates_of_markDeleted (hnew : findPathBranche towlower root path = none)
    (h : Translates toFile toTree (markDeleted towlower root path).root) :
    Translates toFile toTree root := by
  rw [markDeleted_new hnew, setPathFlags, changeLast] at h
  cases hfound : root.find (List.map towlower) (names path) with
  | none => exact fun e he => h e (Forest.nodes_update hfound [] he)
  | some found =>
    have hlast : hasLast path = false := by
      by_contra hne
      rw [findPathBranche, if_pos (Bool.not_eq_false _ ▸ hne), hfound] at hnew
      cases hnew
    rw [hlast, if_neg Bool.false_ne_true, Forest.update_eq_self hfound rfl] at h
    exact h

/-- **What a full save says with a new deletion**: its line is there, or it is left out and the file
says what it would have said without it. -/
theorem label_savedTree (hnodes : root.All IsNode) (hapart : root.Apart (List.map towlower))
    (hnew : findPathBranche towlower root path = none) (hwritable : Writable path)
    (htranslates : Translates toFile toTree (markDeleted towlower root path).root)
    (ys : List (List WChar)) :
    (savedTree towlower toFile toTree (markDeleted towlower root path).root).label
        (List.map towlower) Mark.none ys =
      (if LineLeftOut towlower root path then savedTree towlower toFile toTree root
        else setPathFlags towlower (savedTree towlower toFile toTree root) path fileDeletedFlag 0
          none).label (List.map towlower) Mark.none ys := by
  have hbefore : ∀ ys, (savedTree towlower toFile toTree root).label (List.map towlower)
      Mark.none ys = loadedMark towlower root ys 0 :=
    label_loadPathTree hapart (comesBack hnodes (translates_of_markDeleted hnew htranslates))
  rw [savedTree, label_loadPathTree (apart_markDeleted hapart path)
    (comesBack (isNode_markDeleted hnodes hwritable) htranslates), markDeleted_new hnew,
    setPathFlags, changeLast]
  by_cases hlast : hasLast path = true
  · have hnone : root.find (List.map towlower) (names path) = none := by
      rw [findPathBranche, if_pos hlast] at hnew
      exact hnew
    rw [if_pos hlast, loadedMark_update (names_ne_nil hlast) hnone, keptMark_deletion]
    by_cases hleft : LineLeftOut towlower root path
    · rw [if_pos hleft, if_pos hleft.2, hbefore]
      split
      · rename_i hsame
        rw [loadedMark_find_none ((Forest.find_congr root hsame).symm.trans hnone)]
      · rfl
    · rw [if_neg hleft, if_neg fun h => hleft ⟨hlast, h⟩, label_setDeleted, hbefore]
      by_cases hsame : (names path).map (List.map towlower) = ys.map (List.map towlower)
      · rw [if_pos hsame, if_pos ⟨hlast, hsame⟩,
          loadedMark_find_none ((Forest.find_congr root hsame).symm.trans hnone)]
      · rw [if_neg hsame, if_neg fun h => hsame h.2]
  · rw [if_neg hlast, loadedMark_update_id, if_neg fun h => hlast h.1, label_setDeleted,
      if_neg fun h => hlast h.1, hbefore]

/-! ### The law -/

theorem sameDeletions_congr {tree tree₁ tree' tree₁' : PathNodes}
    (h : ∀ ys, tree.label (List.map towlower) Mark.none ys =
      tree₁.label (List.map towlower) Mark.none ys)
    (h' : ∀ ys, tree'.label (List.map towlower) Mark.none ys =
      tree₁'.label (List.map towlower) Mark.none ys) :
    (SameDeletions towlower tree tree' ↔ SameDeletions towlower tree₁ tree₁') ∧
      (SameAnswers towlower tree tree' ↔ SameAnswers towlower tree₁ tree₁') := by
  have hstatus : ∀ t t₁ : PathNodes, (∀ ys, t.label (List.map towlower) Mark.none ys =
      t₁.label (List.map towlower) Mark.none ys) → ∀ path,
        deletedStatus towlower t path = deletedStatus towlower t₁ path ∧
          relocation towlower t path = relocation towlower t₁ path := by
    intro t t₁ hlabel path
    rw [deletedStatus_eq, deletedStatus_eq, relocation_eq, relocation_eq, funext hlabel]
    exact ⟨rfl, rfl⟩
  refine ⟨forall_congr' fun path => ?_, forall_congr' fun path => ?_⟩
  · obtain ⟨h1, h2⟩ := hstatus tree tree₁ h path
    obtain ⟨h1', h2'⟩ := hstatus tree' tree₁' h' path
    rw [h1, h2, h1', h2']
  · obtain ⟨h1, h2⟩ := hstatus tree tree₁ h path
    obtain ⟨h1', h2'⟩ := hstatus tree' tree₁' h' path
    rw [h1, h2, h1', h2']

/-- The line that is appended, against a full save, in the trees that are read. -/
theorem append_save_iff {text : List WChar} (hsync : InSync towlower toFile toTree text root)
    (hnew : findPathBranche towlower root path = none) (hwritable : Writable path)
    (htranslated : Translated toFile toTree path)
    (htranslates : Translates toFile toTree (markDeleted towlower root path).root) :
    (SameDeletions towlower (savedTree towlower toFile toTree (markDeleted towlower root path).root)
        (loadPathTree towlower toTree
          (text ++ appendPathEntry toFile path ⟨fileDeletedFlag, none⟩)) ↔
      SameDeletions towlower (savedTree towlower toFile toTree root)
          (loadPathTree towlower toTree text) ∧
        (LineLeftOut towlower root path →
          deletedStatus towlower (savedTree towlower toFile toTree root) path ≠ 0)) ∧
      (SameAnswers towlower (savedTree towlower toFile toTree (markDeleted towlower root path).root)
          (loadPathTree towlower toTree
            (text ++ appendPathEntry toFile path ⟨fileDeletedFlag, none⟩)) ↔
        SameAnswers towlower (savedTree towlower toFile toTree root)
            (loadPathTree towlower toTree text) ∧
          ¬LineLeftOut towlower root path) := by
  obtain ⟨hlines, hnodes, hapart, hlabel⟩ := hsync.spec
  rw [loadPathTree_append hlines (htranslated.appendable hwritable)]
  have hbefore := translates_of_markDeleted hnew htranslates
  have hsaved := label_savedTree hnodes hapart hnew hwritable htranslates
  have hcongr := sameDeletions_congr hsaved fun ys => (rfl :
    (setPathFlags towlower (loadPathTree towlower toTree text) path fileDeletedFlag 0 none).label
      (List.map towlower) Mark.none ys = _)
  rw [hcongr.1, hcongr.2]
  by_cases hlast : hasLast path = true
  · -- neither file says something of the path before
    rw [findPathBranche, if_pos hlast] at hnew
    have hnone : ∀ ys, IsUnder towlower (names path) ys →
        root.find (List.map towlower) ys = none := fun ys hunder =>
      Forest.find_none_below (names_ne_nil hlast) hunder hnew
    have hmarked : NoneMarked towlower (loadPathTree towlower toTree text) path :=
      fun ys hunder => hlabel ys (hnone ys hunder)
    have hmarked' : NoneMarked towlower (savedTree towlower toFile toTree root) path := by
      intro ys hunder
      rw [savedTree, label_loadPathTree hapart (comesBack hnodes hbefore)]
      exact loadedMark_find_none (hnone ys hunder) 0
    by_cases hleft : LineLeftOut towlower root path
    · rw [if_pos hleft, sameDeletions_leftOut hlast hmarked' hmarked]
      refine ⟨and_congr_right fun _ => ⟨fun h _ => h, fun h => h hleft⟩, ?_⟩
      exact iff_of_false (not_sameAnswers_leftOut hlast hmarked' hmarked) fun h => h.2 hleft
    · rw [if_neg hleft, sameDeletions_setDeleted hlast hmarked' hmarked,
        sameAnswers_setDeleted hlast hmarked' hmarked]
      exact ⟨⟨fun h => ⟨h, fun hl => absurd hl hleft⟩, fun h => h.1⟩,
        ⟨fun h => ⟨h, hleft⟩, fun h => h.1⟩⟩
  · -- the path has a backslash behind it: nothing is marked
    have hleft : ¬LineLeftOut towlower root path := fun h => hlast h.1
    have hsame : ∀ tree : PathNodes, ∀ ys,
        (setPathFlags towlower tree path fileDeletedFlag 0 none).label (List.map towlower) Mark.none
          ys = tree.label (List.map towlower) Mark.none ys := by
      intro tree ys
      rw [label_setDeleted, if_neg fun h => hlast h.1]
    have hboth := sameDeletions_congr (hsame (savedTree towlower toFile toTree root))
      (hsame (loadPathTree towlower toTree text))
    rw [if_neg hleft, hboth.1, hboth.2]
    exact ⟨⟨fun h => ⟨h, fun hl => absurd hl hleft⟩, fun h => h.1⟩,
      ⟨fun h => ⟨h, hleft⟩, fun h => h.1⟩⟩

theorem new_of_appends {file : Option DataFile} {process : Process}
    (hset : (markDeleted towlower root path).set = true)
    (happends : appends file process (markDeleted towlower root path) = true) :
    findPathBranche towlower root path = none := by
  cases hfound : findPathBranche towlower root path with
  | none => rfl
  | some found =>
    rw [markDeleted, hfound] at hset happends
    by_cases halready : found.1.flags = fileDeletedFlag ∧ found.2 = .nil
    · simp only [if_pos halready] at hset
      cases hset
    · simp only [if_neg halready] at happends
      cases happends

/-- **The line that is appended says what a full save does**, for each file in sync with the tree of
the process, exactly when a full save said the same before, and the line of the path is not left
out by it while no folder above deletes the path; with the same flags exactly when the line is not
left out. -/
theorem append_iff {file : DataFile} {process : Process} {path : List WChar} {date : Nat}
    (hsync : InSync towlower toFile toTree file.text process.pathRoot)
    (hset : (markDeleted towlower process.pathRoot path).set = true)
    (happends : appends (some file) process (markDeleted towlower process.pathRoot path) = true)
    (hwritable : Writable path) (htranslated : Translated toFile toTree path)
    (htranslates : Translates toFile toTree (markDeleted towlower process.pathRoot path).root) :
    let marked := { process with pathRoot := (markDeleted towlower process.pathRoot path).root }
    let saved := fileTree towlower toTree (saveTree toFile (some file) marked true date).1
    let appended := fileTree towlower toTree
      (markDeletedV2 towlower toFile (some file) process path true date).1
    (SameDeletions towlower saved appended ↔
      SameDeletions towlower (savedTree towlower toFile toTree process.pathRoot)
          (fileTree towlower toTree (some file)) ∧
        (LineLeftOut towlower process.pathRoot path →
          deletedStatus towlower (savedTree towlower toFile toTree process.pathRoot) path ≠ 0)) ∧
      (SameAnswers towlower saved appended ↔
        SameAnswers towlower (savedTree towlower toFile toTree process.pathRoot)
            (fileTree towlower toTree (some file)) ∧
          ¬LineLeftOut towlower process.pathRoot path) := by
  have hnew := new_of_appends hset happends
  have hfile : (markDeletedV2 towlower toFile (some file) process path true date).1 =
      some ⟨file.text ++ appendPathEntry toFile path ⟨fileDeletedFlag, none⟩, date⟩ := by
    have happends' : appends (some file)
        { process with pathRoot := (markDeleted towlower process.pathRoot path).root }
          (markDeleted towlower process.pathRoot path) = true := happends
    simp only [markDeletedV2, if_pos hset, if_pos happends', if_true]
  intro marked saved appended
  have happended : appended = loadPathTree towlower toTree
      (file.text ++ appendPathEntry toFile path ⟨fileDeletedFlag, none⟩) := by
    show fileTree towlower toTree _ = _
    rw [hfile]
    rfl
  rw [happended]
  exact append_save_iff hsync hnew hwritable htranslated htranslates

end Fold

def startedProcess : Process := ⟨.nil, ⟨0, 0⟩, .idle⟩

theorem inSync_started (towlower : WChar → WChar) :
    InSync towlower noTranslation noTranslation [] .nil :=
  @InSync.loaded towlower noTranslation noTranslation [] ⟨not_mem_nil, Or.inl rfl⟩ trivial

theorem append_started :
    SameAnswers asciiLower
      (fileTree asciiLower noTranslation (saveTree noTranslation (some ⟨[], 0⟩)
        { startedProcess with
          pathRoot := (markDeleted asciiLower .nil (wide ['\\', 'a'])).root } true 1).1)
      (fileTree asciiLower noTranslation (markDeletedV2 asciiLower noTranslation (some ⟨[], 0⟩)
        startedProcess (wide ['\\', 'a']) true 1).1) := by
  have hwritable : Writable (wide ['\\', 'a']) := ⟨by decide, by decide, by decide⟩
  have hsame : SameAnswers asciiLower (savedTree asciiLower noTranslation noTranslation .nil)
      (fileTree asciiLower noTranslation (some ⟨[], 0⟩)) := fun _ => ⟨rfl, rfl⟩
  have hiff := @append_iff asciiLower noTranslation noTranslation ⟨[], 0⟩ startedProcess
    (wide ['\\', 'a']) 1 (inSync_started asciiLower) (by decide) (by decide) hwritable ⟨rfl, id⟩
    (translates_noTranslation _)
  exact hiff.2.mpr ⟨hsame, by decide⟩

/-- `\n` is deleted, and `\o` renamed to it. -/
def overDeletedTree : PathNodes :=
  .node (wide ['n']) ⟨3, some (wide ['\\', 'o'])⟩ .nil
    (.node (wide ['o']) ⟨1, none⟩ .nil .nil)

theorem inSync_overDeleted : InSync asciiLower noTranslation noTranslation
    (savePathTree noTranslation overDeletedTree) overDeletedTree := by
  have hname : ∀ c : Char, c ∈ ['n', 'o'] → IsName (wide [c]) ∧ Writable (wide [c]) := by
    intro c hc
    obtain rfl | hc := mem_cons.mp hc
    · exact ⟨⟨by decide, by decide⟩, by decide, by decide, by decide⟩
    · obtain rfl := mem_singleton.mp hc
      exact ⟨⟨by decide, by decide⟩, by decide, by decide, by decide⟩
  have hnodes : overDeletedTree.All IsNode := by
    refine ⟨⟨(hname 'n' (by simp)).1, (hname 'n' (by simp)).2, ⟨by decide, by decide, by decide⟩,
      fun r hr => ?_⟩, trivial, ⟨(hname 'o' (by simp)).1, (hname 'o' (by simp)).2,
      ⟨by decide, by decide, by decide⟩, fun r hr => nomatch hr⟩, trivial, trivial⟩
    cases hr
    exact ⟨by decide, by decide, by decide⟩
  exact .saved hnodes ⟨by decide, trivial, by decide, trivial, trivial⟩
    (translates_noTranslation overDeletedTree)

/-- `\n\c` is deleted then: the line that is appended says so, and a full save leaves it out. -/
theorem append_not_saved :
    ¬∀ (file : DataFile) (process : Process) (path : List WChar) (date : Nat),
      InSync asciiLower noTranslation noTranslation file.text process.pathRoot →
      (markDeleted asciiLower process.pathRoot path).set = true →
      appends (some file) process (markDeleted asciiLower process.pathRoot path) = true →
      SameDeletions asciiLower
        (fileTree asciiLower noTranslation (saveTree noTranslation (some file)
          { process with pathRoot := (markDeleted asciiLower process.pathRoot path).root } true
            date).1)
        (fileTree asciiLower noTranslation
          (markDeletedV2 asciiLower noTranslation (some file) process path true date).1) := by
  intro h
  have hsame := (h ⟨savePathTree noTranslation overDeletedTree, 0⟩
    ⟨overDeletedTree, ⟨2 * (savePathTree noTranslation overDeletedTree).length, 0⟩, .idle⟩
    (wide ['\\', 'n', '\\', 'c']) 1 inSync_overDeleted (by decide) (by decide)
    (wide ['\\', 'n', '\\', 'c'])).1
  revert hsame
  decide

end Sandboxie.PathTree
