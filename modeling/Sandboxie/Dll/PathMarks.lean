import Sandboxie.Dll.PathShare

/-!
# Trees of deletions only

The tree and the file that calls of `File_MarkDeleted_internal` make on their own, without
relocations: a path is deleted exactly when it is at or below one that was marked
(`MarkedBy`).
-/

namespace Sandboxie.PathTree

open Text List

section Fold

variable (towlower : WChar → WChar)

/-- The deleted paths of the tree are those at the marked ones and below them, and nothing is
relocated. -/
structure MarkedBy (root : PathNodes) (paths : List (List WChar)) : Prop where
  apart : root.Apart (List.map towlower)
  relocated : ∀ ys, (root.label (List.map towlower) Mark.none ys).relocated = false
  deleted : ∀ path, deletedStatus towlower root path ≠ 0 ↔
    ∃ p ∈ paths, IsUnder towlower (names p) (names path)

variable {towlower}

theorem markedBy_nil : MarkedBy towlower .nil [] := by
  refine ⟨trivial, fun ys => ?_, fun path => ?_⟩
  · rw [Forest.label_nil, Mark.relocated_none]
  have hnone : (fun ys => (Forest.nil : PathNodes).label (List.map towlower) Mark.none ys) =
      fun _ => Mark.none := funext fun ys => Forest.label_nil ys
  have hzero : deletedStatus towlower .nil path = 0 := by
    rw [deletedStatus_eq, show (Forest.nil : PathNodes).label (List.map towlower) Mark.none =
      fun _ => Mark.none from hnone, answer_none]
    rfl
  refine iff_of_false (fun h => h hzero) ?_
  rintro ⟨p, hp, _⟩
  cases hp

variable {path : List WChar}

theorem deletedStatus_congr {root root' : PathNodes} (h : ∀ ys, ys <+: names path →
      root'.label (List.map towlower) Mark.none ys = root.label (List.map towlower) Mark.none ys) :
    deletedStatus towlower root' path ≠ 0 ↔ deletedStatus towlower root path ≠ 0 := by
  rw [deletedStatus_ne_zero, deletedStatus_ne_zero]
  refine ⟨?_, ?_⟩
  · exact (answer_keeps (segments path) (fun ys _ hys => h ys hys ▸ Mark.Keeps.refl _) id none).1
  · exact (answer_keeps (segments path) (fun ys _ hys => (h ys hys).symm ▸ Mark.Keeps.refl _) id
      none).1

variable {root : PathNodes}

theorem deletedStatus_under {names' : List (List WChar)}
    (hne : names' ≠ []) (hunder : IsUnder towlower names' (names path))
    (hdeleted : ∀ ys, names'.map (List.map towlower) = ys.map (List.map towlower) →
      (root.label (List.map towlower) Mark.none ys).deleted = true)
    (hrelocated : ∀ ys, IsUnder towlower names' ys →
      (root.label (List.map towlower) Mark.none ys).relocated = false) :
    deletedStatus towlower root path ≠ 0 := by
  have htake : ((names path).take names'.length).map (List.map towlower) =
      names'.map (List.map towlower) := by
    obtain ⟨more, hmore⟩ := hunder
    rw [map_take, ← hmore]
    simp
  have hnonempty : (names path).take names'.length ≠ [] := by
    intro hnil
    rw [hnil] at htake
    exact hne (map_eq_nil_iff.mp htake.symm)
  rw [deletedStatus_ne_zero]
  exact answer_below_deleted (segments path) hnonempty ( take_prefix _ _)
    (hdeleted _ htake.symm)
    (fun ys hys => hrelocated ys ((IsUnder.of_eq htake.symm).trans (IsUnder.of_isPrefix hys))) 0
    none (segmentsFrom_init path [])

theorem label_markDeleted_ne {ys : List (List WChar)} (h : ¬IsUnder towlower (names path) ys) :
    (markDeleted towlower root path).root.label (List.map towlower) Mark.none ys =
      root.label (List.map towlower) Mark.none ys := by
  unfold markDeleted
  cases findPathBranche towlower root path with
  | none => exact label_changeLast_ne h
  | some found =>
    by_cases hset : found.1.flags = fileDeletedFlag ∧ found.2 = .nil
    · simp only [if_pos hset]
    · simp only [if_neg hset]
      exact (label_changeLast_ne h).trans (Forest.label_remove root h)

theorem MarkedBy.step {root root' : PathNodes} {paths : List (List WChar)}
    (h : MarkedBy towlower root paths) (hlast : hasLast path = true)
    (hapart : root'.Apart (List.map towlower))
    (hrelocated : ∀ ys, (root'.label (List.map towlower) Mark.none ys).relocated = false)
    (hdeleted : ∀ ys, (names path).map (List.map towlower) = ys.map (List.map towlower) →
      (root'.label (List.map towlower) Mark.none ys).deleted = true)
    (hother : ∀ ys, ¬IsUnder towlower (names path) ys →
      root'.label (List.map towlower) Mark.none ys =
        root.label (List.map towlower) Mark.none ys) :
    MarkedBy towlower root' (paths ++ [path]) := by
  refine ⟨hapart, hrelocated, fun path' => ?_⟩
  by_cases hunder : IsUnder towlower (names path) (names path')
  · refine iff_of_true ?_ ⟨path, by simp, hunder⟩
    exact deletedStatus_under (names_ne_nil hlast) hunder hdeleted fun ys _ => hrelocated ys
  have hsame : deletedStatus towlower root' path' ≠ 0 ↔ deletedStatus towlower root path' ≠ 0 :=
    deletedStatus_congr fun ys hys =>
      hother ys fun hat => hunder (hat.trans (IsUnder.of_isPrefix hys))
  rw [hsame, h.deleted]
  refine ⟨?_, ?_⟩
  · rintro ⟨p, hp, hat⟩
    exact ⟨p, mem_append_left _ hp, hat⟩
  · rintro ⟨p, hp, hat⟩
    rcases mem_append.mp hp with hp | hp
    · exact ⟨p, hp, hat⟩
    · obtain rfl := mem_singleton.mp hp
      exact absurd hat hunder

theorem MarkedBy.markDeleted {paths : List (List WChar)}
    (h : MarkedBy towlower root paths) (hlast : hasLast path = true) :
    MarkedBy towlower (markDeleted towlower root path).root (paths ++ [path]) := by
  refine h.step hlast (apart_markDeleted h.apart path) (fun ys => ?_) (fun ys hys => ?_)
    (fun ys => label_markDeleted_ne)
  · by_cases hunder : IsUnder towlower (names path) ys
    · exact (markDeleted_under h.apart hlast hunder).1
    · rw [label_markDeleted_ne hunder]
      exact h.relocated ys
  · exact (markDeleted_under h.apart hlast (IsUnder.of_eq hys)).2 hys

theorem MarkedBy.setDeleted {paths : List (List WChar)}
    (h : MarkedBy towlower root paths) (hlast : hasLast path = true) :
    MarkedBy towlower (setPathFlags towlower root path fileDeletedFlag 0 none)
      (paths ++ [path]) := by
  refine h.step hlast (h.apart.update _ _) (fun ys => ?_) (fun ys hys => ?_)
    (fun ys => label_changeLast_ne)
  · rw [setPathFlags, (label_changeLast_keeps Mark.keeps_setDeleted root path ys).relocated]
    exact h.relocated ys
  · have hne : ys ≠ [] := by
      rintro rfl
      exact names_ne_nil hlast (map_eq_nil_iff.mp hys)
    rw [setPathFlags, label_changeLast_self hlast hne hys]
    exact Mark.deleted_setDeleted _

/-! ### Its file -/

/-- The nodes have names and marks that come back from a file, and none is relocated. -/
def NodesReady (root : PathNodes) : Prop :=
  root.All fun name m => IsNode name m ∧ m.relocated = false

theorem nodesReady_markDeleted {root : PathNodes} {path : List WChar} (h : NodesReady root)
    (hwritable : Writable path) : NodesReady (PathTree.markDeleted towlower root path).root := by
  have hset : ∀ t : PathNodes, NodesReady t →
      NodesReady (setPathFlags towlower t path fileDeletedFlag 0 none) := by
    intro t ht
    refine Forest.All.update ht (fun name hname => ?_) fun name m hm => ?_
    · obtain ⟨seg, hseg, rfl⟩ := mem_map.mp hname
      obtain ⟨hisName, hsub, _⟩ := segments_mem hseg
      exact ⟨isNode_none hisName (hwritable.mono hsub), Mark.relocated_none⟩
    · split
      · refine ⟨isNode_setDeleted hm.1, ?_⟩
        rw [(Mark.keeps_setDeleted m).relocated]
        exact hm.2
      · exact hm
  unfold PathTree.markDeleted
  cases findPathBranche towlower root path with
  | none => exact hset root h
  | some found =>
    by_cases halready : found.1.flags = fileDeletedFlag ∧ found.2 = .nil
    · simp only [if_pos halready]
      exact h
    · simp only [if_neg halready]
      exact hset _ (Forest.All.remove h)

theorem lost_eq_false (h : NodesReady root) : lost root = false := by
  have hbelow : ∀ t : PathNodes, NodesReady t →
      below (fun m => m.deleted && m.relocated) t false = false := by
    intro t
    induction t with
    | nil => exact fun _ => rfl
    | node name mark items next ihItems ihNext =>
      rintro ⟨hm, hitems, hnext⟩
      have hno : (mark.deleted && mark.relocated) = false := by rw [hm.2, Bool.and_false]
      rw [below]
      show ((false && !mark.relocated && mark.deleted) || below _ items
        ((false && !mark.relocated) || (mark.deleted && mark.relocated)) ||
          below _ next (false && !mark.relocated)) = false
      rw [hno, Bool.false_and, Bool.false_and, Bool.false_or, Bool.false_or, ihItems hitems,
        ihNext hnext]
      rfl
  exact hbelow root h

theorem savable (h : NodesReady root) (hapart : root.Apart (List.map towlower)) :
    Savable towlower noTranslation noTranslation root := by
  refine ⟨hapart, lost_eq_false h, h.mono fun _ _ hm => ⟨hm.1.isName, hm.1.plain⟩, ?_⟩
  exact comesBack (h.mono fun _ _ hm => hm.1) (translates_noTranslation root)

end Fold

end Sandboxie.PathTree
