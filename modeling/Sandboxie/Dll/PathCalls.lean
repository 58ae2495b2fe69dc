import Sandboxie.Dll.PathAnswer
import Sandboxie.Lib.Run

/-!
# The trees that the calls make

What holds of each tree that `File_MarkDeleted_internal` and `File_SetRelocation_internal` make of
the empty one, and what that means for a tree that is saved and loaded: `save_load_iff`.
-/

namespace Sandboxie.PathTree

open Text List

inductive Call
  | markDeleted (path : List WChar)
  | setRelocation (oldTruePath newTruePath : List WChar)

/-- A path is not empty, and none of its characters ends a part of a line. -/
structure IsPath (path : List WChar) : Prop where
  ne_nil : path ≠ []
  writable : Writable path

def Call.HasPaths : Call → Prop
  | .markDeleted path => IsPath path
  | .setRelocation oldTruePath newTruePath => IsPath oldTruePath ∧ IsPath newTruePath

def Call.run (towlower : WChar → WChar) (root : PathNodes) : Call → Option PathNodes
  | .markDeleted path => some (PathTree.markDeleted towlower root path).root
  | .setRelocation oldTruePath newTruePath =>
    PathTree.setRelocation towlower root oldTruePath newTruePath

def Calls (towlower : WChar → WChar) : PathNodes → List Call → PathNodes → Prop :=
  Run (fun root call root' => call.run towlower root = some root') (fun _ call => call.HasPaths)

/-! ### Nodes of such a tree -/

/-- A node that the calls make. -/
structure IsNode (name : List WChar) (mark : Mark) : Prop where
  isName : IsName name
  writable : Writable name
  plain : mark.Plain
  target : ∀ r ∈ mark.relocation, Writable r

theorem Writable.append {s t : List WChar} (hs : Writable s) (ht : Writable t) :
    Writable (s ++ t) where
  bar := fun h => (mem_append.mp h).elim hs.bar ht.bar
  lf := fun h => (mem_append.mp h).elim hs.lf ht.lf
  nul := fun h => (mem_append.mp h).elim hs.nul ht.nul

theorem Writable.mono {s t : List WChar} (h : Writable t) (hst : s ⊆ t) : Writable s where
  bar := fun hs => h.bar (hst hs)
  lf := fun hs => h.lf (hst hs)
  nul := fun hs => h.nul (hst hs)

theorem segmentsFrom_mem {path : List WChar} (name : List WChar) (hname : 92 ∉ name)
    {seg : List WChar × List WChar} (h : seg ∈ segmentsFrom name path) :
    IsName seg.1 ∧ seg.1 ⊆ name ++ path ∧ seg.2 ⊆ path := by
  induction path generalizing name with
  | nil =>
    cases name with
    | nil => cases h
    | cons c name =>
      obtain rfl := mem_singleton.mp h
      exact ⟨⟨cons_ne_nil c name, hname⟩, by simp, by simp⟩
  | cons c rest ih =>
    have hsub : rest ⊆ c :: rest := subset_cons_self c rest
    rw [segmentsFrom] at h
    by_cases hc : c = 92
    · rw [if_pos hc] at h
      have hbehind : seg ∈ segmentsFrom [] rest →
          IsName seg.1 ∧ seg.1 ⊆ name ++ c :: rest ∧ seg.2 ⊆ c :: rest := by
        intro h
        obtain ⟨hseg, h1, h2⟩ := ih [] not_mem_nil h
        exact ⟨hseg, List.Subset.trans h1 (List.Subset.trans hsub (subset_append_right _ _)),
          List.Subset.trans h2 hsub⟩
      by_cases hnil : name = []
      · rw [if_pos hnil] at h
        exact hbehind h
      · rw [if_neg hnil] at h
        obtain rfl | h := mem_cons.mp h
        · exact ⟨⟨hnil, hname⟩, subset_append_left _ _, List.Subset.refl _⟩
        · exact hbehind h
    · rw [if_neg hc] at h
      have hname' : 92 ∉ name ++ [c] := by simp [hname, Ne.symm hc]
      obtain ⟨hseg, h1, h2⟩ := ih (name ++ [c]) hname' h
      rw [append_assoc, singleton_append] at h1
      exact ⟨hseg, h1, List.Subset.trans h2 hsub⟩

theorem segments_mem {path : List WChar} {seg : List WChar × List WChar}
    (h : seg ∈ segments path) : IsName seg.1 ∧ seg.1 ⊆ path ∧ seg.2 ⊆ path :=
  segmentsFrom_mem [] not_mem_nil h

theorem isNode_none {name : List WChar} (hname : IsName name) (hwritable : Writable name) :
    IsNode name Mark.none where
  isName := hname
  writable := hwritable
  plain := ⟨by decide, fun _ => rfl, by decide⟩
  target := fun r hr => nomatch hr

section Fold

variable {towlower : WChar → WChar} {root : PathNodes}

theorem isNode_changeLast {f : Mark → Mark} {path : List WChar}
    (hroot : root.All IsNode) (hpath : Writable path)
    (hf : ∀ name mark, IsNode name mark → IsNode name (f mark)) :
    (changeLast towlower f root path).All IsNode := by
  refine hroot.update (fun name hname => ?_) (fun name mark h => ?_)
  · obtain ⟨seg, hseg, rfl⟩ := mem_map.mp hname
    obtain ⟨hisName, hsub, -⟩ := segments_mem hseg
    exact isNode_none hisName (hpath.mono hsub)
  · split
    · exact hf name mark h
    · exact h

theorem Mark.Plain.setDeleted {m : Mark} (h : m.Plain) :
    (Mark.set fileDeletedFlag 0 Option.none m).Plain ∧
      (Mark.set fileDeletedFlag 0 Option.none m).relocation = m.relocation := by
  have hno : ¬((0 : BitVec 32) &&& fileRelocationFlag ≠ 0 ∨
      fileDeletedFlag &&& fileRelocationFlag ≠ 0) := by decide
  have hrelocation : (Mark.set fileDeletedFlag 0 Option.none m).relocation = m.relocation := by
    simp only [Mark.set, if_neg hno]
  have hflags : (Mark.set fileDeletedFlag 0 Option.none m).flags = m.flags ||| fileDeletedFlag :=
    and_not_zero _
  refine ⟨⟨?_, fun hr => ?_, hrelocation ▸ h.target⟩, hrelocation⟩
  · rw [hflags, BitVec.and_or_distrib_right, h.flags]
    decide
  · rw [hrelocation]
    apply h.relocated
    rw [Mark.relocated_eq, hflags, BitVec.getLsbD_or, Bool.or_eq_false_iff] at hr
    rw [Mark.relocated_eq, hr.1]

variable {name : List WChar} {mark : Mark}

theorem isNode_setDeleted (h : IsNode name mark) :
    IsNode name (Mark.set fileDeletedFlag 0 none mark) where
  isName := h.isName
  writable := h.writable
  plain := h.plain.setDeleted.1
  target := h.plain.setDeleted.2 ▸ h.target

theorem isNode_setPathFlags {root : PathNodes} {path : List WChar} (hroot : root.All IsNode)
    (hpath : Writable path) :
    (setPathFlags towlower root path fileDeletedFlag 0 none).All IsNode :=
  isNode_changeLast hroot hpath fun _ _ h => isNode_setDeleted h

theorem isNode_release (h : IsNode name mark) :
    IsNode name mark.release := by
  unfold Mark.release
  split
  · refine ⟨h.isName, h.writable, ⟨?_, fun _ => rfl, by simp⟩, fun r hr => nomatch hr⟩
    show mark.flags &&& ~~~fileRelocationFlag &&& _ = 0
    rw [BitVec.and_assoc, BitVec.and_comm (~~~fileRelocationFlag), ← BitVec.and_assoc,
      h.plain.flags]
    exact BitVec.zero_and
  · exact h

theorem isNode_relocate {target : List WChar} (h : IsNode name mark) (htarget : IsPath target) :
    IsNode name ⟨mark.flags ||| fileRelocationFlag, some target⟩ := by
  refine ⟨h.isName, h.writable, ⟨?_, fun hr => ?_, ?_⟩, fun r hr => ?_⟩
  · show (mark.flags ||| fileRelocationFlag) &&& _ = 0
    rw [BitVec.and_or_distrib_right, h.plain.flags]
    decide
  · have hbit : fileRelocationFlag.getLsbD 1 = true := by decide
    rw [Mark.relocated_eq, BitVec.getLsbD_or, hbit, Bool.or_true] at hr
    cases hr
  · exact fun hnil => htarget.ne_nil (Option.some.inj hnil)
  · cases hr
    exact htarget.writable

theorem isNode_free (h : IsNode name mark) :
    IsNode name { mark with relocation := none } where
  isName := h.isName
  writable := h.writable
  plain := ⟨h.plain.flags, fun _ => rfl, by simp⟩
  target := fun r hr => nomatch hr

theorem IsNode.targetPath {name r : List WChar} (h : IsNode name mark)
    (hr : mark.relocation = some r) : IsPath r where
  ne_nil := fun hnil => h.plain.target (hr.trans (congrArg some hnil))
  writable := h.target r hr

theorem walk_isPath (hroot : root.All IsNode) (checkChildren : Bool)
    (segs : List (List WChar × List WChar)) (hsegs : ∀ seg ∈ segs, Writable seg.2)
    (flags : BitVec 32) {relocation : Option (List WChar)}
    (hrelocation : ∀ r ∈ relocation, IsPath r) :
    ∀ r ∈ (walk towlower checkChildren root segs flags relocation).2, IsPath r := by
  induction segs generalizing root flags relocation with
  | nil => exact hrelocation
  | cons seg more ih =>
    obtain ⟨name, next⟩ := seg
    rw [walk]
    cases hchild : root.child (List.map towlower) name with
    | none => exact hrelocation
    | some found =>
      obtain ⟨mark, items⟩ := found
      obtain ⟨⟨name', hnode⟩, hitems⟩ := hroot.child hchild
      have hlast : ∀ r ∈ lastRelocation relocation mark next, IsPath r := by
        unfold lastRelocation
        split
        · intro r hr
          obtain ⟨target, htarget, rfl⟩ := Option.map_eq_some_iff.mp hr
          have hpath := hnode.targetPath htarget
          have hnext := hsegs (name, next) mem_cons_self
          exact ⟨fun h => hpath.ne_nil (append_eq_nil_iff.mp h).1,
            hpath.writable.append hnext⟩
        · exact hrelocation
      by_cases hnext : next = []
      · simp only [if_pos hnext]
        exact hlast
      · simp only [if_neg hnext]
        exact ih hitems (fun seg hseg => hsegs seg (mem_cons_of_mem _ hseg)) _ hlast

theorem getPathFlags_isPath (hroot : root.All IsNode) {path : List WChar}
    (hpath : Writable path) (checkChildren : Bool) :
    ∀ r ∈ (getPathFlags towlower root path checkChildren).2, IsPath r := by
  refine walk_isPath hroot checkChildren _ (fun seg hseg => ?_) 0 (fun r hr => nomatch hr)
  exact hpath.mono (segments_mem hseg).2.2

theorem isNode_markDeleted {path : List WChar} (hroot : root.All IsNode)
    (hpath : Writable path) : (markDeleted towlower root path).root.All IsNode := by
  unfold markDeleted
  cases findPathBranche towlower root path with
  | none => exact isNode_setPathFlags hroot hpath
  | some found =>
    obtain ⟨mark, items⟩ := found
    show (if mark.flags = fileDeletedFlag ∧ items = .nil then _ else _ : Marked).root.All IsNode
    split
    · exact hroot
    · exact isNode_setPathFlags hroot.remove hpath

theorem all_reattach {P : List WChar → Mark → Prop} {root root' : PathNodes}
    {old new : List (List WChar)} (hroot : root.All P)
    (h : reattach towlower root old new = some root') : root'.All P := by
  unfold reattach at h
  cases hfind : root.find (List.map towlower) old with
  | none =>
    rw [hfind] at h
    cases h
    exact hroot
  | some found =>
    obtain ⟨mark, items⟩ := found
    rw [hfind] at h
    have hitems : items.All P := (hroot.find hfind).2
    by_cases hsame : old.map (List.map towlower) = new.map (List.map towlower)
    · simp only [if_pos hsame] at h
      split at h
      · cases h
        exact hroot
      · cases h
    · simp only [if_neg hsame] at h
      cases h
      have hcleared : (root.mapItems (List.map towlower) (fun _ => .nil) old).All P :=
        hroot.mapItems fun _ _ => trivial
      exact hcleared.mapItems fun u hu => Forest.All.append hitems hu

theorem relocationOf_isPath (hroot : root.All IsNode)
    (oldTruePath : List WChar) : ∀ r ∈ relocationOf towlower root oldTruePath, IsPath r := by
  intro r hr
  obtain ⟨⟨mark, items⟩, hfound, hr⟩ := Option.bind_eq_some_iff.mp hr
  rw [findPathBranche] at hfound
  split at hfound
  · obtain ⟨⟨name, hnode⟩, -⟩ := hroot.find hfound
    by_cases hrelocated : mark.relocated = true
    · simp only [if_pos hrelocated] at hr
      exact hnode.targetPath hr
    · simp only [if_neg hrelocated] at hr
      cases hr
  · cases hfound

theorem isNode_redirect {root : PathNodes} {truePath newTruePath : List WChar}
    (hroot : root.All IsNode) (htrue : IsPath truePath) (hnew : Writable newTruePath)
    (isTarget : Bool) : (redirect towlower root truePath newTruePath isTarget).All IsNode := by
  have hadded : (changeLast towlower id root newTruePath).All IsNode :=
    isNode_changeLast hroot hnew fun _ _ h => h
  refine isNode_changeLast hadded hnew fun name mark h => isNode_relocate h ?_
  split
  · exact htrue
  · cases hr : (getPathFlags towlower (changeLast towlower id root newTruePath) truePath true).2
      with
    | none => exact htrue
    | some r => exact getPathFlags_isPath hadded htrue.writable true r hr

theorem isNode_setRelocation {root root' : PathNodes} {oldTruePath newTruePath : List WChar}
    (hroot : root.All IsNode) (hold : IsPath oldTruePath) (hnew : IsPath newTruePath)
    (h : setRelocation towlower root oldTruePath newTruePath = some root') :
    root'.All IsNode := by
  unfold setRelocation at h
  split at h
  · cases h
    exact hroot
  split at h
  · have htrue : IsPath ((relocationOf towlower root oldTruePath).getD oldTruePath) := by
      cases hr : relocationOf towlower root oldTruePath with
      | none => exact hold
      | some r => exact relocationOf_isPath hroot oldTruePath r hr
    have hreleased : (releaseOld towlower root oldTruePath).All IsNode := by
      unfold releaseOld
      split
      · exact isNode_changeLast hroot hold.writable fun _ _ h => isNode_release h
      · exact hroot
    have hmarked := @isNode_setPathFlags towlower _ _ hreleased htrue.writable
    have hdirected := @isNode_redirect towlower _ _ _ hmarked htrue hnew.writable
      (relocationOf towlower root oldTruePath).isSome
    obtain ⟨moved, hmoved, rfl⟩ := Option.map_eq_some_iff.mp h
    have hmovedAll : moved.All IsNode := by
      split at hmoved
      · exact all_reattach hdirected hmoved
      · cases hmoved
        exact hdirected
    split
    · exact isNode_changeLast hmovedAll hold.writable fun _ _ h => isNode_free h
    · exact hmovedAll
  · cases h

theorem Calls.isNode {root root' : PathNodes} {calls : List Call}
    (h : Calls towlower root calls root') (hroot : root.All IsNode) : root'.All IsNode := by
  refine Run.invariant (I := fun root => Forest.All IsNode root) h hroot ?_
  intro root call root' hroot hstep hpaths
  cases call with
  | markDeleted path =>
    cases hstep
    exact isNode_markDeleted hroot hpaths.writable
  | setRelocation oldTruePath newTruePath =>
    exact isNode_setRelocation hroot hpaths.1 hpaths.2 hstep

end Fold

/-! ### The law -/

/-- A path in the tree is translated back, and translation puts no end of a part into it. -/
structure Translated (toFile toTree : TranslatePath) (path : List WChar) : Prop where
  back : toTree.use (toFile.use path) = path
  writable : Writable path → Writable (toFile.use path)

/-- The paths of a tree, of its nodes and of the relocations, are translated back. -/
def Translates (toFile toTree : TranslatePath) (root : PathNodes) : Prop :=
  ∀ e ∈ root.nodes [], Translated toFile toTree (pathText e.1) ∧
    ∀ r ∈ e.2.relocation, Translated toFile toTree r

theorem writtenMarks_subset (root : PathNodes) (path : List (List WChar)) (setFlags : BitVec 32) :
    writtenMarks root path setFlags ⊆ root.nodes path := by
  induction root generalizing path setFlags with
  | nil => exact List.Subset.refl _
  | node name mark items next ihItems ihNext =>
    intro e he
    rw [writtenMarks, mem_append, mem_append] at he
    rw [Forest.nodes, cons_append, mem_cons, mem_append]
    obtain (he | he) | he := he
    · split at he
      · exact .inl (mem_singleton.mp he)
      · cases he
    · exact .inr (.inl (ihItems _ _ he))
    · exact .inr (.inr (ihNext _ _ he))

theorem writable_pathText {path : List (List WChar)} (h : ∀ name ∈ path, Writable name) :
    Writable (pathText path) := by
  induction path with
  | nil => exact ⟨not_mem_nil, not_mem_nil, not_mem_nil⟩
  | cons name path ih =>
    have hslash : Writable [92] := ⟨by decide, by decide, by decide⟩
    have hrest := ih fun name' h' => h name' (mem_cons_of_mem name h')
    exact hslash.append ((h name mem_cons_self).append hrest)

theorem comesBack {toFile toTree : TranslatePath} {root : PathNodes} (hroot : root.All IsNode)
    (htranslates : Translates toFile toTree root) : ComesBack toFile toTree root := by
  intro e he
  have hmem := writtenMarks_subset root [] 0 he
  obtain ⟨⟨name, hnode⟩, hnames⟩ := hroot.nodes hmem
  obtain ⟨hpath, hrelocation⟩ := htranslates e hmem
  have hall : ∀ name ∈ e.1, IsName name ∧ Writable name := by
    intro name hname
    obtain h | ⟨mark, hmark⟩ := hnames name hname
    · cases h
    · exact ⟨hmark.isName, hmark.writable⟩
  refine ⟨fun name hname => (hall name hname).1, ⟨?_, ?_⟩, hpath.back, fun r hr =>
    (hrelocation r hr).back⟩
  · exact hpath.writable (writable_pathText fun name hname => (hall name hname).2)
  · intro r hr
    have h := (hrelocation r hr).writable (hnode.target r hr)
    exact ⟨h.lf, h.nul⟩

/-- **When a tree comes back from its file**, for each tree that the calls make: no two nodes of
a level have the same name, and every path is deleted or not, and relocated, as before exactly
when no deleted node is below one that is deleted and relocated; with the same flags exactly when
no deleted node is below another one. -/
theorem save_load_iff {towlower : WChar → WChar} {calls : List Call} {root : PathNodes}
    (hcalls : Calls towlower .nil calls root) (hapart : root.Apart (List.map towlower))
    {toFile toTree : TranslatePath} (htranslates : Translates toFile toTree root) :
    (SameDeletions towlower root (loadPathTree towlower toTree (savePathTree toFile root)) ↔
      lost root = false) ∧
    (SameAnswers towlower root (loadPathTree towlower toTree (savePathTree toFile root)) ↔
      leftOut root = false) := by
  have hroot : root.All IsNode := hcalls.isNode trivial
  have hall : root.All fun name m => IsName name ∧ m.Plain :=
    hroot.mono fun _ _ h => ⟨h.isName, h.plain⟩
  have hback := comesBack hroot htranslates
  exact ⟨sameDeletions_iff hapart hall hback, sameAnswers_iff hapart hall hback⟩

/-- No `TranslatePath`, as for the registry. -/
def noTranslation : TranslatePath := fun _ => none

theorem translates_noTranslation (root : PathNodes) :
    Translates noTranslation noTranslation root :=
  fun _ _ => ⟨⟨rfl, id⟩, fun _ _ => ⟨rfl, id⟩⟩

/-- `\n\c` is deleted, and `\o` renamed to `\n`. -/
def keptCalls : List Call :=
  [.markDeleted (wide ['\\', 'n', '\\', 'c']), .setRelocation (wide ['\\', 'o']) (wide ['\\', 'n'])]

def keptTree : PathNodes :=
  .node (wide ['n']) ⟨2, some (wide ['\\', 'o'])⟩ (.node (wide ['c']) ⟨1, none⟩ .nil .nil)
    (.node (wide ['o']) ⟨1, none⟩ .nil .nil)

theorem calls_kept : Calls asciiLower .nil keptCalls keptTree := by
  have hfirst : Call.run asciiLower .nil (.markDeleted (wide ['\\', 'n', '\\', 'c'])) =
      some (.node (wide ['n']) ⟨0, none⟩ (.node (wide ['c']) ⟨1, none⟩ .nil .nil) .nil) := by
    decide
  exact .cons hfirst ⟨by decide, ⟨by decide, by decide, by decide⟩⟩
    (.cons (by decide) ⟨⟨by decide, ⟨by decide, by decide, by decide⟩⟩,
      ⟨by decide, ⟨by decide, by decide, by decide⟩⟩⟩ (.nil _))

theorem save_load_kept :
    SameDeletions asciiLower keptTree
        (loadPathTree asciiLower noTranslation (savePathTree noTranslation keptTree)) ∧
      SameAnswers asciiLower keptTree
        (loadPathTree asciiLower noTranslation (savePathTree noTranslation keptTree)) := by
  have hapart : keptTree.Apart (List.map asciiLower) :=
    ⟨by decide, ⟨by decide, trivial, trivial⟩, by decide, trivial, trivial⟩
  have hiff := save_load_iff calls_kept hapart (translates_noTranslation keptTree)
  exact ⟨hiff.1.mpr (by decide), hiff.2.mpr (by decide)⟩

/-- `\n` is deleted, `\o` renamed to it, and `\n\c` deleted there. -/
def renamedCalls : List Call :=
  [.markDeleted (wide ['\\', 'n']), .setRelocation (wide ['\\', 'o']) (wide ['\\', 'n']),
    .markDeleted (wide ['\\', 'n', '\\', 'c'])]

def renamedTree : PathNodes :=
  .node (wide ['n']) ⟨3, some (wide ['\\', 'o'])⟩ (.node (wide ['c']) ⟨1, none⟩ .nil .nil)
    (.node (wide ['o']) ⟨1, none⟩ .nil .nil)

theorem calls_renamed : Calls asciiLower .nil renamedCalls renamedTree := by
  have hfirst : Call.run asciiLower .nil (.markDeleted (wide ['\\', 'n'])) =
      some (.node (wide ['n']) ⟨1, none⟩ .nil .nil) := by
    decide
  have hsecond : Call.run asciiLower (.node (wide ['n']) ⟨1, none⟩ .nil .nil)
      (.setRelocation (wide ['\\', 'o']) (wide ['\\', 'n'])) =
      some (.node (wide ['n']) ⟨3, some (wide ['\\', 'o'])⟩ .nil
        (.node (wide ['o']) ⟨1, none⟩ .nil .nil)) := by
    decide
  exact .cons hfirst ⟨by decide, ⟨by decide, by decide, by decide⟩⟩
    (.cons hsecond ⟨⟨by decide, ⟨by decide, by decide, by decide⟩⟩,
      ⟨by decide, ⟨by decide, by decide, by decide⟩⟩⟩
    (.cons (by decide) ⟨by decide, ⟨by decide, by decide, by decide⟩⟩ (.nil _)))

/-- `\n\c` is not deleted any more when the tree is loaded. -/
theorem save_load_lost :
    ¬∀ calls root, Calls asciiLower .nil calls root →
      SameDeletions asciiLower root
        (loadPathTree asciiLower noTranslation (savePathTree noTranslation root)) := by
  intro h
  have hsame := (h renamedCalls renamedTree calls_renamed (wide ['\\', 'n', '\\', 'c'])).1
  revert hsame
  decide

end Sandboxie.PathTree
