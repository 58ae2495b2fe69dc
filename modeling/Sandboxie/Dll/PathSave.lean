import Mathlib.Data.List.Nodup
import Sandboxie.Dll.PathFile

/-!
# A tree that is saved and loaded

What `File_LoadPathTree_internal` makes of a text of `File_SavePathTree_internal`.  The lines of
the text are the marks that are written, in the order of the tree (`writtenMarks`); the tree that
comes from them says at each path what was written of the first node there (`savedMark`).

`lost` and `leftOut` are the nodes whose deletion does not come back.
-/

namespace Sandboxie.PathTree

open Text List

/-! ### Paths of nodes -/

def pathText (path : List (List WChar)) : List WChar := path.flatMap fun name => 92 :: name

@[simp]
theorem pathText_nil : pathText [] = [] := rfl

@[simp]
theorem pathText_cons (name : List WChar) (path : List (List WChar)) :
    pathText (name :: path) = 92 :: (name ++ pathText path) := rfl

theorem pathText_append (path path' : List (List WChar)) :
    pathText (path ++ path') = pathText path ++ pathText path' := flatMap_append

structure IsName (name : List WChar) : Prop where
  ne_nil : name ≠ []
  noBackslash : 92 ∉ name

theorem segmentsFrom_append {name : List WChar} (hname : 92 ∉ name) (begun rest : List WChar) :
    segmentsFrom begun (name ++ rest) = segmentsFrom (begun ++ name) rest := by
  induction name generalizing begun with
  | nil => simp
  | cons c name ih =>
    have hc : c ≠ 92 := fun h => hname (h ▸ mem_cons_self)
    rw [cons_append, segmentsFrom, if_neg hc,
      ih fun h => hname (mem_cons_of_mem c h), append_assoc, singleton_append]

theorem segmentsFrom_nil {begun : List WChar} (h : begun ≠ []) :
    segmentsFrom begun [] = [(begun, [])] := by
  cases begun with
  | nil => exact absurd rfl h
  | cons c begun => rfl

theorem segments_pathText_cons {name : List WChar} (hname : IsName name)
    (path : List (List WChar)) :
    segments (pathText (name :: path)) = (name, pathText path) :: segments (pathText path) := by
  have hfirst : segments (pathText (name :: path)) = segmentsFrom name (pathText path) := by
    have h := segmentsFrom_append hname.noBackslash [] (pathText path)
    rw [nil_append] at h
    rw [← h, pathText_cons, segments, segmentsFrom, if_pos rfl, if_pos rfl]
  rw [hfirst]
  cases path with
  | nil => exact segmentsFrom_nil hname.ne_nil
  | cons next path =>
    rw [pathText_cons, segmentsFrom, if_pos rfl, if_neg hname.ne_nil, segments, segmentsFrom,
      if_pos rfl, if_pos rfl]

theorem names_pathText {path : List (List WChar)} (h : ∀ name ∈ path, IsName name) :
    names (pathText path) = path := by
  induction path with
  | nil => rfl
  | cons name path ih =>
    have htail : names (pathText path) = path :=
      ih fun name' h' => h name' (mem_cons_of_mem name h')
    rw [names, segments_pathText_cons (h name mem_cons_self), map_cons]
    exact congrArg (name :: ·) htail

theorem hasLast_pathText {path : List (List WChar)} (h : ∀ name ∈ path, IsName name)
    (hne : path ≠ []) : hasLast (pathText path) = true := by
  have hlast : ∀ path : List (List WChar), (∀ name ∈ path, IsName name) → path ≠ [] →
      ∃ name, (segments (pathText path)).getLast? = some (name, []) := by
    intro path
    induction path with
    | nil => exact fun _ hne => absurd rfl hne
    | cons name path ih =>
      intro h _
      rw [segments_pathText_cons (h name mem_cons_self)]
      cases path with
      | nil => exact ⟨name, rfl⟩
      | cons next path =>
        obtain ⟨last, hsome⟩ := ih (fun name' h' => h name' (mem_cons_of_mem name h'))
          (cons_ne_nil next path)
        refine ⟨last, ?_⟩
        rw [getLast?_cons, hsome]
        rfl
  obtain ⟨name, hsome⟩ := hlast path h hne
  rw [hasLast, hsome]

/-- The line of a mark can be read back, and the paths in it translated back. -/
structure Mark.ComesBack (toFile toTree : TranslatePath) (path : List WChar) (mark : Mark) :
    Prop where
  writable : mark.Writable toFile path
  path : toTree.use (toFile.use path) = path
  relocation : ∀ r ∈ mark.relocation, toTree.use (toFile.use r) = r

theorem Mark.ComesBack.relocation_eq {toFile toTree : TranslatePath} {path : List WChar}
    {mark : Mark} (h : mark.ComesBack toFile toTree path) :
    (mark.relocation.map toFile.use).map toTree.use = mark.relocation := by
  cases hr : mark.relocation with
  | none => rfl
  | some r => exact congrArg some (h.relocation r hr)

/-! ### The marks that are written -/

/-- The marks for which a line is written, each with the path of its node. -/
def writtenMarks : PathNodes → List (List WChar) → BitVec 32 → List (List (List WChar) × Mark)
  | .nil, _, _ => []
  | .node name mark items next, path, setFlags =>
    (if isWritten (inherited setFlags mark) mark then [(path ++ [name], mark)] else []) ++
      writtenMarks items (path ++ [name]) (inherited setFlags mark ||| mark.flags) ++
      writtenMarks next path (inherited setFlags mark)

theorem savePathNode_eq (translatePath : TranslatePath) (root : PathNodes)
    (path : List (List WChar)) (setFlags : BitVec 32) :
    savePathNode translatePath root (pathText path) setFlags =
      (writtenMarks root path setFlags).flatMap fun e =>
        appendPathEntry translatePath (pathText e.1) e.2 := by
  induction root generalizing path setFlags with
  | nil => rfl
  | node name mark items next ihItems ihNext =>
    have hpath : pathText path ++ 92 :: name = pathText (path ++ [name]) := by
      simp [pathText_append]
    rw [savePathNode, writtenMarks, flatMap_append, flatMap_append]
    show (if isWritten (inherited setFlags mark) mark then _ else _) ++ _ ++ _ = _
    rw [hpath, ihItems, ihNext]
    split
    · simp
    · simp

theorem writtenMarks_path {root : PathNodes} {path : List (List WChar)} {setFlags : BitVec 32}
    {e : List (List WChar) × Mark} (he : e ∈ writtenMarks root path setFlags) :
    ∃ name more, name ∈ root.keys ∧ e.1 = path ++ name :: more := by
  induction root generalizing path setFlags with
  | nil => cases he
  | node name mark items next ihItems ihNext =>
    rw [writtenMarks, mem_append, mem_append] at he
    obtain (he | he) | he := he
    · split at he
      · rw [mem_singleton.mp he]
        exact ⟨name, [], mem_cons_self, rfl⟩
      · cases he
    · obtain ⟨child, more, -, hpath⟩ := ihItems he
      refine ⟨name, child :: more, mem_cons_self, ?_⟩
      rw [hpath, append_assoc, singleton_append]
    · obtain ⟨child, more, hchild, hpath⟩ := ihNext he
      exact ⟨child, more, mem_cons_of_mem name hchild, hpath⟩

section Fold

variable (towlower : WChar → WChar)

/-- What is written of the first node at a path. -/
def savedMark : PathNodes → List (List WChar) → BitVec 32 → Option Mark
  | _, [], _ => none
  | .nil, _ :: _, _ => none
  | .node name mark items next, x :: xs, setFlags =>
    if name.map towlower = x.map towlower then
      if xs = [] then (if isWritten (inherited setFlags mark) mark then some mark else none)
      else savedMark items xs (inherited setFlags mark ||| mark.flags)
    else savedMark next (x :: xs) (inherited setFlags mark)

variable {towlower}

theorem filter_writtenMarks_eq_nil (root : PathNodes) {path path' : List (List WChar)}
    (setFlags : BitVec 32)
    (h : ∀ x ∈ path'.head?, ∀ k ∈ root.keys, k.map towlower ≠ x.map towlower) :
    (writtenMarks root path setFlags).filter (fun e =>
      e.1.map (List.map towlower) = (path ++ path').map (List.map towlower)) = [] := by
  rw [filter_eq_nil_iff]
  intro e he heq
  obtain ⟨name, more, hname, hpath⟩ := writtenMarks_path he
  rw [decide_eq_true_iff, hpath, map_append, map_append,
    append_cancel_left_eq] at heq
  cases path' with
  | nil => simp at heq
  | cons x xs => exact h x rfl name hname (List.cons.inj heq).1

/-- Of the marks that are written only that of the first node is for its path. -/
theorem filter_writtenMarks {root : PathNodes} (h : root.Apart (List.map towlower))
    (path path' : List (List WChar)) (setFlags : BitVec 32) :
    ((writtenMarks root path setFlags).filter fun e =>
        e.1.map (List.map towlower) = (path ++ path').map (List.map towlower)).map Prod.snd =
      (savedMark towlower root path' setFlags).toList := by
  induction root generalizing path path' setFlags with
  | nil => cases path' <;> rfl
  | node name mark items next ihItems ihNext =>
    obtain ⟨hnames, hitems, hnext⟩ := h
    cases path' with
    | nil =>
      rw [filter_writtenMarks_eq_nil _ _ (by simp)]
      rfl
    | cons x xs =>
      rw [writtenMarks, filter_append, filter_append, map_append, map_append,
        savedMark]
      have hown : (path ++ [name]).map (List.map towlower) =
          (path ++ x :: xs).map (List.map towlower) ↔
            name.map towlower = x.map towlower ∧ xs = [] := by
        simp [map_append, eq_comm]
      by_cases hx : name.map towlower = x.map towlower
      · have hrest : (writtenMarks next path (inherited setFlags mark)).filter (fun e =>
            e.1.map (List.map towlower) = (path ++ x :: xs).map (List.map towlower)) = [] := by
          apply filter_writtenMarks_eq_nil
          intro y hy k hk
          cases hy
          exact fun hkx => hnames k hk (hkx.trans hx.symm)
        have hsame : (path ++ x :: xs).map (List.map towlower) =
            (path ++ [name] ++ xs).map (List.map towlower) := by
          simp [hx]
        rw [if_pos hx, hrest, map_nil, append_nil]
        by_cases hxs : xs = []
        · subst hxs
          have hitems : (writtenMarks items (path ++ [name])
              (inherited setFlags mark ||| mark.flags)).filter (fun e =>
                e.1.map (List.map towlower) = (path ++ [x]).map (List.map towlower)) = [] := by
            rw [hsame]
            exact filter_writtenMarks_eq_nil _ _ (by simp)
          rw [hitems, if_pos rfl, map_nil, append_nil]
          split
          · simp [hx]
          · rfl
        · have hno : (if isWritten (inherited setFlags mark) mark then [(path ++ [name], mark)]
              else []).filter (fun e => e.1.map (List.map towlower) =
                (path ++ x :: xs).map (List.map towlower)) = [] := by
            rw [filter_eq_nil_iff]
            intro e he heq
            split at he
            · rw [mem_singleton.mp he, decide_eq_true_iff] at heq
              exact hxs (hown.mp heq).2
            · cases he
          rw [hno, if_neg hxs, map_nil, nil_append, hsame]
          exact ihItems hitems (path ++ [name]) xs _
      · have hno : ((if isWritten (inherited setFlags mark) mark then [(path ++ [name], mark)]
            else []) ++ writtenMarks items (path ++ [name])
              (inherited setFlags mark ||| mark.flags)).filter (fun e =>
                e.1.map (List.map towlower) = (path ++ x :: xs).map (List.map towlower)) = [] := by
          rw [filter_eq_nil_iff]
          intro e he heq
          rw [decide_eq_true_iff] at heq
          obtain he | he := mem_append.mp he
          · split at he
            · rw [mem_singleton.mp he] at heq
              exact hx (hown.mp heq).1
            · cases he
          · obtain ⟨child, more, -, hpath⟩ := writtenMarks_path he
            rw [hpath, append_assoc] at heq
            simp only [map_append, append_cancel_left_eq] at heq
            exact hx (List.cons.inj heq).1
        rw [if_neg hx, ← map_append, ← filter_append, hno, map_nil,
          nil_append]
        exact ihNext hnext path (x :: xs) _

/-! ### The tree that is loaded -/

def Mark.loaded (mark : Mark) : Mark := Mark.none.set mark.flags 0 mark.relocation

/-- What the loaded tree says at a path. -/
def loadedMark (towlower : WChar → WChar) (root : PathNodes) (path : List (List WChar))
    (setFlags : BitVec 32) : Mark :=
  ((savedMark towlower root path setFlags).map Mark.loaded).getD Mark.none

def ComesBack (toFile toTree : TranslatePath) (root : PathNodes) : Prop :=
  ∀ e ∈ writtenMarks root [] 0,
    (∀ name ∈ e.1, IsName name) ∧ e.2.ComesBack toFile toTree (pathText e.1)

theorem loadEntry_eq {toFile toTree : TranslatePath} {path : List (List WChar)} {mark : Mark}
    (hpath : ∀ name ∈ path, IsName name) (hne : path ≠ [])
    (h : mark.ComesBack toFile toTree (pathText path)) (root : PathNodes) :
    loadEntry towlower toTree root (toFile.use (pathText path),
        ⟨mark.flags, mark.relocation.map toFile.use⟩) =
      root.update (List.map towlower) Mark.none (Mark.set mark.flags 0 mark.relocation) path := by
  show setPathFlags towlower root (toTree.use (toFile.use (pathText path))) mark.flags 0
    ((mark.relocation.map toFile.use).map toTree.use) = _
  rw [h.path, h.relocation_eq, setPathFlags, changeLast, hasLast_pathText hpath hne, if_pos rfl,
    names_pathText hpath]

theorem label_loadPathTree {toFile toTree : TranslatePath} {root : PathNodes}
    (h : root.Apart (List.map towlower)) (hback : ComesBack toFile toTree root)
    (path : List (List WChar)) :
    (loadPathTree towlower toTree (savePathTree toFile root)).label (List.map towlower) Mark.none
      path = loadedMark towlower root path 0 := by
  have htext : savePathTree toFile root =
      ((writtenMarks root [] 0).map fun e => (pathText e.1, e.2)).flatMap fun e =>
        appendPathEntry toFile e.1 e.2 := by
    rw [savePathTree, ← pathText_nil, savePathNode_eq, flatMap_map]
  have hne : ∀ e ∈ writtenMarks root [] 0, e.1 ≠ [] := by
    intro e he
    obtain ⟨name, more, -, hpath⟩ := writtenMarks_path he
    rw [hpath]
    exact cons_ne_nil name more
  have hload : loadPathTree towlower toTree (savePathTree toFile root) =
      (writtenMarks root [] 0).foldl (fun t e => t.update (List.map towlower) Mark.none
        (Mark.set e.2.flags 0 e.2.relocation) e.1) .nil := by
    rw [loadPathTree, htext, readEntries_written, map_map, foldl_map]
    · apply foldl_ext
      intro t e he
      exact loadEntry_eq (hback e he).1 (hne e he) (hback e he).2 t
    · intro e he
      obtain ⟨e', he', rfl⟩ := mem_map.mp he
      exact (hback e' he').2.writable
  have hfilter := filter_writtenMarks h [] path 0
  rw [hload, Forest.label_foldl_update _ _ _ hne, Forest.label_nil]
  rw [nil_append] at hfilter
  have hfold : ∀ es : List (List (List WChar) × Mark),
      es.foldl (fun a e => Mark.set e.2.flags 0 e.2.relocation a) Mark.none =
        (es.map Prod.snd).foldl (fun a m => Mark.set m.flags 0 m.relocation a) Mark.none := by
    intro es
    rw [foldl_map]
  rw [hfold, hfilter, loadedMark]
  cases savedMark towlower root path 0 <;> rfl

end Fold

end Sandboxie.PathTree
