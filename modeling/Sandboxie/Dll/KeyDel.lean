import Sandboxie.Dll.PathMarks

/-!
# Deleted registry keys and values

`key_del.c` keeps deleted keys and values in one tree: the value `v` of a key is the path of the
key with `\$v` behind it.  `Key_MarkDeletedEx_v2` writes the file as `File_MarkDeleted_v2` does,
without translation of the paths.

A key may have a name that begins with `$`, and a value name may have backslashes in it, so the
two kinds get mixed up.  `key_marks` is when they do not.
-/

namespace Sandboxie.PathTree

open Text List

/-! ### Keys and values -/

/-- A registry key, by the names on its path: they are not empty, and no backslash or zero is
in them. -/
structure Key where
  names : List (List WChar)
  ne_nil : names ≠ []
  isName : ∀ name ∈ names, IsName name
  nul : ∀ name ∈ names, 0 ∉ name

def Key.truePath (key : Key) : List WChar := pathText key.names

/-- A call of `Key_MarkDeletedEx_v2`, with the date that the file gets by it. -/
structure KeyMark where
  key : Key
  valueName : Option (List WChar)
  nul : ∀ v ∈ valueName, 0 ∉ v
  date : Nat

/-- What `Key_IsDeletedEx_v2` can be asked for: a key, a subkey of a key by its name, or a
value. -/
inductive Asked
  | key (key : Key)
  | subkey (key : Key) (name : List WChar) (isName : IsName name)
  | value (key : Key) (valueName : List WChar)

/-- The path of `Key_MarkDeletedEx_v2` -/
def markPath (truePath : List WChar) (valueName : Option (List WChar)) : List WChar :=
  match valueName with
  | none => truePath
  | some valueName => truePath ++ [92, 36] ++ valueName

/-- The path of `Key_IsDeletedEx_v2` -/
def askPath (truePath : List WChar) (valueName : Option (List WChar)) (isValue : Bool) :
    List WChar :=
  match valueName with
  | none => truePath
  | some valueName => truePath ++ (if isValue then [92, 36] else [92]) ++ valueName

section Fold

variable (towlower : WChar → WChar)

/-- `Key_MarkDeletedEx_v2`, when the file can be opened. -/
def keyMarkDeletedEx (file : Option DataFile) (process : Process) (truePath : List WChar)
    (valueName : Option (List WChar)) (date : Nat) : Option DataFile × Process :=
  markDeletedV2 towlower noTranslation file process (markPath truePath valueName) true date

/-- `Key_IsDeletedEx_v2`, on a tree. -/
def keyIsDeletedEx (root : PathNodes) (truePath : List WChar) (valueName : Option (List WChar))
    (isValue : Bool) : BitVec 32 :=
  deletedStatus towlower root (askPath truePath valueName isValue)

/-- The answer for what is asked. -/
def Asked.deleted (root : PathNodes) : Asked → Prop
  | .key k => keyIsDeletedEx towlower root k.truePath none false ≠ 0
  | .subkey k name _ => keyIsDeletedEx towlower root k.truePath (some name) false ≠ 0
  | .value k valueName => keyIsDeletedEx towlower root k.truePath (some valueName) true ≠ 0

/-- The marks one after the other, in a process that has started with an empty file. -/
def keyMarks (date : Nat) (marks : List KeyMark) : Option DataFile × Process :=
  marks.foldl
    (fun state m => keyMarkDeletedEx towlower state.1 state.2 m.key.truePath m.valueName m.date)
    (some ⟨[], date⟩, ⟨.nil, ⟨0, date⟩, .idle⟩)

def KeyMarked (marks : List KeyMark) (path : List (List WChar)) : Prop :=
  ∃ m ∈ marks, m.valueName = none ∧ IsUnder towlower m.key.names path

/-- What was marked: the value of the key, or the key or one above it. -/
def Asked.Marked (marks : List KeyMark) : Asked → Prop
  | .key k => KeyMarked towlower marks k.names
  | .subkey k name _ => KeyMarked towlower marks (k.names ++ [name])
  | .value k valueName => KeyMarked towlower marks k.names ∨
    ∃ m ∈ marks, ∃ v, m.valueName = some v ∧ v.map towlower = valueName.map towlower ∧
      m.key.names.map (List.map towlower) = k.names.map (List.map towlower)

/-- The key runs through a key whose name is that of a marked value, with a `$`. -/
def ThroughValue (m : KeyMark) (path : List (List WChar)) : Prop :=
  ∃ v, m.valueName = some v ∧ IsUnder towlower (m.key.names ++ [36 :: v]) path

/-- A mark that is mixed up with what is asked: the name of a key is the name of a value of the
key above it, with a `$`. -/
def Clash (m : KeyMark) : Asked → Prop
  | .key k => ThroughValue towlower m k.names
  | .subkey k name _ => ThroughValue towlower m (k.names ++ [name])
  | .value k valueName => ThroughValue towlower m k.names ∨
    m.valueName = none ∧ m.key.names.map (List.map towlower) =
      (k.names ++ [36 :: valueName]).map (List.map towlower)

def KeyMark.Plain (m : KeyMark) : Prop := ∀ v ∈ m.valueName, 92 ∉ v

def Asked.Plain : Asked → Prop
  | .value _ valueName => 92 ∉ valueName
  | _ => True

/-- Neither a bar nor a line feed is in a name. -/
structure KeyMark.Fits (m : KeyMark) : Prop where
  key : ∀ name ∈ m.key.names, 124 ∉ name ∧ 10 ∉ name
  value : ∀ v ∈ m.valueName, 124 ∉ v ∧ 10 ∉ v

variable {towlower}

/-! ### Paths -/

def KeyMark.names (m : KeyMark) : List (List WChar) :=
  match m.valueName with
  | none => m.key.names
  | some v => m.key.names ++ [36 :: v]

theorem KeyMark.names_ne_nil (m : KeyMark) : m.names ≠ [] := by
  unfold KeyMark.names
  split
  · exact m.key.ne_nil
  · simp

theorem isName_value {v : List WChar} (h : 92 ∉ v) : IsName (36 :: v) := by
  refine ⟨cons_ne_nil _ _, fun hmem => ?_⟩
  rcases mem_cons.mp hmem with h36 | hmem
  · exact absurd h36 (by decide)
  · exact h hmem

theorem KeyMark.Plain.isName {m : KeyMark} (h : m.Plain) : ∀ name ∈ m.names, IsName name := by
  unfold KeyMark.names
  cases hv : m.valueName with
  | none => exact m.key.isName
  | some v =>
    intro name hname
    rcases mem_append.mp hname with hname | hname
    · exact m.key.isName name hname
    · obtain rfl := mem_singleton.mp hname
      exact isName_value (h v (by rw [hv]; rfl))

theorem markPath_eq (m : KeyMark) : markPath m.key.truePath m.valueName = pathText m.names := by
  unfold KeyMark.names markPath
  cases m.valueName with
  | none => rfl
  | some v =>
    rw [pathText_append, Key.truePath]
    simp

theorem KeyMark.Plain.path {m : KeyMark} (h : m.Plain) :
    hasLast (markPath m.key.truePath m.valueName) = true ∧
      PathTree.names (markPath m.key.truePath m.valueName) = m.names := by
  rw [markPath_eq]
  exact ⟨hasLast_pathText h.isName m.names_ne_nil, names_pathText h.isName⟩

theorem KeyMark.Fits.writable {m : KeyMark} (h : m.Fits) :
    Writable (markPath m.key.truePath m.valueName) := by
  rw [markPath_eq]
  refine writable_pathText fun name hname => ?_
  have hkey : ∀ name ∈ m.key.names, Writable name := fun name hname =>
    ⟨(h.key name hname).1, (h.key name hname).2, m.key.nul name hname⟩
  unfold KeyMark.names at hname
  split at hname
  · exact hkey name hname
  rename_i v hv
  rcases mem_append.mp hname with hname | hname
  · exact hkey name hname
  · obtain rfl := mem_singleton.mp hname
    have hvalue := h.value v (by rw [hv]; rfl)
    have hnul := m.nul v (by rw [hv]; rfl)
    refine ⟨?_, ?_, ?_⟩ <;> rw [mem_cons, not_or]
    · exact ⟨by decide, hvalue.1⟩
    · exact ⟨by decide, hvalue.2⟩
    · exact ⟨by decide, hnul⟩

/-! ### Runs of marks -/

theorem keyMarks_concat (date : Nat) (marks : List KeyMark) (m : KeyMark) :
    keyMarks towlower date (marks ++ [m]) =
      keyMarkDeletedEx towlower (keyMarks towlower date marks).1
        (keyMarks towlower date marks).2 m.key.truePath m.valueName m.date := by
  rw [keyMarks, foldl_append]
  rfl

theorem pathRoot_markDeletedV2 (file : Option DataFile) (process : Process)
    (path : List WChar) (date : Nat) :
    (markDeletedV2 towlower noTranslation file process path true date).2.pathRoot =
      (markDeleted towlower process.pathRoot path).root := by
  unfold markDeletedV2
  dsimp only
  split
  · split
    · cases file <;> rfl
    · rfl
  · rfl

theorem markedBy_keyMarks (date : Nat) {marks : List KeyMark} (h : ∀ m ∈ marks, m.Plain) :
    MarkedBy towlower (keyMarks towlower date marks).2.pathRoot
      (marks.map fun m => markPath m.key.truePath m.valueName) := by
  induction marks using List.reverseRecOn with
  | nil => exact markedBy_nil
  | append_singleton marks m ih =>
    have ih := ih fun m' hm' => h m' (mem_append_left _ hm')
    have hm := h m (mem_append_right _ mem_cons_self)
    rw [keyMarks_concat, keyMarkDeletedEx, pathRoot_markDeletedV2, map_append]
    exact ih.markDeleted hm.path.1

theorem nodesReady_keyMarks (date : Nat) {marks : List KeyMark} (h : ∀ m ∈ marks, m.Fits) :
    NodesReady (keyMarks towlower date marks).2.pathRoot := by
  induction marks using List.reverseRecOn with
  | nil => exact trivial
  | append_singleton marks m ih =>
    have ih := ih fun m' hm' => h m' (mem_append_left _ hm')
    have hm := h m (mem_append_right _ mem_cons_self)
    rw [keyMarks_concat, keyMarkDeletedEx, pathRoot_markDeletedV2]
    exact nodesReady_markDeleted ih hm.writable

theorem markedBy_saved {root : PathNodes} {paths : List (List WChar)}
    (h : MarkedBy towlower root paths) (hready : NodesReady root) :
    MarkedBy towlower (loadPathTree towlower noTranslation (savePathTree noTranslation root))
      paths := by
  have hsavable := savable hready h.apart
  have hsame := (sameDeletions_iff hsavable.apart hsavable.nodes hsavable.comesBack).mpr
    hsavable.lost
  refine ⟨apart_loadPathTree _, fun ys => ?_, fun path => ?_⟩
  · rw [label_loaded h.apart hsavable.comesBack]
    have hrelocated := @loadedMark_rel towlower (fun m m' => m.relocated = m'.relocated) rfl
      (fun setFlags m _ => keptMark_relocated setFlags m)
      root (hsavable.nodes.mono fun _ _ hm => hm.2) ys 0
    exact hrelocated.trans (h.relocated ys)
  · rw [(hsame path).1, h.deleted]

theorem markedBy_file {file : Option DataFile} {process : Process} {paths : List (List WChar)}
    {path : List WChar} (date : Nat) (hfile : FileReady file)
    (hmarks : MarkedBy towlower (fileTree towlower noTranslation file) paths)
    (hroot : MarkedBy towlower process.pathRoot paths) (hready : NodesReady process.pathRoot)
    (hlast : hasLast path = true) (hwritable : Writable path) :
    ∀ result, markDeletedV2 towlower noTranslation file process path true date = result →
      FileReady result.1 ∧
        MarkedBy towlower (fileTree towlower noTranslation result.1) (paths ++ [path]) := by
  intro result hresult
  have hmarked := hroot.markDeleted hlast
  unfold markDeletedV2 at hresult
  dsimp only at hresult
  split at hresult
  · split at hresult
    · rename_i happends
      cases file with
      | none => simp [appends, getAttributes] at happends
      | some f =>
        have hpath : Appendable noTranslation noTranslation path := ⟨hwritable, rfl⟩
        have hentry : Mark.Writable noTranslation path ⟨fileDeletedFlag, none⟩ :=
          ⟨hwritable, fun r hr => by cases hr⟩
        subst hresult
        refine ⟨fun f' hf' => ?_, ?_⟩
        · cases hf'
          exact wholeLines_append (hfile f rfl) (wholeLines_entry hentry)
        · show MarkedBy towlower (loadPathTree towlower noTranslation
            (f.text ++ appendPathEntry noTranslation path ⟨fileDeletedFlag, none⟩)) _
          rw [loadPathTree_append (hfile f rfl) hpath]
          exact hmarks.setDeleted hlast
    · subst hresult
      have hreadyMarked := @nodesReady_markDeleted towlower _ _ hready hwritable
      refine ⟨fun f' hf' => ?_, ?_⟩
      · cases hf'
        exact wholeLines_savePathTree (savable hreadyMarked hmarked.apart).comesBack
      · exact markedBy_saved hmarked hreadyMarked
  · rename_i hset
    subst hresult
    refine ⟨hfile, hmarks.apart, hmarks.relocated, fun path' => ?_⟩
    -- the path was deleted before
    rw [hmarks.deleted, ← hroot.deleted, ← hmarked.deleted,
      markDeleted_not_set (Bool.not_eq_true _ ▸ hset)]

theorem file_keyMarks (date : Nat) {marks : List KeyMark} (h : ∀ m ∈ marks, m.Plain)
    (hfits : ∀ m ∈ marks, m.Fits) :
    FileReady (keyMarks towlower date marks).1 ∧
      MarkedBy towlower (fileTree towlower noTranslation (keyMarks towlower date marks).1)
        (marks.map fun m => markPath m.key.truePath m.valueName) := by
  induction marks using List.reverseRecOn with
  | nil =>
    refine ⟨fun f hf => ?_, ?_⟩
    · cases hf
      exact ⟨not_mem_nil, .inl rfl⟩
    · exact markedBy_nil
  | append_singleton marks m ih =>
    have hleft : ∀ m' ∈ marks, m'.Plain := fun m' hm' => h m' (mem_append_left _ hm')
    have hleftFits : ∀ m' ∈ marks, m'.Fits := fun m' hm' => hfits m' (mem_append_left _ hm')
    have hm : m ∈ marks ++ [m] := mem_append_right _ mem_cons_self
    obtain ⟨hfile, hmarks⟩ := ih hleft hleftFits
    rw [keyMarks_concat, map_append]
    exact markedBy_file m.date hfile hmarks (markedBy_keyMarks date hleft)
      (nodesReady_keyMarks date hleftFits) (h m hm).path.1 (hfits m hm).writable _ rfl

/-! ### The law -/

def Asked.path : Asked → List WChar
  | .key k => askPath k.truePath none false
  | .subkey k name _ => askPath k.truePath (some name) false
  | .value k valueName => askPath k.truePath (some valueName) true

def Asked.names : Asked → List (List WChar)
  | .key k => k.names
  | .subkey k name _ => k.names ++ [name]
  | .value k valueName => k.names ++ [36 :: valueName]

theorem Asked.deleted_iff (root : PathNodes) (asked : Asked) :
    asked.deleted towlower root ↔ deletedStatus towlower root asked.path ≠ 0 := by
  cases asked <;> exact Iff.rfl

theorem Asked.Plain.names_path {asked : Asked} (h : asked.Plain) :
    PathTree.names asked.path = asked.names := by
  have hnames : ∀ (k : Key) (name : List WChar), IsName name →
      PathTree.names (pathText (k.names ++ [name])) = k.names ++ [name] := by
    intro k name hname
    refine names_pathText fun x hx => ?_
    rcases mem_append.mp hx with hx | hx
    · exact k.isName x hx
    · obtain rfl := mem_singleton.mp hx
      exact hname
  cases asked with
  | key k => exact names_pathText k.isName
  | subkey k name hname =>
    have htext : Asked.path (.subkey k name hname) = pathText (k.names ++ [name]) := by
      rw [pathText_append]
      simp [Asked.path, askPath, Key.truePath]
    rw [htext]
    exact hnames k name hname
  | value k valueName =>
    have htext : Asked.path (.value k valueName) = pathText (k.names ++ [36 :: valueName]) := by
      rw [pathText_append]
      simp [Asked.path, askPath, Key.truePath]
    rw [htext]
    exact hnames k _ (isName_value h)

theorem under_iff_marked {marks : List KeyMark} {asked : Asked}
    (hclash : ∀ m ∈ marks, ¬Clash towlower m asked) :
    (∃ m ∈ marks, IsUnder towlower m.names asked.names) ↔ asked.Marked towlower marks := by
  -- a mark above a key is that of a key
  have hkey : ∀ path : List (List WChar), (∀ m ∈ marks, ¬ThroughValue towlower m path) →
      ((∃ m ∈ marks, IsUnder towlower m.names path) ↔ KeyMarked towlower marks path) := by
    intro path hthrough
    refine ⟨?_, ?_⟩
    · rintro ⟨m, hm, hunder⟩
      unfold KeyMark.names at hunder
      split at hunder
      · rename_i hv
        exact ⟨m, hm, hv, hunder⟩
      · rename_i v hv
        exact absurd ⟨v, hv, hunder⟩ (hthrough m hm)
    · rintro ⟨m, hm, hv, hunder⟩
      refine ⟨m, hm, ?_⟩
      unfold KeyMark.names
      rw [hv]
      exact hunder
  cases asked with
  | key k => exact hkey k.names hclash
  | subkey k name _ => exact hkey (k.names ++ [name]) hclash
  | value k valueName =>
    have hthrough : ∀ m ∈ marks, ¬ThroughValue towlower m k.names :=
      fun m hm h => hclash m hm (.inl h)
    show (∃ m ∈ marks, IsUnder towlower m.names (k.names ++ [36 :: valueName])) ↔ _ ∨ _
    rw [← hkey k.names hthrough]
    refine ⟨?_, ?_⟩
    · rintro ⟨m, hm, hunder⟩
      rcases isUnder_concat.mp hunder with heq | hunder
      · refine .inr ⟨m, hm, ?_⟩
        cases hv : m.valueName with
        | none =>
          rw [KeyMark.names, hv] at heq
          exact absurd (.inr ⟨hv, heq⟩) (hclash m hm)
        | some v =>
          rw [KeyMark.names, hv] at heq
          simp only [map_append, map_cons, map_nil] at heq
          obtain ⟨hnames, hvalue⟩ := append_inj' heq rfl
          refine ⟨v, rfl, ?_, hnames⟩
          simpa using hvalue
      · exact .inl ⟨m, hm, hunder⟩
    · rintro (⟨m, hm, hunder⟩ | ⟨m, hm, v, hv, hvalue, hnames⟩)
      · exact ⟨m, hm, isUnder_concat.mpr (.inr hunder)⟩
      · refine ⟨m, hm, isUnder_concat.mpr (.inl ?_)⟩
        rw [KeyMark.names, hv]
        simp only [map_append, map_cons, map_nil, hvalue, hnames]

/-- **Deletion marks of the registry are precise**, after any marks, for what is not mixed up with
one of them; so is the tree that is saved and loaded, and the tree of the file that the calls
have written, when no mark has a bar or a line feed in a name. -/
theorem key_marks (towlower : WChar → WChar) (date : Nat) (marks : List KeyMark) (asked : Asked)
    (hmarks : ∀ m ∈ marks, m.Plain) (hasked : asked.Plain)
    (hclash : ∀ m ∈ marks, ¬Clash towlower m asked) :
    (asked.deleted towlower (keyMarks towlower date marks).2.pathRoot ↔
        asked.Marked towlower marks) ∧
      ((∀ m ∈ marks, m.Fits) →
        (asked.deleted towlower (loadPathTree towlower noTranslation
            (savePathTree noTranslation (keyMarks towlower date marks).2.pathRoot)) ↔
          asked.Marked towlower marks) ∧
        (asked.deleted towlower
            (fileTree towlower noTranslation (keyMarks towlower date marks).1) ↔
          asked.Marked towlower marks)) := by
  have htells : ∀ root, MarkedBy towlower root
      (marks.map fun m => markPath m.key.truePath m.valueName) →
      (asked.deleted towlower root ↔ asked.Marked towlower marks) := by
    intro root hroot
    rw [asked.deleted_iff, hroot.deleted, hasked.names_path, ← under_iff_marked hclash]
    refine ⟨?_, ?_⟩
    · rintro ⟨p, hp, hunder⟩
      obtain ⟨m, hm, rfl⟩ := mem_map.mp hp
      rw [(hmarks m hm).path.2] at hunder
      exact ⟨m, hm, hunder⟩
    · rintro ⟨m, hm, hunder⟩
      refine ⟨_, mem_map_of_mem hm, ?_⟩
      rw [(hmarks m hm).path.2]
      exact hunder
  have hroot := @markedBy_keyMarks towlower date marks hmarks
  refine ⟨htells _ hroot, fun hfits => ⟨htells _ ?_, htells _ ?_⟩⟩
  · exact markedBy_saved hroot (nodesReady_keyMarks date hfits)
  · exact (file_keyMarks date hmarks hfits).2

theorem key_marks_value :
    ∃ (m : KeyMark) (asked : Asked), m.Plain ∧ asked.Plain ∧ m.Fits ∧ ¬Clash id m asked ∧
      asked.deleted id (keyMarks id 0 [m]).2.pathRoot ∧
      asked.deleted id (fileTree id noTranslation (keyMarks id 0 [m]).1) := by
  have hname : ∀ name ∈ [[107]], IsName name := by
    intro name hname
    obtain rfl := mem_singleton.mp hname
    exact ⟨by decide, by decide⟩
  let k : Key := ⟨[[107]], by decide, hname, by decide⟩
  let m : KeyMark := ⟨k, some [97], by decide, 0⟩
  have hplain : m.Plain := by
    show ∀ v ∈ some [97], 92 ∉ v
    decide
  have hasked : (Asked.value k [97]).Plain := by
    show (92 : WChar) ∉ [97]
    decide
  have hfits : m.Fits := by
    refine ⟨?_, ?_⟩
    · show ∀ name ∈ [[107]], 124 ∉ name ∧ 10 ∉ name
      decide
    · show ∀ v ∈ some [97], 124 ∉ v ∧ 10 ∉ v
      decide
  have hclash : ¬Clash id m (.value k [97]) := by
    rintro (⟨v, hv, hunder⟩ | ⟨hv, _⟩)
    · exact absurd hunder.length_le (by simp [m, k])
    · cases hv
  have hmarked : (Asked.value k [97]).Marked id [m] :=
    .inr ⟨m, mem_cons_self, [97], rfl, rfl, rfl⟩
  have hmarks := key_marks id 0 [m] (.value k [97]) (by simpa using hplain) hasked
    (by simpa using hclash)
  exact ⟨m, .value k [97], hplain, hasked, hfits, hclash, hmarks.1.mpr hmarked,
    (hmarks.2 (by simpa using hfits)).2.mpr hmarked⟩

/-- The marked value `a` of `\k` is the subkey `$a`. -/
theorem value_is_subkey :
    ∃ (m : KeyMark) (key : Key), m.valueName = some [97] ∧ m.key.names = [[107]] ∧
      key.names = [[107], [36, 97]] ∧
      (Asked.key key).deleted id (keyMarks id 0 [m]).2.pathRoot ∧
      ¬(Asked.key key).Marked id [m] := by
  refine ⟨⟨⟨[[107]], by decide, ?_, by decide⟩, some [97], by decide, 0⟩,
    ⟨[[107], [36, 97]], by decide, ?_, by decide⟩, rfl, rfl, rfl, ?_, ?_⟩
  · intro name hname
    obtain rfl := mem_singleton.mp hname
    exact ⟨by decide, by decide⟩
  · intro name hname
    rcases mem_pair.mp hname with rfl | rfl <;> exact ⟨by decide, by decide⟩
  · show keyIsDeletedEx id _ _ _ _ ≠ 0
    decide
  · rintro ⟨m, hm, hkey, _⟩
    obtain rfl := mem_singleton.mp hm
    cases hkey

end Fold

end Sandboxie.PathTree
