import Sandboxie.Plus.TabEnsure

/-!
# What the user does to the tabs

The handlers of the context menu, of the two group dialogs and of the search dialog of
`CTabStateManager`.  Every one of them keeps the pages, and the order of the tabs that the
group dialog states is kept in every run in which a group is removed only when it is the last
one that has tabs, and a tab is dragged only past tabs of its own group.
-/

namespace Sandboxie.Tabs

open Strip List

/-! ### Changes of the groups -/

def setGroupForTab (g : Groups) (tabName groupName : QString) : Groups :=
  if tabName = [] then g
  else if groupName = [] then { g with groups := g.groups.filter fun tab => tab ≠ tabName }
  else { g with groups := g.groups.insert tabName groupName }

/-- The handler of "Pin tab", before the tabs are ordered. -/
def togglePinned (g : Groups) (name : QString) : Groups :=
  if g.isPinned name then { g with pinned := g.pinned.filter fun tab => tab ≠ name }
  else { g with pinned := g.pinned.insert name () }

section Changes

variable (u : Unicode)

def nameAccepted (g : Groups) (candidate except : QString) : Bool :=
  validGroupName u candidate && !groupNameInUse u g candidate except

def createGroup (g : Groups) (candidate : QString) : Groups :=
  { g with
    metadata := g.metadata.insert candidate
      { color := some (defaultGroupColor u candidate), order := g.groupOrder.length }
    groupOrder := g.groupOrder ++ [candidate] }

def renamed (originalName candidate name : QString) : QString :=
  if sameName u name originalName then candidate else name

def renameGroup (g : Groups) (originalName candidate : QString) : Groups :=
  { g with
    groups := g.groups.mapSome fun name => some (renamed u originalName candidate name)
    metadata := (g.metadata.filter fun name => name ≠ originalName).insert candidate
      ((g.metadata.value originalName).getD {})
    groupOrder := g.groupOrder.map (renamed u originalName candidate) }

/-- `m_groupMetadata[originalName]` is changed. -/
def changeMetadata (g : Groups) (originalName : QString)
    (change : GroupMetadata → GroupMetadata) : Groups :=
  { g with
    metadata := g.metadata.insert originalName (change ((g.metadata.value originalName).getD {})) }

def removeGroup (g : Groups) (originalName : QString) : Groups :=
  { g with
    groups := g.groups.mapSome fun name =>
      if sameName u name originalName then none else some name
    metadata := g.metadata.filter fun name => name ≠ originalName
    groupOrder := g.groupOrder.filter fun name => name ≠ originalName }

end Changes

def swapItemsAt (l : List QString) (i j : Nat) : List QString :=
  match l[i]?, l[j]? with
  | some a, some b => (l.set i b).set j a
  | _, _ => l

/-! ### Actions -/

inductive Action
  | pin (tab : QString)
  | clearGroup (tab : QString)
  | createInto (tab text : QString)
  | moveInto (tab name : QString)
  | create (text : QString)
  | rename (originalName text : QString)
  | color (originalName : QString) (chosen : Nat)
  | collapse (originalName : QString) (value : Bool)
  | up (originalName : QString)
  | down (originalName : QString)
  | remove (originalName : QString)
  | drag (i target : Nat)
  | select (row : Nat)
  | search (index : Nat)
  | release

variable (qt : Qt)

def relayout (s : Strip) : Strip :=
  save qt (applyGroupPresentation qt (restoreGroupedOrder qt s))

def present (s : Strip) : Strip := save qt (applyGroupPresentation qt s)

/-- A row of the list is selected, and `selectPage` shows its page. -/
def selectRow (s : Strip) (row : Nat) : Strip :=
  if row < s.rows.length ∧ s.row ≠ some row then
    setCurrentIndex qt (s.setCurrentRow (some row)) row
  else s

/-- What the manager does.  The rows of the group dialog carry the names that the groups had when
they were built. -/
def act (s : Strip) : Action → Strip
  | .pin tab =>
    if tab ∈ s.pages then relayout qt { s with groups := togglePinned s.groups tab } else s
  | .clearGroup tab =>
    if tab ∈ s.pages then relayout qt { s with groups := setGroupForTab s.groups tab [] } else s
  | .createInto tab text =>
    let value := trimmed qt.toUnicode text
    if tab ∈ s.pages ∧ nameAccepted qt.toUnicode s.groups value [] = true then
      let g := setGroupForTab (createGroup qt.toUnicode s.groups value) tab value
      relayout qt { s with groups := ensureGroupMetadata qt.toUnicode g }
    else s
  | .moveInto tab name =>
    let value := trimmed qt.toUnicode name
    if tab ∈ s.pages ∧ value ≠ [] then
      let g := setGroupForTab s.groups tab value
      relayout qt { s with groups := ensureGroupMetadata qt.toUnicode g }
    else s
  | .create text =>
    let candidate := trimmed qt.toUnicode text
    if nameAccepted qt.toUnicode s.groups candidate [] then
      let g := createGroup qt.toUnicode s.groups candidate
      applyGroupPresentation qt (save qt { s with groups := ensureGroupMetadata qt.toUnicode g })
    else s
  | .rename originalName text =>
    let candidate := trimmed qt.toUnicode text
    if nameAccepted qt.toUnicode s.groups candidate originalName then
      let g := renameGroup qt.toUnicode s.groups originalName candidate
      applyGroupPresentation qt (save qt { s with groups := ensureGroupMetadata qt.toUnicode g })
    else s
  | .color originalName chosen =>
    if trimmed qt.toUnicode originalName = originalName then
      let g := changeMetadata s.groups originalName fun m => { m with color := some chosen }
      present qt { s with groups := g }
    else s
  | .collapse originalName value =>
    if trimmed qt.toUnicode originalName = originalName then
      let g := changeMetadata s.groups originalName fun m => { m with collapsed := value }
      present qt { s with groups := g }
    else s
  | .up originalName =>
    let index := s.groups.groupOrder.idxOf originalName
    if index < s.groups.groupOrder.length ∧ 0 < index then
      let g := { s.groups with groupOrder := swapItemsAt s.groups.groupOrder index (index - 1) }
      relayout qt { s with groups := ensureGroupMetadata qt.toUnicode g }
    else s
  | .down originalName =>
    let index := s.groups.groupOrder.idxOf originalName
    if index + 1 < s.groups.groupOrder.length then
      let g := { s.groups with groupOrder := swapItemsAt s.groups.groupOrder index (index + 1) }
      relayout qt { s with groups := ensureGroupMetadata qt.toUnicode g }
    else s
  | .remove originalName =>
    present qt { s with groups := removeGroup qt.toUnicode s.groups originalName }
  | .drag i target => if s.tabs then moveTab qt s i target else s
  | .select row => selectRow qt s row
  | .search index =>
    match s.pages[index]? with
    | some key => save qt { setCurrentIndex qt s index with active := key }
    | none => s
  | .release => save qt s

def acts (s : Strip) (actions : List Action) : Strip := actions.foldl (act qt) s

/-! ### Trimmed names -/

section Names

variable {u : Unicode} {g : Groups}

theorem mem_sources {n : QString} : n ∈ sources g ↔
    n ∈ g.groupOrder ∨ g.metadata.value n ≠ none ∨ ∃ tab, g.groups.value tab = some n := by
  rw [sources, mem_append, mem_append, SortedMap.mem_keys, SortedMap.mem_values, or_assoc]

theorem value_insert_ne_none {ν : Type} {m : SortedMap QString ν} {k k' : QString} {v : ν} :
    (m.insert k' v).value k ≠ none ↔ k = k' ∨ m.value k ≠ none := by
  rw [SortedMap.value_insert]
  by_cases heq : k = k'
  · rw [if_pos heq]
    exact ⟨fun _ => .inl heq, fun _ => Option.some_ne_none v⟩
  · rw [if_neg heq]
    exact ⟨.inr, fun h => h.resolve_left heq⟩

theorem value_filter_some {ν : Type} {m : SortedMap QString ν} {k k' : QString} {v : ν} :
    (m.filter fun name => name ≠ k').value k = some v ↔ k ≠ k' ∧ m.value k = some v := by
  rw [SortedMap.value_filter]
  by_cases heq : k = k'
  · rw [if_neg (by simp [heq])]
    exact ⟨fun h => (nomatch h), fun h => absurd heq h.1⟩
  · rw [if_pos (by simp [heq])]
    exact ⟨fun h => ⟨heq, h⟩, And.right⟩

/-- A change that brings one name at most. -/
def Brings (g g' : Groups) (name : QString) : Prop := ∀ n ∈ sources g', n ∈ sources g ∨ n = name

theorem Brings.trimmed {g' : Groups} {name : QString} (h : Brings g g' name) (hg : Trimmed u g)
    (hname : trimmed u name = name) : Trimmed u g' := by
  intro n hn
  rcases h n hn with hn | rfl
  · exact hg n hn
  · exact hname

theorem setGroupForTab_brings (g : Groups) (tab name : QString) :
    Brings g (setGroupForTab g tab name) name := by
  intro n hn
  unfold setGroupForTab at hn
  split_ifs at hn
  · exact .inl hn
  · rcases mem_sources.mp hn with hn | hn | ⟨tab', hn⟩
    · exact .inl (mem_sources.mpr (.inl hn))
    · exact .inl (mem_sources.mpr (.inr (.inl hn)))
    · exact .inl (mem_sources.mpr (.inr (.inr ⟨tab', (value_filter_some.mp hn).2⟩)))
  · rcases mem_sources.mp hn with hn | hn | ⟨tab', hn⟩
    · exact .inl (mem_sources.mpr (.inl hn))
    · exact .inl (mem_sources.mpr (.inr (.inl hn)))
    · have hn : (g.groups.insert tab name).value tab' = some n := hn
      rw [SortedMap.value_insert] at hn
      by_cases heq : tab' = tab
      · rw [if_pos heq] at hn
        exact .inr (Option.some.inj hn).symm
      · rw [if_neg heq] at hn
        exact .inl (mem_sources.mpr (.inr (.inr ⟨tab', hn⟩)))

theorem createGroup_brings (u : Unicode) (g : Groups) (name : QString) :
    Brings g (createGroup u g name) name := by
  intro n hn
  rcases mem_sources.mp hn with hn | hn | ⟨tab, hn⟩
  · rcases mem_append.mp hn with hn | hn
    · exact .inl (mem_sources.mpr (.inl hn))
    · exact .inr (mem_singleton.mp hn)
  · rcases value_insert_ne_none.mp hn with rfl | hn
    · exact .inr rfl
    · exact .inl (mem_sources.mpr (.inr (.inl hn)))
  · exact .inl (mem_sources.mpr (.inr (.inr ⟨tab, hn⟩)))

theorem renamed_cases (u : Unicode) (originalName candidate n : QString) :
    (u.fold n = u.fold originalName ∧ renamed u originalName candidate n = candidate) ∨
      (u.fold n ≠ u.fold originalName ∧ renamed u originalName candidate n = n) := by
  by_cases hsame : sameName u n originalName = true
  · exact .inl ⟨sameName_iff.mp hsame, if_pos hsame⟩
  · exact .inr ⟨fun heq => hsame (sameName_iff.mpr heq), if_neg hsame⟩

theorem renameGroup_value {originalName candidate tab n : QString} :
    (renameGroup u g originalName candidate).groups.value tab = some n ↔
      ∃ n', g.groups.value tab = some n' ∧ renamed u originalName candidate n' = n := by
  show (g.groups.mapSome _).value tab = some n ↔ _
  rw [SortedMap.value_mapSome, Option.bind_eq_some_iff]
  exact exists_congr fun n' => and_congr_right fun _ => Option.some_inj

theorem renameGroup_brings (u : Unicode) (g : Groups) (originalName name : QString) :
    Brings g (renameGroup u g originalName name) name := by
  have hrenamed : ∀ n, n ∈ sources g → renamed u originalName name n ∈ sources g ∨
      renamed u originalName name n = name := by
    intro n hn
    rcases renamed_cases u originalName name n with ⟨-, heq⟩ | ⟨-, heq⟩
    · exact .inr heq
    · exact .inl (heq.symm ▸ hn)
  intro n hn
  rcases mem_sources.mp hn with hn | hn | ⟨tab, hn⟩
  · obtain ⟨n', hn', rfl⟩ := mem_map.mp hn
    exact hrenamed n' (mem_sources.mpr (.inl hn'))
  · rcases value_insert_ne_none.mp hn with rfl | hn
    · exact .inr rfl
    · obtain ⟨m, hm⟩ := Option.ne_none_iff_exists'.mp hn
      refine .inl (mem_sources.mpr (.inr (.inl ?_)))
      rw [(value_filter_some.mp hm).2]
      exact Option.some_ne_none m
  · obtain ⟨n', hn', rfl⟩ := renameGroup_value.mp hn
    exact hrenamed n' (mem_sources.mpr (.inr (.inr ⟨tab, hn'⟩)))

theorem changeMetadata_brings (g : Groups) (name : QString)
    (change : GroupMetadata → GroupMetadata) : Brings g (changeMetadata g name change) name := by
  intro n hn
  rcases mem_sources.mp hn with hn | hn | ⟨tab, hn⟩
  · exact .inl (mem_sources.mpr (.inl hn))
  · rcases value_insert_ne_none.mp hn with rfl | hn
    · exact .inr rfl
    · exact .inl (mem_sources.mpr (.inr (.inl hn)))
  · exact .inl (mem_sources.mpr (.inr (.inr ⟨tab, hn⟩)))

theorem removeGroup_value {originalName tab n : QString} :
    (removeGroup u g originalName).groups.value tab = some n ↔
      g.groups.value tab = some n ∧ u.fold n ≠ u.fold originalName := by
  show (g.groups.mapSome _).value tab = some n ↔ _
  rw [SortedMap.value_mapSome, Option.bind_eq_some_iff]
  constructor
  · rintro ⟨n', hn', hsome⟩
    split_ifs at hsome with hsame
    cases hsome
    exact ⟨hn', fun heq => hsame (sameName_iff.mpr heq)⟩
  · rintro ⟨hn, hne⟩
    exact ⟨n, hn, if_neg fun hsame => hne (sameName_iff.mp hsame)⟩

theorem removeGroup_trimmed (hg : Trimmed u g) (originalName : QString) :
    Trimmed u (removeGroup u g originalName) := by
  intro n hn
  rcases mem_sources.mp hn with hn | hn | ⟨tab, hn⟩
  · exact hg n (mem_sources.mpr (.inl (mem_filter.mp hn).1))
  · obtain ⟨m, hm⟩ := Option.ne_none_iff_exists'.mp hn
    refine hg n (mem_sources.mpr (.inr (.inl ?_)))
    rw [(value_filter_some.mp hm).2]
    exact Option.some_ne_none m
  · exact hg n (mem_sources.mpr (.inr (.inr ⟨tab, (removeGroup_value.mp hn).1⟩)))

theorem mem_swapItemsAt {l : List QString} {i j : Nat} {n : QString} (h : n ∈ swapItemsAt l i j) :
    n ∈ l := by
  unfold swapItemsAt at h
  cases hi : l[i]? with
  | none =>
    rw [hi] at h
    exact h
  | some a =>
    cases hj : l[j]? with
    | none =>
      rw [hi, hj] at h
      exact h
    | some b =>
      rw [hi, hj] at h
      rcases mem_or_eq_of_mem_set h with h | rfl
      · rcases mem_or_eq_of_mem_set h with h | rfl
        · exact h
        · exact mem_of_getElem? hj
      · exact mem_of_getElem? hi

theorem swapItemsAt_trimmed (hg : Trimmed u g) (i j : Nat) :
    Trimmed u { g with groupOrder := swapItemsAt g.groupOrder i j } := by
  intro n hn
  rcases mem_sources.mp hn with hn | hn | hn
  · exact hg n (mem_sources.mpr (.inl (mem_swapItemsAt hn)))
  · exact hg n (mem_sources.mpr (.inr (.inl hn)))
  · exact hg n (mem_sources.mpr (.inr (.inr hn)))

theorem togglePinned_normal (h : Normal u g) (name : QString) :
    Normal u (togglePinned g name) := by
  unfold togglePinned
  split_ifs
  · exact ⟨h.proper, h.distinct, h.known, h.metadata, h.groups⟩
  · exact ⟨h.proper, h.distinct, h.known, h.metadata, h.groups⟩

theorem clearGroup_normal (h : Normal u g) (tab : QString) :
    Normal u (setGroupForTab g tab []) := by
  unfold setGroupForTab
  by_cases htab : tab = []
  · rw [if_pos htab]
    exact h
  · rw [if_neg htab, if_pos rfl]
    exact ⟨h.proper, h.distinct, h.known, h.metadata,
      fun tab' n hn => h.groups tab' n (value_filter_some.mp hn).2⟩

end Names

/-! ### What every action keeps -/

variable {qt : Qt} {s : Strip}

theorem Managed.with_groups (h : Managed qt s) {g : Groups} (hg : Normal qt.toUnicode g) :
    Managed qt { s with groups := g } :=
  ⟨h.managed, h.restoring, hg, h.nodup, h.nil, h.trimmed, h.sits⟩

theorem save_spec (h : Managed qt s) : Kept s (save qt s) ∧ Managed qt (save qt s) ∧
    (save qt s).groups = s.groups ∧ (save qt s).pages = s.pages := by
  have hkept := save_kept qt h.sits
  obtain ⟨saved, -, heq⟩ := save_eq qt s
  refine ⟨hkept, h.of_kept hkept ?_ ?_, ?_, ?_⟩ <;> rw [heq]

theorem applyGroupPresentation_spec (h : Managed qt s) :
    Kept s (applyGroupPresentation qt s) ∧ Managed qt (applyGroupPresentation qt s) ∧
      (applyGroupPresentation qt s).groups = s.groups ∧
      (applyGroupPresentation qt s).pages = s.pages := by
  have hkept := applyGroupPresentation_kept h.normal h.sits
  obtain ⟨rows, -, heq⟩ := applyGroupPresentation_eq h.normal
  refine ⟨hkept, h.of_kept hkept ?_ ?_, ?_, ?_⟩ <;> rw [heq]

theorem relayout_spec (h : Managed qt s) : Kept s (relayout qt s) ∧ Managed qt (relayout qt s) ∧
    (relayout qt s).groups = s.groups ∧ InOrder qt (relayout qt s) := by
  obtain ⟨hkept, hgroups, hrestoring, -, -⟩ := restoreGroupedOrder_kept h
  have horder := restoreGroupedOrder_inOrder h
  have h₁ := h.of_kept hkept hgroups hrestoring
  unfold relayout
  generalize restoreGroupedOrder qt s = s₁ at hkept hgroups horder h₁
  obtain ⟨hkept₂, h₂, hgroups₂, hpages₂⟩ := applyGroupPresentation_spec h₁
  generalize applyGroupPresentation qt s₁ = s₂ at hkept₂ h₂ hgroups₂ hpages₂
  obtain ⟨hkept₃, h₃, hgroups₃, hpages₃⟩ := save_spec h₂
  refine ⟨hkept.trans (hkept₂.trans hkept₃), h₃, hgroups₃.trans (hgroups₂.trans hgroups), ?_⟩
  unfold InOrder
  rw [hgroups₃, hgroups₂, hpages₃, hpages₂]
  exact horder

theorem relayout_groups (h : Managed qt s) {g : Groups} (hg : Normal qt.toUnicode g) :
    Kept s (relayout qt { s with groups := g }) ∧ Managed qt (relayout qt { s with groups := g }) ∧
      InOrder qt (relayout qt { s with groups := g }) := by
  obtain ⟨hkept, hmanaged, -, horder⟩ := relayout_spec (h.with_groups hg)
  exact ⟨(groups_kept h.sits g).trans hkept, hmanaged, horder⟩

theorem present_ensure (g : Groups) (hg : Trimmed qt.toUnicode g) :
    applyGroupPresentation qt { s with groups := g } =
      applyGroupPresentation qt { s with groups := ensureGroupMetadata qt.toUnicode g } := by
  unfold applyGroupPresentation
  simp only
  rw [ensure_of_normal (normal_ensure hg)]

theorem present_groups (h : Managed qt s) {g : Groups} (hg : Trimmed qt.toUnicode g) :
    Kept s (present qt { s with groups := g }) ∧ Managed qt (present qt { s with groups := g }) ∧
      (present qt { s with groups := g }).groups = ensureGroupMetadata qt.toUnicode g ∧
      (present qt { s with groups := g }).pages = s.pages := by
  unfold present
  rw [present_ensure g hg]
  have h₁ := h.with_groups (normal_ensure hg)
  obtain ⟨hkept₂, h₂, hgroups₂, hpages₂⟩ := applyGroupPresentation_spec h₁
  obtain ⟨hkept₃, h₃, hgroups₃, hpages₃⟩ := save_spec h₂
  exact ⟨(groups_kept h.sits _).trans (hkept₂.trans hkept₃), h₃, hgroups₃.trans hgroups₂,
    hpages₃.trans hpages₂⟩

theorem saved_groups (h : Managed qt s) {g : Groups} (hg : Trimmed qt.toUnicode g) :
    Kept s (applyGroupPresentation qt
      (save qt { s with groups := ensureGroupMetadata qt.toUnicode g })) ∧
    Managed qt (applyGroupPresentation qt
      (save qt { s with groups := ensureGroupMetadata qt.toUnicode g })) ∧
    (applyGroupPresentation qt
      (save qt { s with groups := ensureGroupMetadata qt.toUnicode g })).groups =
        ensureGroupMetadata qt.toUnicode g ∧
    (applyGroupPresentation qt
      (save qt { s with groups := ensureGroupMetadata qt.toUnicode g })).pages = s.pages := by
  have h₁ := h.with_groups (normal_ensure hg)
  obtain ⟨hkept₂, h₂, hgroups₂, hpages₂⟩ := save_spec h₁
  obtain ⟨hkept₃, h₃, hgroups₃, hpages₃⟩ := applyGroupPresentation_spec h₂
  exact ⟨(groups_kept h.sits _).trans (hkept₂.trans hkept₃), h₃, hgroups₃.trans hgroups₂,
    hpages₃.trans hpages₂⟩

theorem setCurrentIndex_managed (h : Managed qt s) (index : Nat) :
    Kept s (setCurrentIndex qt s index) ∧ Managed qt (setCurrentIndex qt s index) ∧
      (setCurrentIndex qt s index).groups = s.groups ∧
      (setCurrentIndex qt s index).pages = s.pages := by
  have hkept := setCurrentIndex_kept h.normal h.sits index
  obtain ⟨hsent, hpages, -⟩ := setCurrentIndex_spec h.normal h.managed index
  exact ⟨hkept, h.of_kept hkept hsent.groups hsent.restoring, hsent.groups, hpages⟩

theorem selectRow_spec (h : Managed qt s) (row : Nat) : Kept s (selectRow qt s row) ∧
    Managed qt (selectRow qt s row) ∧ (selectRow qt s row).groups = s.groups ∧
    (selectRow qt s row).pages = s.pages := by
  unfold selectRow
  split_ifs with hrow
  · have hset : (s.setCurrentRow (some row)).row = some row := by
      show (some row).filter (· < s.rows.length) = some row
      rw [Option.filter_some, if_pos (decide_eq_true hrow.1)]
    have hnormal : Normal qt.toUnicode (s.setCurrentRow (some row)).groups := h.normal
    unfold setCurrentIndex
    cases hpage : (s.setCurrentRow (some row)).pages[row]? with
    | none =>
      have hle : s.pages.length ≤ row := List.getElem?_eq_none_iff.mp hpage
      refine ⟨⟨rfl, rfl, rfl, List.Perm.refl _, h.sits, fun text hnav => ?_,
        fun _ htitles => htitles, fun _ => ⟨rfl, rfl⟩⟩, ?_, rfl, rfl⟩
      · have hlt := hrow.1
        rw [hnav.length] at hlt
        exact absurd hle (Nat.not_le_of_lt hlt)
      · exact ⟨h.managed, h.restoring, h.normal, h.nodup, h.nil, h.trimmed, h.sits⟩
    | some key =>
      have hkey : key ∈ s.pages := List.mem_of_getElem? hpage
      have hindex : s.pages.idxOf key = row := by
        obtain ⟨hlt, rfl⟩ := List.getElem?_eq_some_iff.mp hpage
        exact h.nodup.idxOf_getElem row hlt
      obtain ⟨hsent, hpages, hcurrent, hrow', -⟩ := showPage_spec hnormal key
      have hsits : Sits (showPage qt (s.setCurrentRow (some row)) key) :=
        ⟨key, hpages ▸ hkey, hcurrent⟩
      have hkept : Kept s (showPage qt (s.setCurrentRow (some row)) key) := by
        refine ⟨hsent.tabs, hsent.managed, hsent.title, hpages ▸ List.Perm.refl _, hsits,
          fun text hnav => .inl ⟨?_, .inr ?_⟩, fun _ htitles => ?_,
          fun _ => ⟨hsent.titles, hsent.bound⟩⟩
        · rw [hpages]
          exact hsent.labels.trans hnav.labels
        · have hindex' : (showPage qt (s.setCurrentRow (some row)) key).currentIndex =
              some row := by
            rw [currentIndex, hcurrent, hpages]
            exact congrArg some hindex
          rw [hindex', hrow', hset, ite_eq_left_iff]
          intro _
          show (some (s.pages.idxOf key)).filter (· < s.rows.length) = some row
          rw [hindex, Option.filter_some, if_pos (decide_eq_true hrow.1)]
        · rw [hsent.titles, hpages, hsent.title]
          exact htitles
      exact ⟨hkept, h.of_kept hkept hsent.groups hsent.restoring, hsent.groups, hpages⟩
  · exact ⟨Kept.refl h.sits, h, rfl, rfl⟩

theorem moveTab_managed (h : Managed qt s) (htabs : s.tabs = true) (i target : Nat) :
    Kept s (moveTab qt s i target) ∧ Managed qt (moveTab qt s i target) ∧
      (moveTab qt s i target).groups = s.groups := by
  by_cases hmove : i < s.pages.length ∧ target < s.pages.length ∧ i ≠ target
  · obtain ⟨c, hc, hcurrent⟩ := h.sits
    obtain ⟨hmoved, -⟩ := moveTab_spec h.normal hc hcurrent hmove.1 hmove.2.1 hmove.2.2
    have hkept := hmoved.kept htabs h.sits
    exact ⟨hkept, h.of_kept hkept hmoved.groups hmoved.restoring, hmoved.groups⟩
  · have heq : moveTab qt s i target = s := by
      exact if_neg hmove
    rw [heq]
    exact ⟨Kept.refl h.sits, h, rfl⟩

/-- The actions whose handlers order the tabs. -/
def Action.orders : Action → Bool
  | .pin _ | .clearGroup _ | .createInto _ _ | .moveInto _ _ | .up _ | .down _ => true
  | _ => false

theorem act_orders (h : Managed qt s) {a : Action} (ha : a.orders = true) : act qt s a = s ∨
    ∃ g, Normal qt.toUnicode g ∧ act qt s a = relayout qt { s with groups := g } := by
  have hnames := h.normal.trimmed
  have hvalue : ∀ text, trimmed qt.toUnicode (trimmed qt.toUnicode text) =
    trimmed qt.toUnicode text := trimmed_trimmed
  cases a with
  | pin tab =>
    simp only [act]
    split_ifs
    · exact .inr ⟨_, togglePinned_normal h.normal tab, rfl⟩
    · exact .inl rfl
  | clearGroup tab =>
    simp only [act]
    split_ifs
    · exact .inr ⟨_, clearGroup_normal h.normal tab, rfl⟩
    · exact .inl rfl
  | createInto tab text =>
    simp only [act]
    split_ifs
    · exact .inr ⟨_, normal_ensure ((setGroupForTab_brings _ tab _).trimmed
        ((createGroup_brings _ _ _).trimmed hnames (hvalue text)) (hvalue text)), rfl⟩
    · exact .inl rfl
  | moveInto tab name =>
    simp only [act]
    split_ifs
    · exact .inr ⟨_, normal_ensure ((setGroupForTab_brings _ tab _).trimmed hnames (hvalue name)),
        rfl⟩
    · exact .inl rfl
  | up originalName =>
    simp only [act]
    split_ifs
    · exact .inr ⟨_, normal_ensure (swapItemsAt_trimmed hnames _ _), rfl⟩
    · exact .inl rfl
  | down originalName =>
    simp only [act]
    split_ifs
    · exact .inr ⟨_, normal_ensure (swapItemsAt_trimmed hnames _ _), rfl⟩
    · exact .inl rfl
  | _ => exact nomatch ha

theorem act_kept (h : Managed qt s) (a : Action) :
    Kept s (act qt s a) ∧ Managed qt (act qt s a) := by
  have hsame : Kept s s ∧ Managed qt s := ⟨Kept.refl h.sits, h⟩
  have hpresent : ∀ g, Trimmed qt.toUnicode g → Kept s (present qt { s with groups := g }) ∧
      Managed qt (present qt { s with groups := g }) :=
    fun g hg => ⟨(present_groups h hg).1, (present_groups h hg).2.1⟩
  have hnames := h.normal.trimmed
  have hvalue : ∀ text, trimmed qt.toUnicode (trimmed qt.toUnicode text) =
    trimmed qt.toUnicode text := trimmed_trimmed
  by_cases horders : a.orders = true
  · rcases act_orders h horders with heq | ⟨g, hg, heq⟩
    · rw [heq]
      exact hsame
    · rw [heq]
      exact ⟨(relayout_groups h hg).1, (relayout_groups h hg).2.1⟩
  cases a with
  | create text =>
    simp only [act]
    split_ifs
    · have hg := (createGroup_brings qt.toUnicode s.groups _).trimmed hnames (hvalue text)
      exact ⟨(saved_groups h hg).1, (saved_groups h hg).2.1⟩
    · exact hsame
  | rename originalName text =>
    simp only [act]
    split_ifs
    · have hg := (renameGroup_brings qt.toUnicode s.groups originalName _).trimmed hnames
        (hvalue text)
      exact ⟨(saved_groups h hg).1, (saved_groups h hg).2.1⟩
    · exact hsame
  | color originalName chosen =>
    simp only [act]
    split_ifs with hname
    · exact hpresent _ ((changeMetadata_brings _ originalName _).trimmed hnames hname)
    · exact hsame
  | collapse originalName value =>
    simp only [act]
    split_ifs with hname
    · exact hpresent _ ((changeMetadata_brings _ originalName _).trimmed hnames hname)
    · exact hsame
  | remove originalName => exact hpresent _ (removeGroup_trimmed hnames originalName)
  | drag i target =>
    simp only [act]
    split_ifs with htabs
    · exact ⟨(moveTab_managed h htabs i target).1, (moveTab_managed h htabs i target).2.1⟩
    · exact hsame
  | select row => exact ⟨(selectRow_spec h row).1, (selectRow_spec h row).2.1⟩
  | search index =>
    simp only [act]
    cases hpage : s.pages[index]? with
    | none => exact hsame
    | some key =>
      obtain ⟨hkept, h₁, -⟩ := setCurrentIndex_managed h index
      simp only
      generalize setCurrentIndex qt s index = s₁ at hkept h₁
      have h₂ : Managed qt { s₁ with active := key } :=
        ⟨h₁.managed, h₁.restoring, h₁.normal, h₁.nodup, h₁.nil, h₁.trimmed, h₁.sits⟩
      have hkept₂ : Kept s₁ { s₁ with active := key } :=
        ⟨rfl, rfl, rfl, List.Perm.refl _, h₁.sits, fun _ hnav => .inl ⟨hnav.labels, hnav.row⟩,
          fun _ htitles => htitles, fun _ => ⟨rfl, rfl⟩⟩
      exact ⟨hkept.trans (hkept₂.trans (save_spec h₂).1), (save_spec h₂).2.1⟩
  | release => exact ⟨(save_spec h).1, (save_spec h).2.1⟩
  | _ => exact absurd rfl horders

end Sandboxie.Tabs
