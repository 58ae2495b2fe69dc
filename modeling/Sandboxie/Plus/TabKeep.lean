import Sandboxie.Plus.TabOrder

/-!
# What every change keeps

Whatever is changed through the manager or the host, the pages are the same ones, one of them is
the current one, and the list shows the title of each page in its row (`Kept`).  The manager
starts on whatever was saved.
-/

namespace Sandboxie.Tabs

open Strip List

variable {qt : Qt} {s s' s'' : Strip} {text : QString → QString}

/-- The rows of the list show a text for each page, and none of them but the row of the current
page is the current row. -/
structure Nav (text : QString → QString) (s : Strip) : Prop where
  labels : s.rows.map Row.label = labels text s.pages
  row : s.row = none ∨ s.row = s.currentIndex

theorem Nav.length (h : Nav text s) : s.rows.length = s.pages.length := by
  rw [← length_map Row.label, h.labels]
  exact length_mapIdx

def Sits (s : Strip) : Prop := ∃ c ∈ s.pages, s.current = some c

/-- The pages are kept, and so is what the list shows of them. -/
structure Kept (s s' : Strip) : Prop where
  tabs : s'.tabs = s.tabs
  managed : s'.managed = s.managed
  title : s'.title = s.title
  pages : s'.pages.Perm s.pages
  sits : Sits s'
  nav : ∀ text, Nav text s → Nav text s' ∨ Nav s.title s'
  titles : s.tabs = true → s.titles = s.pages.map s.title → s'.titles = s'.pages.map s'.title
  bound : s.tabs = false → s'.titles = s.titles ∧ s'.bound = s.bound

theorem Kept.refl (h : Sits s) : Kept s s :=
  ⟨rfl, rfl, rfl, List.Perm.refl _, h, fun _ hnav => .inl hnav, fun _ h => h,
    fun _ => ⟨rfl, rfl⟩⟩

theorem Kept.trans (h : Kept s s') (h' : Kept s' s'') : Kept s s'' := by
  refine ⟨h'.tabs.trans h.tabs, h'.managed.trans h.managed, h'.title.trans h.title,
    h'.pages.trans h.pages, h'.sits, fun text hnav => ?_, fun htabs htitles => ?_,
    fun htabs => ?_⟩
  · rcases h.nav text hnav with hnav | hnav
    · rcases h'.nav text hnav with hnav | hnav
      · exact .inl hnav
      · exact .inr (h.title ▸ hnav)
    · rcases h'.nav _ hnav with hnav | hnav
      · exact .inr hnav
      · exact .inr (h.title ▸ hnav)
  · exact h'.titles (h.tabs.trans htabs) (h.titles htabs htitles)
  · obtain ⟨htitles, hbound⟩ := h.bound htabs
    obtain ⟨htitles', hbound'⟩ := h'.bound (h.tabs.trans htabs)
    exact ⟨htitles'.trans htitles, hbound'.trans hbound⟩

theorem Moved.kept (h : Moved s s') (htabs : s.tabs = true) (hsits : Sits s) : Kept s s' := by
  obtain ⟨c, hc, hcurrent⟩ := hsits
  have hsits' : Sits s' := ⟨c, h.pages.mem_iff.mpr hc, h.current.trans hcurrent⟩
  rcases h.list with rfl | hlisted
  · exact Kept.refl hsits'
  · refine ⟨h.tabs, h.managed, h.title, h.pages, hsits', fun _ _ => .inr ?_,
      fun _ _ => hlisted.titles, fun hstack => ?_⟩
    · exact ⟨h.title ▸ hlisted.labels, .inr hlisted.row⟩
    · rw [htabs] at hstack
      exact Bool.noConfusion hstack

theorem Sent.kept (h : Sent s s') (hpages : s'.pages = s.pages) (hsits : Sits s')
    (hrow : ∀ text, Nav text s → s'.row = none ∨ s'.row = s'.currentIndex) : Kept s s' := by
  refine ⟨h.tabs, h.managed, h.title, hpages ▸ List.Perm.refl _, hsits,
    fun text hnav => .inl ⟨?_, hrow text hnav⟩, fun _ htitles => ?_,
    fun _ => ⟨h.titles, h.bound⟩⟩
  · rw [h.labels, hnav.labels, hpages]
  · rw [h.titles, htitles, hpages, h.title]

/-! ### Operations that keep -/

theorem showPage_kept (h : Normal qt.toUnicode s.groups) {key : QString} (hkey : key ∈ s.pages) :
    Kept s (showPage qt s key) := by
  obtain ⟨hsent, hpages, hcurrent, hrow, -⟩ := showPage_spec h key
  have hindex : (showPage qt s key).currentIndex = some (s.pages.idxOf key) := by
    rw [currentIndex, hcurrent, hpages]
    rfl
  refine hsent.kept hpages ⟨key, hpages ▸ hkey, hcurrent⟩ fun text hnav => ?_
  rw [hrow, hindex]
  by_cases hsame : s.current = some key
  · rw [if_pos hsame]
    refine hnav.row.imp_right fun hrow => hrow.trans ?_
    rw [currentIndex, hsame]
    rfl
  · rw [if_neg hsame, hnav.length, Option.filter_some, if_pos]
    · exact .inr rfl
    · exact decide_eq_true (idxOf_lt_length_of_mem hkey)

theorem setCurrentIndex_kept (h : Normal qt.toUnicode s.groups) (hsits : Sits s) (index : Nat) :
    Kept s (setCurrentIndex qt s index) := by
  unfold setCurrentIndex
  cases hpage : s.pages[index]? with
  | none => exact Kept.refl hsits
  | some key => exact showPage_kept h (mem_of_getElem? hpage)

theorem showActive_kept (h : Normal qt.toUnicode s.groups) (hsits : Sits s) :
    Kept s (showActive qt s) := by
  unfold showActive
  split_ifs with hactive
  · exact showPage_kept h hactive.2
  · exact Kept.refl hsits

theorem save_kept (qt : Qt) (hsits : Sits s) : Kept s (save qt s) := by
  obtain ⟨saved, hsaved, heq⟩ := save_eq qt s
  rw [heq]
  exact ⟨rfl, rfl, rfl, List.Perm.refl _, hsits, fun _ hnav => .inl ⟨hnav.labels, hnav.row⟩,
    fun _ htitles => htitles, fun _ => ⟨rfl, rfl⟩⟩

theorem applyGroupPresentation_kept (h : Normal qt.toUnicode s.groups) (hsits : Sits s) :
    Kept s (applyGroupPresentation qt s) := by
  obtain ⟨rows, hrows, heq⟩ := applyGroupPresentation_eq h
  rw [heq]
  exact ⟨rfl, rfl, rfl, List.Perm.refl _, hsits,
    fun _ hnav => .inl ⟨hrows.trans hnav.labels, hnav.row⟩, fun _ htitles => htitles,
    fun _ => ⟨rfl, rfl⟩⟩

theorem groups_kept (hsits : Sits s) (groups : Groups) : Kept s { s with groups := groups } :=
  ⟨rfl, rfl, rfl, List.Perm.refl _, hsits, fun _ hnav => .inl ⟨hnav.labels, hnav.row⟩,
    fun _ htitles => htitles, fun _ => ⟨rfl, rfl⟩⟩

/-! ### A managed strip -/

/-- The pages have keys of their own, and the groups agree. -/
structure Managed (qt : Qt) (s : Strip) : Prop where
  managed : s.managed = true
  restoring : s.restoring = false
  normal : Normal qt.toUnicode s.groups
  nodup : s.pages.Nodup
  nil : [] ∉ s.pages
  trimmed : ∀ key ∈ s.pages, trimmed qt.toUnicode key = key
  sits : Sits s

theorem restoreGroupedOrder_kept (h : Managed qt s) : Kept s (restoreGroupedOrder qt s) ∧
    (restoreGroupedOrder qt s).groups = s.groups ∧
    (restoreGroupedOrder qt s).restoring = s.restoring ∧
    (restoreGroupedOrder qt s).saved = s.saved ∧
    (restoreGroupedOrder qt s).pages = s.desired qt := by
  obtain ⟨c, hc, hcurrent⟩ := h.sits
  cases htabs : s.tabs with
  | true =>
    obtain ⟨hmoved, hsaved, hpages, -⟩ := restoreGroupedOrder_tabs htabs h.normal h.managed h.nodup
      h.nil hc hcurrent
    exact ⟨hmoved.kept htabs h.sits, hmoved.groups, hmoved.restoring, hsaved, hpages⟩
  | false =>
    obtain ⟨hsent, hsaved, hpages, hresting, -, hrow, hlabels⟩ := restoreGroupedOrder_stack htabs
      h.normal h.managed h.nodup h.nil hc hcurrent
    have hperm := desired_perm h.normal h.nodup h.nil
    refine ⟨⟨hsent.tabs, hsent.managed, hsent.title, hpages ▸ hperm, ?_,
      fun text hnav => .inl ⟨?_, .inl hrow⟩, fun htabs' => ?_,
      fun _ => ⟨hsent.titles, hsent.bound⟩⟩, hsent.groups, hsent.restoring, hsaved, hpages⟩
    · have hne : s.desired qt ≠ [] := fun heq => not_mem_nil (heq ▸ hperm.mem_iff.mpr hc)
      have hlt : (s.desired qt).length - 2 < (s.desired qt).length := by
        have hpos := length_pos_iff.mpr hne
        omega
      refine ⟨(s.desired qt)[(s.desired qt).length - 2], ?_, ?_⟩
      · rw [hpages]
        exact getElem_mem hlt
      · rw [hresting, resting, getElem?_eq_getElem hlt]
    · rw [hlabels text hnav.labels, hpages]
    · rw [htabs] at htabs'
      exact Bool.noConfusion htabs'

theorem Managed.of_kept (h : Managed qt s) (hkept : Kept s s') (hgroups : s'.groups = s.groups)
    (hrestoring : s'.restoring = s.restoring) : Managed qt s' :=
  ⟨hkept.managed.trans h.managed, hrestoring.trans h.restoring, hgroups ▸ h.normal,
    hkept.pages.nodup_iff.mpr h.nodup, fun hmem => h.nil (hkept.pages.mem_iff.mp hmem),
    fun key hkey => h.trimmed key (hkept.pages.mem_iff.mp hkey), hkept.sits⟩

theorem Kept.of_restoring {flag flag' : Bool} {groups : Groups}
    (h : Kept { s with restoring := flag } s') :
    Kept s { s' with groups := groups, restoring := flag' } :=
  ⟨h.tabs, h.managed, h.title, h.pages, h.sits,
    fun text hnav => (h.nav text ⟨hnav.labels, hnav.row⟩).imp
      (fun hnav => ⟨hnav.labels, hnav.row⟩) (fun hnav => ⟨hnav.labels, hnav.row⟩),
    h.titles, h.bound⟩

/-- The loop of `restoreOrder` over the saved order. -/
def placed (qt : Qt) (s : Strip) (order : List QString) : Strip :=
  if s.tabs then moveTabs qt s 0 order
  else
    let wanted := order.filter (s.pages.contains ·)
    let arranged := arrangeStack qt s (wanted ++ s.pages.filter fun key => !wanted.contains key)
    { arranged.1 with rows := addItems arranged.2 0 arranged.1.pages }

/-- There is a saved object that `load` and `restoreOrder` read. -/
def Readable (s : Strip) (blob : Blob) : Prop :=
  s.saved = some blob ∧ (blob.schema = 1 ∨ blob.schema = 2 ∨ blob.schema = 3)

theorem restoreOrder_eq {blob : Blob} (h : Readable s blob) : restoreOrder qt s =
    let s' := showActive qt (placed qt { s with restoring := true } blob.order)
    { s' with groups := ensureGroupMetadata qt.toUnicode s'.groups, restoring := s.restoring } := by
  unfold restoreOrder
  rw [h.1]
  exact if_pos h.2

theorem load_eq {blob : Blob} (h : Readable s blob) : load qt s =
    { s with
      groups := loadGroups qt blob
      active := if 2 ≤ blob.schema then trimmed qt.toUnicode blob.active else [] } := by
  unfold load
  rw [h.1]
  exact if_pos h.2

theorem load_restoreOrder_of_not (h : ∀ blob, ¬ Readable s blob) :
    load qt s = s ∧ restoreOrder qt s = s := by
  unfold load restoreOrder
  cases hsaved : s.saved with
  | none => exact ⟨rfl, rfl⟩
  | some blob =>
    have hschema := fun hschema => h blob ⟨hsaved, hschema⟩
    exact ⟨if_neg hschema, if_neg hschema⟩

theorem placed_kept (hnormal : Normal qt.toUnicode s.groups) (hmanaged : s.managed = true)
    (hnodup : s.pages.Nodup) (hsits : Sits s) (order : List QString) :
    Kept s (placed qt s order) ∧ (placed qt s order).groups = s.groups ∧
      (placed qt s order).restoring = s.restoring ∧
      (s.restoring = true → (placed qt s order).saved = s.saved) := by
  unfold placed
  obtain ⟨c, hc, hcurrent⟩ := hsits
  cases htabs : s.tabs with
  | true =>
    rw [if_pos rfl]
    obtain ⟨hmoved, -⟩ := moveTabs_perm order s 0 c hnormal hc hcurrent
    exact ⟨hmoved.kept htabs ⟨c, hc, hcurrent⟩, hmoved.groups, hmoved.restoring, hmoved.saved⟩
  | false =>
    rw [if_neg Bool.false_ne_true]
    simp only
    generalize horder : (order.filter (s.pages.contains ·) ++
      s.pages.filter fun key => !(order.filter (s.pages.contains ·)).contains key) = wanted
    have hsub : ∀ w ∈ wanted, w ∈ s.pages := by
      intro w hw
      rw [← horder] at hw
      rcases mem_append.mp hw with hw | hw
      · exact contains_iff_mem.mp (mem_filter.mp hw).2
      · exact (mem_filter.mp hw).1
    obtain ⟨hsent, hperm, ⟨c', hc', hcurrent'⟩, -, hcarries⟩ :=
      arrangeStack_spec hnormal hmanaged hnodup hsub hc hcurrent
    refine ⟨⟨hsent.tabs, hsent.managed, hsent.title, hperm,
      ⟨c', hperm.mem_iff.mpr hc', hcurrent'⟩, fun text hnav => .inl ⟨?_, .inl ?_⟩,
      fun htabs' => ?_, fun _ => ⟨hsent.titles, hsent.bound⟩⟩, hsent.groups, hsent.restoring,
      hsent.saved⟩
    · show (addItems _ 0 _).map Row.label = _
      rw [addItems_labels (hcarries text hnav.labels) _ _ fun w hw => hperm.mem_iff.mp hw]
      refine congrArg (List.mapIdx · _) ?_
      funext i key
      rw [Nat.zero_add]
    · exact hsent.row rfl rfl
    · rw [htabs] at htabs'
      exact Bool.noConfusion htabs'

theorem showActive_still (hnormal : Normal qt.toUnicode s.groups) :
    (showActive qt s).groups = s.groups ∧ (showActive qt s).restoring = s.restoring ∧
      (s.restoring = true → (showActive qt s).saved = s.saved) ∧
      (showActive qt s).pages = s.pages := by
  unfold showActive
  split_ifs
  · obtain ⟨hsent, hpages, -⟩ := showPage_spec hnormal s.active
    exact ⟨hsent.groups, hsent.restoring, hsent.saved, hpages⟩
  · exact ⟨rfl, rfl, fun _ => rfl, rfl⟩

theorem restoreOrder_kept (h : Managed qt s) : Kept s (restoreOrder qt s) ∧
    (restoreOrder qt s).groups = s.groups ∧ (restoreOrder qt s).restoring = s.restoring ∧
    (restoreOrder qt s).saved = s.saved := by
  by_cases hreadable : ∃ blob, Readable s blob
  · obtain ⟨blob, hreadable⟩ := hreadable
    have hnormal : Normal qt.toUnicode ({ s with restoring := true } : Strip).groups := h.normal
    obtain ⟨hkept, hgroups, hrestoring, hsaved⟩ := placed_kept hnormal h.managed h.nodup h.sits
      blob.order
    rw [restoreOrder_eq hreadable]
    generalize placed qt { s with restoring := true } blob.order = s₁
      at hkept hgroups hrestoring hsaved
    have hnormal₁ : Normal qt.toUnicode s₁.groups := hgroups ▸ hnormal
    obtain ⟨hgroups₂, -, hsaved₂, -⟩ := showActive_still hnormal₁
    simp only
    rw [hgroups₂, hgroups, ensure_of_normal hnormal]
    exact ⟨Kept.of_restoring (hkept.trans (showActive_kept hnormal₁ hkept.sits)), rfl, trivial,
      (hsaved₂ hrestoring).trans (hsaved rfl)⟩
  · have hsame : restoreOrder qt s = s :=
      (load_restoreOrder_of_not fun blob hb => hreadable ⟨blob, hb⟩).2
    rw [hsame]
    exact ⟨Kept.refl h.sits, rfl, rfl, rfl⟩

/-! ### A new manager -/

theorem normal_empty (u : Unicode) : Normal u Groups.empty := by
  refine ⟨fun n hn => absurd hn not_mem_nil, List.Pairwise.nil,
    fun n hn => absurd hn not_mem_nil, fun n m hm => ?_, fun tab n hn => ?_⟩
  · exact (nomatch (hm : (none : Option GroupMetadata) = some m))
  · exact (nomatch (hn : (none : Option QString) = some n))

/-- Keys are trimmed and not empty. -/
def Clean {ν : Type} (u : Unicode) (m : SortedMap QString ν) : Prop :=
  ∀ key, m.value key ≠ none → trimmed u key = key ∧ key ≠ []

theorem insert_clean {ν : Type} {u : Unicode} {m : SortedMap QString ν} {P : ν → Prop}
    (h : Clean u m ∧ ∀ key v, m.value key = some v → P v) (key : QString) {v : ν} (hv : P v) :
    Clean u (if trimmed u key = [] then m else m.insert (trimmed u key) v) ∧
      ∀ key' v', (if trimmed u key = [] then m else m.insert (trimmed u key) v).value key' =
        some v' → P v' := by
  by_cases hnil : trimmed u key = []
  · rw [if_pos hnil]
    exact h
  rw [if_neg hnil]
  refine ⟨fun key' hkey => ?_, fun key' v' hkey => ?_⟩
  · rw [SortedMap.value_insert] at hkey
    by_cases heq : key' = trimmed u key
    · rw [heq]
      exact ⟨trimmed_trimmed key, hnil⟩
    · rw [if_neg heq] at hkey
      exact h.1 key' hkey
  · rw [SortedMap.value_insert] at hkey
    by_cases heq : key' = trimmed u key
    · rw [if_pos heq] at hkey
      exact Option.some.inj hkey ▸ hv
    · rw [if_neg heq] at hkey
      exact h.2 key' v' hkey

theorem loadGroups_spec (qt : Qt) (blob : Blob) : Normal qt.toUnicode (loadGroups qt blob) ∧
    Clean qt.toUnicode (loadGroups qt blob).pinned := by
  have hnone : ∀ {ν : Type} {P : ν → Prop}, Clean qt.toUnicode (SortedMap.empty : SortedMap _ ν) ∧
      ∀ key v, (SortedMap.empty : SortedMap QString ν).value key = some v → P v :=
    ⟨fun key hkey => absurd rfl hkey, fun key v hkey => (nomatch hkey)⟩
  have hpinned : Clean qt.toUnicode (blob.pinned.foldl (fun m key =>
      if trimmed qt.toUnicode key = [] then m else m.insert (trimmed qt.toUnicode key) ())
      SortedMap.empty) := by
    refine (List.foldlRecOn (motive := fun m => Clean qt.toUnicode m ∧
      ∀ key (v : Unit), m.value key = some v → True) _ _ hnone fun m hm key _ => ?_).1
    exact insert_clean hm key trivial
  have hgroups : ∀ key v, (blob.groups.entries.foldl (fun m e =>
      if trimmed qt.toUnicode e.1 = [] then m
      else m.insert (trimmed qt.toUnicode e.1) (trimmed qt.toUnicode e.2))
      SortedMap.empty).value key = some v → trimmed qt.toUnicode v = v := by
    refine (List.foldlRecOn (motive := fun m => Clean qt.toUnicode m ∧
      ∀ key v, m.value key = some v → trimmed qt.toUnicode v = v) _ _ hnone fun m hm e _ => ?_).2
    exact insert_clean hm e.1 (trimmed_trimmed e.2)
  have hmetadata : Clean qt.toUnicode (blob.metadata.entries.foldl (fun m e =>
      if trimmed qt.toUnicode e.1 = [] then m else m.insert (trimmed qt.toUnicode e.1) e.2)
      SortedMap.empty) := by
    refine (List.foldlRecOn (motive := fun m => Clean qt.toUnicode m ∧
      ∀ key (v : GroupMetadata), m.value key = some v → True) _ _ hnone fun m hm e _ => ?_).1
    exact insert_clean hm e.1 trivial
  refine ⟨normal_ensure fun n hn => ?_, hpinned⟩
  rcases mem_append.mp hn with hn | hn
  · rcases mem_append.mp hn with hn | hn
    · simp only at hn
      split_ifs at hn
      · obtain ⟨name, -, rfl⟩ := mem_map.mp (mem_filter.mp hn).1
        exact trimmed_trimmed name
      · exact absurd hn not_mem_nil
    · have hkey := SortedMap.mem_keys.mp hn
      split_ifs at hkey
      · exact (hmetadata n hkey).1
      · exact absurd rfl hkey
  · obtain ⟨tab, htab⟩ := SortedMap.mem_values.mp hn
    exact hgroups tab n htab

/-- A strip on which a manager can start: `assignStablePageKeys` has given each page a key. -/
structure Ready (qt : Qt) (s : Strip) : Prop where
  restoring : s.restoring = false
  nodup : s.pages.Nodup
  nil : [] ∉ s.pages
  trimmed : ∀ key ∈ s.pages, trimmed qt.toUnicode key = key
  sits : Sits s

def loaded (qt : Qt) (s : Strip) : Strip :=
  load qt { s with managed := true, active := [], groups := Groups.empty }

theorem loaded_spec (h : Ready qt s) : Managed qt (loaded qt s) ∧
    Kept { s with managed := true } (loaded qt s) ∧ (loaded qt s).pages = s.pages ∧
    (loaded qt s).current = s.current ∧ (loaded qt s).saved = s.saved ∧
    Clean qt.toUnicode (loaded qt s).groups.pinned := by
  have hkept : ∀ groups active, Kept { s with managed := true }
      { s with managed := true, active := active, groups := groups } := by
    intro groups active
    exact ⟨rfl, rfl, rfl, List.Perm.refl _, h.sits,
      fun _ hnav => .inl ⟨hnav.labels, hnav.row⟩, fun _ htitles => htitles, fun _ => ⟨rfl, rfl⟩⟩
  have hmanaged : ∀ groups active, Normal qt.toUnicode groups → Managed qt
      { s with managed := true, active := active, groups := groups } :=
    fun groups active hnormal =>
      ⟨rfl, h.restoring, hnormal, h.nodup, h.nil, h.trimmed, h.sits⟩
  unfold loaded
  by_cases hreadable : ∃ blob, Readable s blob
  · obtain ⟨blob, hreadable⟩ := hreadable
    have hreadable' : Readable
      { s with managed := true, active := [], groups := Groups.empty } blob := hreadable
    rw [load_eq hreadable']
    exact ⟨hmanaged _ _ (loadGroups_spec qt blob).1, hkept _ _, rfl, rfl, rfl,
      (loadGroups_spec qt blob).2⟩
  · have hnot : ∀ blob, ¬ Readable
        { s with managed := true, active := [], groups := Groups.empty } blob :=
      fun blob hb => hreadable ⟨blob, hb⟩
    rw [(load_restoreOrder_of_not hnot).1]
    exact ⟨hmanaged _ _ (normal_empty _), hkept _ _, rfl, rfl, rfl, fun key hkey => absurd rfl hkey⟩

/-- The pages stand in the promised order. -/
def InOrder (qt : Qt) (s : Strip) : Prop :=
  s.pages.Pairwise fun a b => rank qt.toUnicode s.groups a ≤ rank qt.toUnicode s.groups b

theorem restoreGroupedOrder_inOrder (h : Managed qt s) : InOrder qt (restoreGroupedOrder qt s) := by
  obtain ⟨-, hgroups, -, -, hpages⟩ := restoreGroupedOrder_kept h
  unfold InOrder
  rw [hgroups, hpages, desired_eq h.normal h.nodup h.nil]
  exact Arrange.buckets_sorted _ _ _

end Sandboxie.Tabs
