import Sandboxie.Plus.TabArrange

/-!
# The order that is restored

The moves of a tab bar, each of which has the list built anew, and what `restoreGroupedOrder`
and `restoreOrder` leave for both kinds of containers: the pages stand in the order of their
groups (`rank`), and which page is the current one.
-/

namespace Sandboxie.Tabs

open List

variable {qt : Qt} {s s' s'' : Strip}

/-- The list was just built. -/
structure Listed (s : Strip) : Prop where
  labels : s.rows.map Row.label = Strip.labels s.title s.pages
  row : s.row = s.currentIndex
  titles : s.titles = s.pages.map s.title
  bound : s.bound = s.pages

/-- Tabs were moved. -/
structure Moved (s s' : Strip) : Prop where
  tabs : s'.tabs = s.tabs
  managed : s'.managed = s.managed
  restoring : s'.restoring = s.restoring
  groups : s'.groups = s.groups
  title : s'.title = s.title
  current : s'.current = s.current
  saved : s.restoring = true → s'.saved = s.saved
  pages : s'.pages.Perm s.pages
  list : s' = s ∨ Listed s'

theorem Moved.refl (s : Strip) : Moved s s :=
  ⟨rfl, rfl, rfl, rfl, rfl, rfl, fun _ => rfl, List.Perm.refl _, .inl rfl⟩

theorem Moved.trans (h : Moved s s') (h' : Moved s' s'') : Moved s s'' := by
  refine ⟨h'.tabs.trans h.tabs, h'.managed.trans h.managed, h'.restoring.trans h.restoring,
    h'.groups.trans h.groups, h'.title.trans h.title, h'.current.trans h.current,
    fun hr => (h'.saved (h.restoring.trans hr)).trans (h.saved hr), h'.pages.trans h.pages, ?_⟩
  rcases h'.list with rfl | hlisted
  · exact h.list
  · exact .inr hlisted

namespace Strip

/-! ### Moves of tabs -/

theorem tabMoved_spec (h : Normal qt.toUnicode s.groups) {c : QString} (hc : c ∈ s.pages)
    (hcurrent : s.current = some c) : Moved s (tabMoved qt s) ∧ Listed (tabMoved qt s) ∧
      (tabMoved qt s).pages = s.pages ∧ (tabMoved qt s).active = s.active := by
  have hrow : s.currentIndex.filter (· < (s.rebuildNavigation).rows.length) = s.currentIndex := by
    have hlength : (s.rebuildNavigation).rows.length = s.pages.length := length_mapIdx
    rw [hlength, currentIndex, hcurrent, Option.map_some, Option.filter_some, if_pos]
    exact decide_eq_true (idxOf_lt_length_of_mem hc)
  have hlabels : (s.rebuildNavigation).rows.map Row.label = labels s.title s.pages := by
    unfold rebuildNavigation labels
    simp only
    refine ext_getElem (by simp) fun i hi hi' => ?_
    rw [getElem_map, getElem_mapIdx, getElem_mapIdx]
    rfl
  generalize hlist : s.rebuildNavigation.setCurrentRow s.currentIndex = s₁
  have hlisted : Listed s₁ := by
    rw [← hlist]
    exact ⟨hlabels, hrow, rfl, rfl⟩
  have hmoved : Moved s s₁ := by
    rw [← hlist]
    exact ⟨rfl, rfl, rfl, rfl, rfl, rfl, fun _ => rfl, List.Perm.refl _, .inr (hlist ▸ hlisted)⟩
  have hsame : s₁.pages = s.pages ∧ s₁.active = s.active := by
    rw [← hlist]
    exact ⟨rfl, rfl⟩
  have htold : tabMoved qt s =
    if s₁.managed then save qt (applyGroupPresentation qt s₁) else s₁ := by
    rw [← hlist]
    rfl
  rw [htold]
  by_cases hmanaged : s₁.managed = true
  · rw [if_pos hmanaged]
    obtain ⟨rows, hrows, heq⟩ := applyGroupPresentation_eq (s := s₁) (hmoved.groups ▸ h)
    rw [heq]
    obtain ⟨saved, hsaved, heq⟩ := save_eq qt { s₁ with rows := rows }
    rw [heq]
    have hlisted' : Listed { s₁ with rows := rows, saved := saved } :=
      ⟨hrows.trans hlisted.labels, hlisted.row, hlisted.titles, hlisted.bound⟩
    exact ⟨⟨hmoved.tabs, hmoved.managed, hmoved.restoring, hmoved.groups, hmoved.title,
      hmoved.current, fun hr => (hsaved (hmoved.restoring.trans hr)).trans (hmoved.saved hr),
      hmoved.pages, .inr hlisted'⟩, hlisted', hsame⟩
  · rw [if_neg hmanaged]
    exact ⟨hmoved, hlisted, hsame⟩

/-- A tab is moved.  When this changes the index of the current tab, it becomes the active one. -/
theorem moveTab_spec (h : Normal qt.toUnicode s.groups) {c : QString} (hc : c ∈ s.pages)
    (hcurrent : s.current = some c) {i target : Nat} (hi : i < s.pages.length)
    (htarget : target < s.pages.length) (hne : i ≠ target) :
    Moved s (moveTab qt s i target) ∧ Listed (moveTab qt s i target) ∧
      (moveTab qt s i target).pages = Arrange.move s.pages i target ∧
      (moveTab qt s i target).active =
        if s.managed = true ∧ (Arrange.move s.pages i target).idxOf c ≠ s.pages.idxOf c then c
        else s.active := by
  have hperm := Arrange.move_perm s.pages hi htarget
  have hnormal : Normal qt.toUnicode
    ({ s with pages := Arrange.move s.pages i target } : Strip).groups := h
  have hc' : c ∈ ({ s with pages := Arrange.move s.pages i target } : Strip).pages :=
    hperm.mem_iff.mpr hc
  obtain ⟨hmoved, hlisted, hpages, hactive⟩ := tabMoved_spec hnormal hc' hcurrent
  unfold moveTab
  rw [if_pos ⟨hi, htarget, hne⟩]
  simp only
  generalize tabMoved qt { s with pages := Arrange.move s.pages i target } = s₁
    at hmoved hlisted hpages hactive
  have hmoved' : Moved s s₁ := ⟨hmoved.tabs, hmoved.managed, hmoved.restoring, hmoved.groups,
    hmoved.title, hmoved.current, hmoved.saved, hmoved.pages.trans hperm, .inr hlisted⟩
  have hcurrent₁ : s₁.current = some c := hmoved.current.trans hcurrent
  have hindex : s₁.currentIndex = some ((Arrange.move s.pages i target).idxOf c) := by
    rw [currentIndex, hcurrent₁, hpages]
    rfl
  have hindex' : s.currentIndex = some (s.pages.idxOf c) := by
    rw [currentIndex, hcurrent]
    rfl
  by_cases hsame : s₁.currentIndex = s.currentIndex
  · rw [if_pos hsame]
    rw [hindex, hindex'] at hsame
    rw [if_neg fun hand => hand.2 (Option.some.inj hsame)]
    exact ⟨hmoved', hlisted, hpages, hactive⟩
  · rw [if_neg hsame]
    have hdiffer : (Arrange.move s.pages i target).idxOf c ≠ s.pages.idxOf c := by
      intro heq
      rw [hindex, hindex', heq] at hsame
      exact hsame rfl
    obtain ⟨hsent, hpages₂, hcurrent₂, hrow₂, hactive₂⟩ :=
      currentChanged_spec (hmoved.groups ▸ h : Normal qt.toUnicode s₁.groups)
    have hlabels₂ := hsent.labels.trans hlisted.labels
    have hlisted₂ : Listed (currentChanged qt s₁) := by
      refine ⟨?_, ?_, ?_, ?_⟩
      · rw [hlabels₂, hpages₂, hsent.title]
      · have hlength : s₁.rows.length = s₁.pages.length := by
          rw [← length_map Row.label, hlisted.labels]
          exact length_mapIdx
        rw [hrow₂, currentIndex, currentIndex, hcurrent₂, hpages₂, hcurrent₁, hlength,
          Option.map_some, Option.filter_some, if_pos]
        exact decide_eq_true (idxOf_lt_length_of_mem (hpages ▸ hc'))
      · rw [hsent.titles, hlisted.titles, hpages₂, hsent.title]
      · rw [hsent.bound, hlisted.bound, hpages₂]
    refine ⟨⟨hsent.tabs.trans hmoved.tabs, hsent.managed.trans hmoved.managed,
      hsent.restoring.trans hmoved.restoring, hsent.groups.trans hmoved.groups,
      hsent.title.trans hmoved.title, hcurrent₂.trans hmoved.current,
      fun hr => (hsent.saved (hmoved.restoring.trans hr)).trans (hmoved.saved hr), ?_,
      .inr hlisted₂⟩, hlisted₂, hpages₂.trans hpages, ?_⟩
    · rw [hpages₂, hpages]
      exact hperm
    · rw [hactive₂, hmoved.managed]
      by_cases hmanaged : s.managed = true
      · rw [if_pos hmanaged, if_pos ⟨hmanaged, hdiffer⟩, hcurrent₁]
        rfl
      · rw [if_neg hmanaged, if_neg fun hand => hmanaged hand.1, hactive]

theorem moveTabs_perm : ∀ (ws : List QString) (s : Strip) (target : Nat) (c : QString),
    Normal qt.toUnicode s.groups → c ∈ s.pages → s.current = some c →
      Moved s (moveTabs qt s target ws) ∧
        ((moveTabs qt s target ws).active = s.active ∨
          (moveTabs qt s target ws).active = c) := by
  intro ws
  induction ws with
  | nil => exact fun s target c _ _ _ => ⟨Moved.refl s, .inl rfl⟩
  | cons w ws ih =>
    intro s target c h hc hcurrent
    rw [moveTabs]
    by_cases hmove : target + (s.pages.drop target).idxOf w < s.pages.length ∧
        target + (s.pages.drop target).idxOf w ≠ target
    · rw [if_pos hmove]
      obtain ⟨hmoved, -, -, hactive⟩ := moveTab_spec h hc hcurrent hmove.1
        (Nat.lt_of_le_of_lt (Nat.le_add_right _ _) hmove.1) hmove.2
      obtain ⟨hmoved', hactive'⟩ := ih (moveTab qt s _ target) (target + 1) c
        (hmoved.groups ▸ h) (hmoved.pages.mem_iff.mpr hc) (hmoved.current.trans hcurrent)
      refine ⟨hmoved.trans hmoved', ?_⟩
      rcases hactive' with hactive' | hactive'
      · rw [hactive', hactive]
        split_ifs
        · exact .inr rfl
        · exact .inl rfl
      · exact .inr hactive'
    · rw [if_neg hmove]
      exact ih s (target + 1) c h hc hcurrent

def ahead (c : QString) (pages : List QString) : List QString := pages.takeWhile (· ≠ c)

theorem ahead_append {c : QString} {a : List QString} (h : c ∉ a) (b : List QString) :
    ahead c (a ++ b) = a ++ ahead c b := by
  refine takeWhile_append_of_pos fun x hx => decide_eq_true fun heq => h (heq ▸ hx)

theorem ahead_self (c : QString) (b : List QString) : ahead c (c :: b) = [] :=
  takeWhile_cons_of_neg fun h => of_decide_eq_true h rfl

theorem ahead_cons {c w : QString} (h : w ≠ c) (b : List QString) :
    ahead c (w :: b) = w :: ahead c b :=
  takeWhile_cons_of_pos (decide_eq_true h)

theorem idxOf_eq_ahead {c : QString} {pages : List QString} (h : c ∈ pages) :
    pages.idxOf c = (ahead c pages).length := by
  obtain ⟨a, b, rfl, hnot⟩ := eq_append_cons_of_mem h
  rw [idxOf_append_of_notMem hnot, idxOf_cons_self, ahead_append hnot, ahead_self,
    append_nil, Nat.add_zero]

theorem ahead_move {front x y : List QString} {w c : QString} (hx : x ≠ [])
    (hnodup : (front ++ (x ++ w :: y)).Nodup) (hc : c ∈ front ++ (x ++ w :: y)) :
    ((ahead c (front ++ w :: (x ++ y))).length = (ahead c (front ++ (x ++ w :: y))).length ∧
      (ahead c (front ++ w :: (x ++ y))).Perm (ahead c (front ++ (x ++ w :: y)))) ∨
    ((ahead c (front ++ w :: (x ++ y))).length ≠ (ahead c (front ++ (x ++ w :: y))).length ∧
      ∀ ws, ¬ (ahead c (front ++ (x ++ w :: y))).Perm (ahead c (front ++ w :: ws))) := by
  obtain ⟨-, hrest, hfront⟩ := nodup_append.mp hnodup
  obtain ⟨-, hwy, hxw⟩ := nodup_append.mp hrest
  by_cases hcf : c ∈ front
  · obtain ⟨a, b, rfl, hnot⟩ := eq_append_cons_of_mem hcf
    have hahead : ∀ l, ahead c (a ++ c :: b ++ l) = a := by
      intro l
      rw [append_assoc, cons_append, ahead_append hnot, ahead_self, append_nil]
    rw [hahead, hahead]
    exact .inl ⟨rfl, List.Perm.refl a⟩
  · rw [ahead_append hcf, ahead_append hcf]
    simp only [ahead_append hcf, length_append, perm_append_left_iff,
      Nat.add_left_cancel_iff, ne_eq]
    by_cases hcw : c = w
    · subst hcw
      have hcx : c ∉ x := fun hmem => hxw c hmem c mem_cons_self rfl
      rw [ahead_append hcx, ahead_self, ahead_self, append_nil]
      refine .inr ⟨fun hlen => hx (length_eq_zero_iff.mp hlen.symm), fun ws hperm => ?_⟩
      rw [ahead_self] at hperm
      exact hx hperm.eq_nil
    · have hwc : w ≠ c := fun heq => hcw heq.symm
      rw [ahead_cons hwc]
      by_cases hcx : c ∈ x
      · obtain ⟨a, b, rfl, hnot⟩ := eq_append_cons_of_mem hcx
        have hahead : ∀ l, ahead c (a ++ c :: b ++ l) = a := by
          intro l
          rw [append_assoc, cons_append, ahead_append hnot, ahead_self, append_nil]
        rw [hahead, hahead]
        refine .inr ⟨fun hlen => absurd hlen (Nat.succ_ne_self _), fun ws hperm => ?_⟩
        rw [ahead_cons hwc] at hperm
        have hmem : w ∈ a := hperm.mem_iff.mpr mem_cons_self
        exact hxw w (mem_append_left _ hmem) w mem_cons_self rfl
      · rw [ahead_append hcx, ahead_append hcx, ahead_cons hwc]
        have hperm : (w :: (x ++ ahead c y)).Perm (x ++ w :: ahead c y) := perm_middle.symm
        exact .inl ⟨hperm.length_eq, hperm⟩

/-- The tabs come into the wanted order.  The current one becomes the active one when other tabs
were ahead of it. -/
theorem moveTabs_spec : ∀ (ws : List QString) (s : Strip) (front rest : List QString)
    (c : QString), Normal qt.toUnicode s.groups → s.managed = true → s.pages = front ++ rest →
      s.pages.Nodup → ws.Perm rest → c ∈ s.pages → s.current = some c →
        (moveTabs qt s front.length ws).pages = front ++ ws ∧
        (moveTabs qt s front.length ws).active =
          if (ahead c (front ++ rest)).Perm (ahead c (front ++ ws)) then s.active else c := by
  intro ws
  induction ws with
  | nil =>
    intro s front rest c _ _ hpages _ hperm _ _
    obtain rfl := hperm.nil_eq
    rw [if_pos (List.Perm.refl _)]
    exact ⟨hpages, rfl⟩
  | cons w ws ih =>
    intro s front rest c h hmanaged hpages hnodup hperm hc hcurrent
    obtain ⟨x, y, rfl, hwx⟩ := eq_append_cons_of_mem (hperm.mem_iff.mp mem_cons_self)
    have hws : ws.Perm (x ++ y) := (perm_middle.symm.trans hperm.symm).symm.cons_inv
    have hindex : front.length + (s.pages.drop front.length).idxOf w =
        front.length + x.length := by
      rw [hpages, drop_left, idxOf_append_of_notMem hwx, idxOf_cons_self,
        Nat.add_zero]
    have hlength : s.pages.length = front.length + (x.length + (y.length + 1)) := by
      rw [hpages, length_append, length_append, length_cons]
    rw [moveTabs, hindex]
    by_cases hx : x = []
    · -- The tab is in its place already.
      subst hx
      rw [if_neg fun hand => hand.2 rfl]
      have hpages' : s.pages = (front ++ [w]) ++ y := by
        rw [hpages, append_assoc]
        rfl
      obtain ⟨hpages'', hactive⟩ := ih s
        (front ++ [w]) y c h hmanaged hpages' hnodup hws hc hcurrent
      rw [length_append, length_singleton, append_assoc, append_assoc,
        singleton_append, singleton_append] at hactive
      rw [length_append, length_singleton, append_assoc, singleton_append]
        at hpages''
      exact ⟨hpages'', hactive⟩
    · have hpos : 0 < x.length := length_pos_iff.mpr hx
      rw [if_pos ⟨by omega, by omega⟩]
      obtain ⟨hmoved, -, hpages₁, hactive₁⟩ := moveTab_spec h hc hcurrent
        (show front.length + x.length < s.pages.length by omega)
        (show front.length < s.pages.length by omega) (by omega)
      generalize moveTab qt s (front.length + x.length) front.length = s₁
        at hmoved hpages₁ hactive₁
      have hmove : Arrange.move s.pages (front.length + x.length) front.length =
          front ++ w :: (x ++ y) := by
        rw [hpages, Arrange.move_left]
      rw [hmove] at hpages₁ hactive₁
      have hpages₂ : s₁.pages = (front ++ [w]) ++ (x ++ y) := by
        rw [hpages₁, append_assoc, singleton_append]
      have hc₁ : c ∈ s₁.pages := hmoved.pages.mem_iff.mpr hc
      obtain ⟨hpages'', hactive⟩ := ih s₁ (front ++ [w]) (x ++ y) c (hmoved.groups ▸ h)
        (hmoved.managed.trans hmanaged) hpages₂ (hmoved.pages.nodup_iff.mpr hnodup) hws hc₁
        (hmoved.current.trans hcurrent)
      rw [length_append, length_singleton, append_assoc, append_assoc,
        singleton_append, singleton_append] at hactive
      rw [length_append, length_singleton, append_assoc, singleton_append]
        at hpages''
      refine ⟨hpages'', ?_⟩
      rw [hactive, hactive₁, idxOf_eq_ahead hc, idxOf_eq_ahead (hpages₁ ▸ hc₁), hpages]
      rw [hpages] at hnodup hc
      rcases ahead_move hx hnodup hc with ⟨hlen, hperm'⟩ | ⟨hlen, hnot⟩
      · rw [if_neg (fun hand : s.managed = true ∧ _ ≠ _ => hand.2 hlen)]
        refine if_congr ⟨fun hp => hperm'.symm.trans hp, fun hp => hperm'.trans hp⟩ rfl rfl
      · rw [if_pos (And.intro hmanaged hlen), if_neg (hnot ws), ite_self]

end Strip

/-! ### The place of a tab -/

variable {u : Unicode} {g : Groups}

/-- The place that a tab is promised: the pinned ones come first, then the members of each group
in the order of the groups, and the others last. -/
def rank (u : Unicode) (g : Groups) (key : QString) : Nat :=
  if g.isPinned key then 0
  else if groupForTab u g key = [] then g.groupOrder.length + 1
  else g.groupOrder.idxOf (groupForTab u g key) + 1

theorem rank_lt (u : Unicode) (g : Groups) (key : QString) :
    rank u g key < g.groupOrder.length + 2 := by
  have hle : g.groupOrder.idxOf (groupForTab u g key) ≤ g.groupOrder.length :=
    idxOf_le_length
  unfold rank
  split_ifs <;> omega

theorem Normal.groupForTab (h : Normal u g) (key : QString) :
    g.groups.value key = none ∧ groupForTab u g key = [] ∨
    ∃ n ∈ g.groupOrder, g.groups.value key = some n ∧ Tabs.groupForTab u g key = n ∧ n ≠ [] := by
  unfold Tabs.groupForTab
  cases hvalue : g.groups.value key with
  | none => exact .inl ⟨rfl, rfl⟩
  | some n =>
    obtain ⟨hmem, -⟩ := h.groups key n hvalue
    obtain ⟨hproper, htrimmed⟩ := h.proper n hmem
    exact .inr ⟨n, hmem, rfl, htrimmed, hproper.1⟩

theorem rank_eq_succ (h : Normal u g) (key : QString) {i : Nat} (hi : i < g.groupOrder.length) :
    (!g.isPinned key && sameName u (groupForTab u g key) g.groupOrder[i]) =
      decide (rank u g key = i + 1) := by
  rw [Bool.eq_iff_iff, decide_eq_true_iff, Bool.and_eq_true_iff, Bool.not_eq_true', sameName_iff]
  unfold rank
  by_cases hpinned : g.isPinned key = true
  · rw [if_pos hpinned, hpinned]
    exact ⟨fun hand => Bool.noConfusion hand.1, fun heq => absurd heq.symm (Nat.succ_ne_zero i)⟩
  rw [if_neg hpinned]
  rcases h.groupForTab key with ⟨-, hnone⟩ | ⟨n, hmem, -, hgroup, hne⟩
  · rw [if_pos hnone, hnone]
    refine ⟨fun hand => ?_, fun heq => by omega⟩
    have hproper := (h.proper _ (getElem_mem hi)).1
    exact absurd (u.fold_nil _ hand.2.symm) hproper.1
  · rw [hgroup, if_neg hne]
    refine ⟨fun hand => ?_, fun heq => ⟨Bool.not_eq_true _ ▸ hpinned, ?_⟩⟩
    · rw [h.distinct.eq hmem (getElem_mem hi) hand.2, h.distinct.nodup.idxOf_getElem i hi]
    · have hidx : g.groupOrder.idxOf n = i := Nat.succ.inj heq
      have hlt := idxOf_lt_length_of_mem hmem
      have hget : g.groupOrder[g.groupOrder.idxOf n] = n := getElem_idxOf hlt
      simp only [hidx] at hget
      rw [hget]

theorem rank_eq_zero (key : QString) : g.isPinned key = decide (rank u g key = 0) := by
  unfold rank
  cases hpinned : g.isPinned key with
  | true => rfl
  | false =>
    rw [if_neg Bool.false_ne_true]
    split_ifs <;> rfl

theorem rank_eq_last (h : Normal u g) (key : QString) :
    (!g.isPinned key && decide (groupForTab u g key = [])) =
      decide (rank u g key = g.groupOrder.length + 1) := by
  rw [Bool.eq_iff_iff, decide_eq_true_iff, Bool.and_eq_true_iff, Bool.not_eq_true',
    decide_eq_true_iff]
  unfold rank
  by_cases hpinned : g.isPinned key = true
  · rw [if_pos hpinned, hpinned]
    exact ⟨fun hand => Bool.noConfusion hand.1, fun heq => absurd heq.symm (Nat.succ_ne_zero _)⟩
  · rw [if_neg hpinned]
    rcases h.groupForTab key with ⟨-, hnone⟩ | ⟨n, hmem, -, hgroup, hne⟩
    · rw [if_pos hnone]
      exact ⟨fun _ => rfl, fun _ => ⟨Bool.not_eq_true _ ▸ hpinned, hnone⟩⟩
    · rw [hgroup, if_neg hne]
      refine ⟨fun hand => absurd hand.2 hne, fun heq => ?_⟩
      exact absurd (Nat.succ.inj heq) (Nat.ne_of_lt (idxOf_lt_length_of_mem hmem))

namespace Strip

theorem foldl_append_keys : ∀ (keys result : List QString), keys.Nodup → [] ∉ keys →
    (∀ k ∈ keys, k ∉ result) → keys.foldl (fun (result : List QString) key =>
      if key ≠ [] && !result.contains key then result ++ [key] else result) result =
        result ++ keys := by
  intro keys
  induction keys with
  | nil => exact fun result _ _ _ => (append_nil result).symm
  | cons k keys ih =>
    intro result hnodup hnil hnew
    obtain ⟨hk, hrest⟩ := nodup_cons.mp hnodup
    have hnot : k ∉ result := hnew k mem_cons_self
    have hne : k ≠ [] := fun heq => hnil (heq ▸ mem_cons_self)
    have hcond : (decide (k ≠ []) && !result.contains k) = true := by
      rw [decide_eq_true hne, Bool.true_and, Bool.not_eq_true', ← Bool.not_eq_true,
        contains_iff_mem]
      exact hnot
    rw [foldl_cons, if_pos hcond, ih _ hrest fun hmem => hnil (mem_cons_of_mem k hmem),
      append_assoc, singleton_append]
    intro k' hk' hmem
    rcases mem_append.mp hmem with hmem | hself
    · exact hnew k' (mem_cons_of_mem k hk') hmem
    · exact hk (mem_singleton.mp hself ▸ hk')

theorem desired_eq (h : Normal qt.toUnicode s.groups) (hnodup : s.pages.Nodup)
    (hnil : [] ∉ s.pages) : s.desired qt =
      Arrange.buckets (rank qt.toUnicode s.groups) (s.groups.groupOrder.length + 2) s.pages := by
  have hgrouped := Arrange.flatMap_eq_range (fun groupName => s.pages.filter fun key =>
      !s.groups.isPinned key && sameName qt.toUnicode (groupForTab qt.toUnicode s.groups key)
        groupName) s.groups.groupOrder
    (fun i => s.pages.filter fun key => rank qt.toUnicode s.groups key = i + 1)
    (fun i hi => filter_congr fun key _ => rank_eq_succ h key hi)
  have hpinned : s.pages.filter s.groups.isPinned =
      s.pages.filter fun key => rank qt.toUnicode s.groups key = 0 :=
    filter_congr fun key _ => rank_eq_zero key
  have hungrouped := filter_congr (l := s.pages) fun key _ => rank_eq_last h key
  have hlist : s.pages.filter s.groups.isPinned ++
      (s.groups.groupOrder.flatMap fun groupName => s.pages.filter fun key =>
        !s.groups.isPinned key && sameName qt.toUnicode (groupForTab qt.toUnicode s.groups key)
          groupName) ++
      (s.pages.filter fun key =>
        !s.groups.isPinned key && decide (groupForTab qt.toUnicode s.groups key = [])) =
      Arrange.buckets (rank qt.toUnicode s.groups) (s.groups.groupOrder.length + 2) s.pages := by
    rw [hgrouped, hpinned, hungrouped, Arrange.buckets_succ, Arrange.buckets,
      range_succ_eq_map, flatMap_cons, flatMap_map]
  unfold desired
  simp only
  rw [h.orderedGroupNames, hlist, foldl_append_keys _ [] (Arrange.buckets_nodup hnodup)]
  · rfl
  · exact fun hmem => hnil (Arrange.mem_buckets.mp hmem).1
  · exact fun k _ => not_mem_nil

theorem desired_perm (h : Normal qt.toUnicode s.groups) (hnodup : s.pages.Nodup)
    (hnil : [] ∉ s.pages) : (s.desired qt).Perm s.pages := by
  rw [desired_eq h hnodup hnil]
  exact Arrange.buckets_perm hnodup fun key _ => rank_lt _ _ key

/-! ### The groups' order is restored -/

theorem restored_moved (h : Moved { s with restoring := true } s') :
    Moved s { s' with restoring := s.restoring } ∧ s'.saved = s.saved := by
  refine ⟨⟨h.tabs, h.managed, rfl, h.groups, h.title, h.current, fun _ => h.saved rfl, h.pages,
    ?_⟩, h.saved rfl⟩
  rcases h.list with rfl | hlisted
  · exact .inl rfl
  · exact .inr ⟨hlisted.labels, hlisted.row, hlisted.titles, hlisted.bound⟩

theorem restoreGroupedOrder_tabs (htabs : s.tabs = true) (h : Normal qt.toUnicode s.groups)
    (hmanaged : s.managed = true) (hnodup : s.pages.Nodup) (hnil : [] ∉ s.pages) {c : QString}
    (hc : c ∈ s.pages) (hcurrent : s.current = some c) :
    Moved s (restoreGroupedOrder qt s) ∧ (restoreGroupedOrder qt s).saved = s.saved ∧
      (restoreGroupedOrder qt s).pages = s.desired qt ∧
      (restoreGroupedOrder qt s).active =
        if (ahead c s.pages).Perm (ahead c (s.desired qt)) then s.active else c := by
  have hnormal : Normal qt.toUnicode ({ s with restoring := true } : Strip).groups := h
  have hperm := desired_perm h hnodup hnil
  obtain ⟨hmoved, -⟩ := moveTabs_perm (s.desired qt) { s with restoring := true } 0 c hnormal hc
    hcurrent
  obtain ⟨hpages, hactive⟩ := moveTabs_spec (s.desired qt) { s with restoring := true } [] s.pages
    c hnormal hmanaged rfl hnodup hperm hc hcurrent
  obtain ⟨hmoved', hsaved⟩ := restored_moved hmoved
  have heq : restoreGroupedOrder qt s =
      { moveTabs qt { s with restoring := true } 0
        (s.desired qt) with restoring := s.restoring } := by
    unfold restoreGroupedOrder
    simp only [htabs, if_true]
  rw [heq]
  exact ⟨hmoved', hsaved, hpages, hactive⟩

theorem showActive_of_settled {c : QString} (hsettled : Settled s) (hcurrent : s.current = some c) :
    showActive qt s = s := by
  have hactive : s.current = some s.active := by
    rw [hsettled, hcurrent]
    rfl
  unfold showActive showPage
  rw [if_pos hactive, ite_self]

theorem restoreGroupedOrder_stack (htabs : s.tabs = false) (h : Normal qt.toUnicode s.groups)
    (hmanaged : s.managed = true) (hnodup : s.pages.Nodup) (hnil : [] ∉ s.pages) {c : QString}
    (hc : c ∈ s.pages) (hcurrent : s.current = some c) :
    Sent s.cleared (restoreGroupedOrder qt s).cleared ∧
      (restoreGroupedOrder qt s).saved = s.saved ∧
      (restoreGroupedOrder qt s).pages = s.desired qt ∧
      (restoreGroupedOrder qt s).current = resting (s.desired qt) ∧
      Settled (restoreGroupedOrder qt s) ∧ (restoreGroupedOrder qt s).row = none ∧
      ∀ text, s.rows.map Row.label = labels text s.pages →
        (restoreGroupedOrder qt s).rows.map Row.label = labels text (s.desired qt) := by
  have hperm := desired_perm h hnodup hnil
  have hfilter : (s.desired qt).filter (s.pages.contains ·) = s.desired qt :=
    filter_eq_self.mpr fun key hkey =>
      contains_iff_mem.mpr (hperm.mem_iff.mp hkey)
  have hnormal : Normal qt.toUnicode ({ s with restoring := true } : Strip).groups := h
  obtain ⟨hsent, -, ⟨c', hc', hcurrent'⟩, hexact, hcarries⟩ := arrangeStack_spec hnormal hmanaged
    hnodup (fun w hw => hperm.mem_iff.mp hw) hc hcurrent
  obtain ⟨hpages, hresting, hsettled⟩ := hexact hperm
  have heq : restoreGroupedOrder qt s =
      { showActive qt { (arrangeStack qt { s with restoring := true } (s.desired qt)).1 with
          rows := addGroupedItems (arrangeStack qt { s with restoring := true } (s.desired qt)).2
            [] (s.desired qt) } with
        restoring := s.restoring } := by
    unfold restoreGroupedOrder
    simp only [htabs, hfilter]
    rfl
  generalize arrangeStack qt { s with restoring := true } (s.desired qt) = arranged
    at hsent hcurrent' hpages hresting hsettled hcarries heq
  obtain ⟨s₁, items⟩ := arranged
  -- The active page is the current one, and nothing is left to be shown.
  have hshow : ∀ rows, showActive qt { s₁ with rows := rows } = { s₁ with rows := rows } :=
    fun rows => showActive_of_settled hsettled hcurrent'
  rw [hshow] at heq
  rw [heq]
  refine ⟨⟨hsent.tabs, hsent.managed, rfl, hsent.groups, hsent.title, hsent.titles, hsent.bound,
    fun _ => hsent.saved rfl, rfl, fun _ _ => rfl⟩, hsent.saved rfl, hpages, hresting, hsettled,
    hsent.row rfl rfl, fun text htext => ?_⟩
  show (addGroupedItems items [] (s.desired qt)).map Row.label = _
  rw [addGroupedItems_labels (hcarries text htext) _ _ fun w hw => hperm.mem_iff.mp hw]
  refine congrArg (List.mapIdx · (s.desired qt)) ?_
  funext i key
  rw [length_nil, Nat.zero_add]

end Strip

end Sandboxie.Tabs
