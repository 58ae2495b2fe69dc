import Sandboxie.Plus.TabStrip

/-!
# What the signals leave

The signals of the containers select a row, set the active page and save, and leave the groups
alone once these agree (`Sent`).  The loops that restore an order are followed with the pages
that are placed already in front and the others behind.
-/

namespace Sandboxie.Tabs

open List Option

variable {qt : Qt} {s s' s'' : Strip}

/-- What a row shows, whether or not it is hidden. -/
def Row.label (r : Row) : QString × Nat := (r.text, r.index)

/-- Only signals were sent, while a container was changed. -/
structure Sent (s s' : Strip) : Prop where
  tabs : s'.tabs = s.tabs
  managed : s'.managed = s.managed
  restoring : s'.restoring = s.restoring
  groups : s'.groups = s.groups
  title : s'.title = s.title
  titles : s'.titles = s.titles
  bound : s'.bound = s.bound
  saved : s.restoring = true → s'.saved = s.saved
  labels : s'.rows.map Row.label = s.rows.map Row.label
  row : s.rows = [] → s.row = none → s'.row = none

theorem Sent.refl (s : Strip) : Sent s s :=
  ⟨rfl, rfl, rfl, rfl, rfl, rfl, rfl, fun _ => rfl, rfl, fun _ hrow => hrow⟩

theorem Sent.rows_nil (h : Sent s s') (hrows : s.rows = []) : s'.rows = [] := by
  have hlabels := h.labels
  rw [hrows] at hlabels
  exact map_eq_nil_iff.mp hlabels

theorem Sent.trans (h : Sent s s') (h' : Sent s' s'') : Sent s s'' :=
  ⟨h'.tabs.trans h.tabs, h'.managed.trans h.managed, h'.restoring.trans h.restoring,
    h'.groups.trans h.groups, h'.title.trans h.title, h'.titles.trans h.titles,
    h'.bound.trans h.bound,
    fun hr => (h'.saved (h.restoring.trans hr)).trans (h.saved hr), h'.labels.trans h.labels,
    fun hrows hrow => h'.row (h.rows_nil hrows) (h.row hrows hrow)⟩

theorem Sent.of_pages {pages : List QString} {current : Option QString}
    (h : Sent { s with pages := pages, current := current } s') : Sent s s' :=
  ⟨h.tabs, h.managed, h.restoring, h.groups, h.title, h.titles, h.bound, h.saved, h.labels,
    h.row⟩

def Settled (s : Strip) : Prop := s.active = s.current.getD []

namespace Strip

/-! ### Saving and showing -/

theorem save_eq (qt : Qt) (s : Strip) : ∃ saved, (s.restoring = true → saved = s.saved) ∧
    save qt s = { s with saved := saved } := by
  unfold save
  split_ifs with h
  · exact ⟨s.saved, fun _ => rfl, rfl⟩
  · refine ⟨some (s.blob qt), fun hrestoring => absurd ?_ h, rfl⟩
    rw [hrestoring]
    rfl

theorem applyGroupPresentation_eq (h : Normal qt.toUnicode s.groups) : ∃ rows,
    rows.map Row.label = s.rows.map Row.label ∧
      applyGroupPresentation qt s = { s with rows := rows } := by
  unfold applyGroupPresentation
  simp only
  rw [ensure_of_normal h]
  refine ⟨_, ?_, rfl⟩
  refine ext_getElem (by simp) fun i hi hi' => ?_
  rw [getElem_map, getElem_map, getElem_mapIdx]
  cases s.pages[i]? <;> rfl

theorem currentChanged_eq (h : Normal qt.toUnicode s.groups) : ∃ rows saved,
    rows.map Row.label = s.rows.map Row.label ∧ (s.restoring = true → saved = s.saved) ∧
      currentChanged qt s = { s with
        rows := rows
        saved := saved
        row := s.currentIndex.filter (· < s.rows.length)
        active := if s.managed then s.current.getD [] else s.active } := by
  unfold currentChanged
  simp only
  by_cases hmanaged : s.managed = true
  · have hmanaged' : (s.setCurrentRow s.currentIndex).managed = true := hmanaged
    rw [if_pos hmanaged']
    unfold saveActive
    generalize hshown : ({ s.setCurrentRow s.currentIndex with
      active := (s.setCurrentRow s.currentIndex).current.getD [] } : Strip) = shown
    have hnormal : Normal qt.toUnicode shown.groups := by
      rw [← hshown]
      exact h
    obtain ⟨rows, hrows, heq⟩ := applyGroupPresentation_eq hnormal
    rw [heq]
    obtain ⟨saved, hsaved, heq⟩ := save_eq qt { shown with rows := rows }
    rw [heq]
    subst hshown
    refine ⟨rows, saved, hrows, hsaved, ?_⟩
    rw [if_pos hmanaged]
    rfl
  · have hmanaged' : ¬ (s.setCurrentRow s.currentIndex).managed = true := hmanaged
    rw [if_neg hmanaged']
    refine ⟨s.rows, s.saved, rfl, fun _ => rfl, ?_⟩
    rw [if_neg hmanaged]
    rfl

theorem currentChanged_spec (h : Normal qt.toUnicode s.groups) :
    Sent s (currentChanged qt s) ∧ (currentChanged qt s).pages = s.pages ∧
      (currentChanged qt s).current = s.current ∧
      (currentChanged qt s).row = s.currentIndex.filter (· < s.rows.length) ∧
      (currentChanged qt s).active = if s.managed then s.current.getD [] else s.active := by
  obtain ⟨rows, saved, hrows, hsaved, heq⟩ := currentChanged_eq h
  rw [heq]
  refine ⟨⟨rfl, rfl, rfl, rfl, rfl, rfl, rfl, hsaved, hrows, fun hnil _ => ?_⟩, rfl, rfl, rfl, rfl⟩
  show s.currentIndex.filter (· < s.rows.length) = none
  rw [hnil]
  exact filter_eq_none_iff.mpr fun i _ hlt =>
    Nat.not_lt_zero i (of_decide_eq_true hlt)

theorem showPage_spec (h : Normal qt.toUnicode s.groups) (key : QString) :
    Sent s (showPage qt s key) ∧ (showPage qt s key).pages = s.pages ∧
      (showPage qt s key).current = some key ∧
      (showPage qt s key).row = (if s.current = some key then s.row
        else (some (s.pages.idxOf key)).filter (· < s.rows.length)) ∧
      (showPage qt s key).active =
        if s.managed = true ∧ s.current ≠ some key then key else s.active := by
  unfold showPage
  by_cases hcurrent : s.current = some key
  · rw [if_pos hcurrent, if_pos hcurrent, if_neg fun hand => hand.2 hcurrent]
    exact ⟨Sent.refl s, rfl, hcurrent, rfl, rfl⟩
  rw [if_neg hcurrent, if_neg hcurrent]
  have hnormal : Normal qt.toUnicode ({ s with current := some key } : Strip).groups := h
  obtain ⟨hsent, hpages, hkey, hrow, hactive⟩ := currentChanged_spec hnormal
  refine ⟨hsent.of_pages, hpages, hkey, hrow, ?_⟩
  rw [hactive]
  show (if s.managed = true then key else s.active) = _
  by_cases hmanaged : s.managed = true
  · rw [if_pos hmanaged, if_pos ⟨hmanaged, hcurrent⟩]
  · rw [if_neg hmanaged, if_neg fun hand => hmanaged hand.1]

theorem setCurrentIndex_spec (h : Normal qt.toUnicode s.groups) (hmanaged : s.managed = true)
    (index : Nat) : Sent s (setCurrentIndex qt s index) ∧
      (setCurrentIndex qt s index).pages = s.pages ∧
      (setCurrentIndex qt s index).current = s.pages[index]?.or s.current ∧
      (Settled s → Settled (setCurrentIndex qt s index)) := by
  unfold setCurrentIndex
  cases hpage : s.pages[index]? with
  | none => exact ⟨Sent.refl s, rfl, rfl, fun hsettled => hsettled⟩
  | some key =>
    obtain ⟨hsent, hpages, hcurrent, -, hactive⟩ := showPage_spec h key
    refine ⟨hsent, hpages, hcurrent, fun hsettled => ?_⟩
    show (showPage qt s key).active = (showPage qt s key).current.getD []
    rw [hactive, hcurrent]
    by_cases heq : s.current = some key
    · rw [if_neg fun hand => hand.2 heq, hsettled, heq]
    · rw [if_pos ⟨hmanaged, heq⟩]
      rfl

/-! ### Pages of a stack -/

/-- A page is taken out.  When it was the current one, its neighbour is the next. -/
theorem removeWidget_spec (h : Normal qt.toUnicode s.groups) (hmanaged : s.managed = true)
    {a b : List QString} {key : QString} (hpages : s.pages = a ++ key :: b) (hnot : key ∉ a) :
    Sent s (removeWidget qt s key) ∧ (removeWidget qt s key).pages = a ++ b ∧
      (removeWidget qt s key).current =
        (if s.current = some key then b.head?.or a.getLast? else s.current) ∧
      (s.current = some key ∨ Settled s → a ++ b ≠ [] → Settled (removeWidget qt s key)) := by
  have hindex : s.pages.idxOf key = a.length := by
    rw [hpages, idxOf_append_of_notMem hnot, idxOf_cons_self, Nat.add_zero]
  have herase : s.pages.eraseIdx a.length = a ++ b := by
    rw [hpages, Arrange.eraseIdx_append_cons]
  have hnext : (a ++ b)[a.length]?.or (a ++ b)[a.length - 1]? = b.head?.or a.getLast? := by
    rw [getElem?_append_right (Nat.le_refl _), Nat.sub_self, ← head?_eq_getElem?]
    cases b with
    | cons x b => rfl
    | nil => rw [append_nil, ← getLast?_eq_getElem?]
  unfold removeWidget
  simp only
  rw [hindex, herase]
  by_cases hcurrent : s.current = some key
  · rw [if_pos hcurrent, if_pos hcurrent, hnext]
    cases hsome : b.head?.or a.getLast? with
    | some next =>
      have hnormal : Normal qt.toUnicode
          ({ s with pages := a ++ b, current := some next } : Strip).groups := h
      obtain ⟨hsent, hpages', hcurrent', -, hactive⟩ := currentChanged_spec hnormal
      refine ⟨hsent.of_pages, hpages', hcurrent', fun _ _ => ?_⟩
      rw [Settled, hactive, hcurrent']
      exact if_pos hmanaged
    | none =>
      have hempty : a ++ b = [] := by
        obtain ⟨hhead, hlast⟩ := or_eq_none_iff.mp hsome
        rw [head?_eq_none_iff.mp hhead, getLast?_eq_none_iff.mp hlast]
        rfl
      simp only
      by_cases hannounces : qt.announces = true
      · rw [if_pos hannounces]
        have hnormal : Normal qt.toUnicode
            ({ s with pages := a ++ b, current := none } : Strip).groups := h
        obtain ⟨hsent, hpages', hcurrent', -, -⟩ := currentChanged_spec hnormal
        exact ⟨hsent.of_pages, hpages', hcurrent',
          fun _ hne => absurd hempty hne⟩
      · rw [if_neg hannounces]
        exact ⟨⟨rfl, rfl, rfl, rfl, rfl, rfl, rfl, fun _ => rfl, rfl,
          fun _ hrow => hrow⟩, rfl, rfl,
          fun _ hne => absurd hempty hne⟩
  · rw [if_neg hcurrent, if_neg hcurrent]
    by_cases htell : (qt.announces && decide
        (({ s with pages := a ++ b } : Strip).currentIndex ≠ s.currentIndex)) = true
    · rw [if_pos htell]
      have hnormal : Normal qt.toUnicode ({ s with pages := a ++ b } : Strip).groups := h
      obtain ⟨hsent, hpages', hcurrent', -, hactive⟩ := currentChanged_spec hnormal
      refine ⟨hsent.of_pages, hpages', hcurrent', fun _ _ => ?_⟩
      rw [Settled, hactive, hcurrent']
      exact if_pos hmanaged
    · rw [if_neg htell]
      exact ⟨⟨rfl, rfl, rfl, rfl, rfl, rfl, rfl, fun _ => rfl, rfl,
          fun _ hrow => hrow⟩, rfl, rfl,
        fun hsettled _ => hsettled.resolve_left hcurrent⟩

theorem insertWidget_spec (h : Normal qt.toUnicode s.groups) (hmanaged : s.managed = true)
    {a b : List QString} (hpages : s.pages = a ++ b) (key : QString) :
    Sent s (insertWidget qt s a.length key) ∧
      (insertWidget qt s a.length key).pages = a ++ key :: b ∧
      (insertWidget qt s a.length key).current = s.current.or (some key) ∧
      (s.current = none ∨ Settled s → Settled (insertWidget qt s a.length key)) := by
  have hinsert : s.pages.insertIdx (min a.length s.pages.length) key = a ++ key :: b := by
    have hle : a.length ≤ s.pages.length := by
      rw [hpages, length_append]
      omega
    rw [Nat.min_eq_left hle, hpages, Arrange.insertIdx_append]
  cases hcurrent : s.current with
  | some c =>
    have heq : insertWidget qt s a.length key = { s with pages := a ++ key :: b } := by
      unfold insertWidget
      simp only [hcurrent, hinsert]
    rw [heq]
    refine ⟨⟨rfl, rfl, rfl, rfl, rfl, rfl, rfl, fun _ => rfl, rfl,
      fun _ hrow => hrow⟩, rfl, hcurrent, ?_⟩
    exact fun hsettled => hsettled.resolve_left (some_ne_none c)
  | none =>
    have heq : insertWidget qt s a.length key =
        currentChanged qt { s with pages := a ++ key :: b, current := some key } := by
      unfold insertWidget
      simp only [hcurrent, hinsert]
    rw [heq]
    have hnormal : Normal qt.toUnicode
        ({ s with pages := a ++ key :: b, current := some key } : Strip).groups := h
    obtain ⟨hsent, hpages', hcurrent', -, hactive⟩ := currentChanged_spec hnormal
    refine ⟨hsent.of_pages, hpages', hcurrent', fun _ => ?_⟩
    rw [Settled, hactive, hcurrent']
    exact if_pos hmanaged

/-- The page on which a stack comes to rest: each page that is taken out passes the current one
on, so that in the end it is the last but one. -/
def resting (pages : List QString) : Option QString := pages[pages.length - 2]?

theorem resting_append (front : List QString) (w : QString) :
    resting (front ++ [w]) = front.getLast?.or (some w) := by
  have hlen : (front ++ [w]).length - 2 = front.length - 1 := by
    rw [length_append, length_singleton]
    omega
  rw [resting, hlen, getLast?_eq_getElem?]
  cases front with
  | nil => rfl
  | cons x front =>
    have hlt : (x :: front).length - 1 < (x :: front).length := by
      rw [length_cons]
      omega
    rw [getElem?_append_left hlt, getElem?_eq_getElem hlt]
    rfl

theorem exists_next (front : List QString) {x y : List QString} (h : x ++ y ≠ []) :
    ∃ c ∈ x ++ y, y.head?.or (front ++ x).getLast? = some c := by
  cases y with
  | cons c y => exact ⟨c, mem_append_right x mem_cons_self, rfl⟩
  | nil =>
    rw [append_nil] at h ⊢
    refine ⟨x.getLast h, getLast_mem h, ?_⟩
    rw [head?_nil, none_or, getLast?_append, getLast?_eq_getLast_of_ne_nil h]
    rfl

/-- The pages that are still to be placed are taken out and put in one by one. -/
theorem insertPages_spec : ∀ (ws : List QString) (s : Strip) (front rest : List QString),
    Normal qt.toUnicode s.groups → s.managed = true → s.pages = front ++ rest → s.pages.Nodup →
      ws.Perm rest →
        Sent s (insertPages qt s front.length ws) ∧
        (insertPages qt s front.length ws).pages = front ++ ws ∧
        ∀ c ∈ rest, s.current = some c →
          (insertPages qt s front.length ws).current = resting (front ++ ws) ∧
          Settled (insertPages qt s front.length ws) := by
  intro ws
  induction ws with
  | nil =>
    intro s front rest _ _ hpages _ hperm
    obtain rfl := hperm.nil_eq
    exact ⟨Sent.refl s, hpages, fun c hc => absurd hc not_mem_nil⟩
  | cons w ws ih =>
    intro s front rest h hmanaged hpages hnodup hperm
    obtain ⟨x, y, rfl⟩ := append_of_mem (hperm.mem_iff.mp mem_cons_self)
    have hws : ws.Perm (x ++ y) := (perm_middle.symm.trans hperm.symm).symm.cons_inv
    have hsplit : s.pages = (front ++ x) ++ w :: y := by rw [hpages, append_assoc]
    have hnot : w ∉ front ++ x := by
      intro hmem
      rw [hsplit] at hnodup
      exact (nodup_append.mp hnodup).2.2 w hmem w mem_cons_self rfl
    have hturn : insertPages qt s front.length (w :: ws) = insertPages qt
        (insertWidget qt (removeWidget qt s w) front.length w) (front.length + 1) ws := rfl
    rw [hturn]
    obtain ⟨hsent₁, hpages₁, hcurrent₁, hsettled₁⟩ := removeWidget_spec h hmanaged hsplit hnot
    generalize removeWidget qt s w = s₁ at hsent₁ hpages₁ hcurrent₁ hsettled₁
    rw [append_assoc] at hpages₁
    obtain ⟨hsent₂, hpages₂, hcurrent₂, hsettled₂⟩ := insertWidget_spec (s := s₁)
      (hsent₁.groups ▸ h) (hsent₁.managed.trans hmanaged) hpages₁ w
    generalize insertWidget qt s₁ front.length w = s₂ at hsent₂ hpages₂ hcurrent₂ hsettled₂
    have hsent := hsent₁.trans hsent₂
    have hpages' : s₂.pages = (front ++ [w]) ++ (x ++ y) := by
      rw [hpages₂, append_assoc, singleton_append]
    have hnodup' : s₂.pages.Nodup := by
      rw [hpages', append_assoc]
      rw [hpages] at hnodup
      have hperm' : (x ++ w :: y).Perm (w :: (x ++ y)) := perm_middle
      exact (hperm'.append_left front).nodup_iff.mp hnodup
    obtain ⟨hsent', hpages'', hrest⟩ := ih s₂ (front ++ [w]) (x ++ y) (hsent.groups ▸ h)
      (hsent.managed.trans hmanaged) hpages' hnodup' hws
    rw [length_append, length_singleton] at hsent' hpages'' hrest
    rw [append_assoc, singleton_append] at hpages'' hrest
    refine ⟨hsent.trans hsent', hpages'', fun c hc hcurrent => ?_⟩
    by_cases hcw : c = w
    · rw [if_pos (hcurrent.trans (congrArg some hcw))] at hcurrent₁
      by_cases hempty : x ++ y = []
      · -- The page is the last one to be placed, and the one before it comes to rest.
        obtain ⟨rfl, rfl⟩ := append_eq_nil_iff.mp hempty
        obtain rfl := List.Perm.eq_nil hws
        rw [append_nil, head?_nil, none_or] at hcurrent₁
        refine ⟨?_, hsettled₂ ?_⟩
        · show s₂.current = _
          rw [hcurrent₂, hcurrent₁, resting_append]
        · by_cases hfront : front = []
          · rw [hfront] at hcurrent₁
            exact Or.inl hcurrent₁
          · refine Or.inr (hsettled₁ (Or.inl (hcurrent.trans (congrArg some hcw))) ?_)
            rw [append_nil, append_nil]
            exact hfront
      · obtain ⟨c', hc', hnext⟩ := exists_next front hempty
        refine hrest c' hc' ?_
        rw [hcurrent₂, hcurrent₁, hnext]
        rfl
    · rw [if_neg fun heq => hcw (Option.some.inj (hcurrent.symm.trans heq)), hcurrent] at hcurrent₁
      have hmem : c ∈ x ++ y := (mem_cons.mp
        (perm_middle.mem_iff.mp hc)).resolve_left hcw
      refine hrest c hmem ?_
      rw [hcurrent₂, hcurrent₁]
      rfl

/-! ### Items of the list -/

def cleared (s : Strip) : Strip := { s with rows := [], row := none }

theorem sent_cleared (h : Sent s s') : Sent s.cleared s'.cleared :=
  ⟨h.tabs, h.managed, h.restoring, h.groups, h.title, h.titles, h.bound, h.saved, rfl,
    fun _ _ => rfl⟩

theorem takeItem_spec (h : Normal qt.toUnicode s.groups) (hmanaged : s.managed = true)
    (index : Nat) : Sent s.cleared (takeItem qt s index).cleared ∧
      (takeItem qt s index).rows.map Row.label = (s.rows.map Row.label).eraseIdx index ∧
      (takeItem qt s index).pages = s.pages ∧
      (∀ c ∈ s.pages, s.current = some c →
        ∃ c' ∈ s.pages, (takeItem qt s index).current = some c') ∧
      (Settled s → Settled (takeItem qt s index)) := by
  -- The row of the item is left before the item goes.
  have hleft : ∀ s₁ : Strip, Sent s s₁ → s₁.pages = s.pages →
      (∀ c ∈ s.pages, s.current = some c → ∃ c' ∈ s.pages, s₁.current = some c') →
      (Settled s → Settled s₁) →
        Sent s.cleared s₁.cleared ∧
        (s₁.rows.eraseIdx index).map Row.label = (s.rows.map Row.label).eraseIdx index ∧
        s₁.pages = s.pages ∧
        (∀ c ∈ s.pages, s.current = some c → ∃ c' ∈ s.pages, s₁.current = some c') ∧
        (Settled s → Settled s₁) := by
    intro s₁ hsent hpages hcurrent hsettled
    refine ⟨sent_cleared hsent, ?_, hpages, hcurrent, hsettled⟩
    rw [← eraseIdx_map, hsent.labels]
  have hrow : ∀ row, Sent s (s.setCurrentRow row) := by
    refine fun row => ⟨rfl, rfl, rfl, rfl, rfl, rfl, rfl, fun _ => rfl, rfl, fun hnil _ => ?_⟩
    show row.filter (· < s.rows.length) = none
    rw [hnil]
    exact filter_eq_none_iff.mpr fun i _ hlt =>
      Nat.not_lt_zero i (of_decide_eq_true hlt)
  unfold takeItem
  simp only
  by_cases hindex : s.row = some index
  · rw [if_pos hindex]
    cases qt.neighbour s.rows index with
    | none => exact hleft _ (hrow none) rfl (fun c hc hcurrent => ⟨c, hc, hcurrent⟩) id
    | some row =>
      have hnormal : Normal qt.toUnicode (s.setCurrentRow (some row)).groups := h
      obtain ⟨hsent, hpages, hcurrent, hsettled⟩ :=
        setCurrentIndex_spec hnormal (hmanaged : (s.setCurrentRow (some row)).managed = true) row
      refine hleft _ ((hrow (some row)).trans hsent) hpages (fun c hc hcurrent' => ?_) hsettled
      rw [hcurrent]
      cases hpage : (s.setCurrentRow (some row)).pages[row]? with
      | none => exact ⟨c, hc, hcurrent'⟩
      | some c' => exact ⟨c', mem_of_getElem? hpage, rfl⟩
  · rw [if_neg hindex]
    exact hleft s (Sent.refl s) rfl (fun c hc hcurrent => ⟨c, hc, hcurrent⟩) id

def itemLabel (item : QString × Row) : QString × QString × Nat := (item.1, item.2.label)

theorem takeItems_spec : ∀ (n : Nat) (s : Strip) (items : Items),
    Normal qt.toUnicode s.groups → s.managed = true → s.rows.length = n →
      Sent s.cleared (takeItems qt n s items).1.cleared ∧
      (takeItems qt n s items).1.pages = s.pages ∧
      (∀ c ∈ s.pages, s.current = some c →
        ∃ c' ∈ s.pages, (takeItems qt n s items).1.current = some c') ∧
      (Settled s → Settled (takeItems qt n s items).1) ∧
      (takeItems qt n s items).2.map itemLabel =
        ((s.rows.map Row.label).filterMap fun label =>
          s.pages[label.2]?.map fun key => (key, label)) ++ items.map itemLabel := by
  intro n
  induction n with
  | zero =>
    intro s items _ _ hlength
    rw [length_eq_zero_iff.mp hlength]
    exact ⟨Sent.refl _, rfl, fun c hc hcurrent => ⟨c, hc, hcurrent⟩, id, rfl⟩
  | succ n ih =>
    intro s items h hmanaged hlength
    obtain ⟨rows, r, hrows⟩ : ∃ rows r, s.rows = rows ++ [r] := by
      rcases eq_nil_or_concat s.rows with hnil | ⟨rows, r, hrows⟩
      · rw [hnil] at hlength
        exact absurd hlength (Nat.succ_ne_zero n).symm
      · exact ⟨rows, r, hrows.trans concat_eq_append⟩
    have hn : rows.length = n := by
      rw [hrows, length_append, length_singleton] at hlength
      omega
    have hitem : s.rows[n]? = some r := by
      rw [hrows, getElem?_append_right (Nat.le_of_eq hn), hn, Nat.sub_self]
      rfl
    obtain ⟨hsent₁, hlabels₁, hpages₁, hcurrent₁, hsettled₁⟩ := takeItem_spec h hmanaged n
    have hturn : takeItems qt (n + 1) s items = takeItems qt n (takeItem qt s n)
        ((s.pages[r.index]?.map fun key => (key, r)).toList ++ items) := by
      rw [takeItems]
      simp only [hitem, hpages₁]
      cases s.pages[r.index]? <;> rfl
    have hlength₁ : (takeItem qt s n).rows.length = n := by
      rw [← length_map Row.label, hlabels₁, length_eraseIdx, length_map, hlength,
        if_pos (Nat.lt_succ_self n)]
      rfl
    have hlabels : (s.rows.map Row.label).eraseIdx n = rows.map Row.label := by
      rw [hrows, map_append, map_singleton, ← hn, ← length_map Row.label,
        Arrange.eraseIdx_append_cons, append_nil]
    rw [hturn]
    obtain ⟨hsent₂, hpages₂, hcurrent₂, hsettled₂, hitems₂⟩ := ih (takeItem qt s n)
      ((s.pages[r.index]?.map fun key => (key, r)).toList ++ items)
      ((hsent₁.groups : (takeItem qt s n).groups = s.groups) ▸ h)
      ((hsent₁.managed : (takeItem qt s n).managed = s.managed).trans hmanaged) hlength₁
    refine ⟨hsent₁.trans hsent₂, hpages₂.trans hpages₁, fun c hc hcurrent => ?_,
      fun hsettled => hsettled₂ (hsettled₁ hsettled), ?_⟩
    · obtain ⟨c₁, hc₁, hcurrent₁⟩ := hcurrent₁ c hc hcurrent
      rw [hpages₁] at hcurrent₂
      exact hcurrent₂ c₁ hc₁ hcurrent₁
    rw [hitems₂, hpages₁, hlabels₁, hlabels, hrows, map_append, map_append,
      filterMap_append, append_assoc]
    have hlabel : (List.map Row.label [r]).filterMap (fun label =>
        s.pages[label.2]?.map fun key => (key, label)) =
          (s.pages[r.index]?.map fun key => (key, r)).toList.map itemLabel := by
      have hindex : r.label.2 = r.index := rfl
      rw [map_singleton, filterMap_cons, filterMap_nil, hindex]
      cases s.pages[r.index]? <;> rfl
    rw [hlabel]

def labels (text : QString → QString) (pages : List QString) : List (QString × Nat) :=
  pages.mapIdx fun i key => (text key, i)

def Carries (items : Items) (text : QString → QString) (pages : List QString) : Prop :=
  ∀ key ∈ pages, ∃ r, items.lookup key = some r ∧ r.text = text key

variable {text : QString → QString} {pages : List QString} {items : Items}

theorem carries_of_labels (h : items.map itemLabel = (labels text pages).filterMap fun label =>
      pages[label.2]?.map fun key => (key, label)) : Carries items text pages := by
  have hitem : ∀ item ∈ items, item.2.text = text item.1 := by
    intro item hitem
    have hmem : itemLabel item ∈ items.map itemLabel := mem_map.mpr ⟨item, hitem, rfl⟩
    rw [h] at hmem
    obtain ⟨label, hlabel, heq⟩ := mem_filterMap.mp hmem
    obtain ⟨i, hi, hlabel⟩ := mem_mapIdx.mp hlabel
    rw [← hlabel, getElem?_eq_getElem hi] at heq
    obtain ⟨hkey, hlabel⟩ := Prod.mk.inj (Option.some.inj heq)
    rw [← hkey]
    exact (congrArg Prod.fst hlabel).symm
  intro key hkey
  obtain ⟨i, hi, rfl⟩ := mem_iff_getElem.mp hkey
  have hmem : (pages[i], text pages[i], i) ∈ items.map itemLabel := by
    rw [h]
    refine mem_filterMap.mpr ⟨(text pages[i], i), ?_, ?_⟩
    · exact mem_mapIdx.mpr ⟨i, hi, rfl⟩
    · rw [getElem?_eq_getElem hi]
      rfl
  obtain ⟨item, hin, heq⟩ := mem_map.mp hmem
  have hkey' : item.1 = pages[i] := congrArg Prod.fst heq
  cases hlookup : items.lookup pages[i] with
  | none =>
    have hne := lookup_eq_none_iff.mp hlookup item hin
    rw [hkey', bne_self_eq_false] at hne
    exact absurd hne Bool.false_ne_true
  | some r =>
    refine ⟨r, rfl, ?_⟩
    obtain ⟨l₁, l₂, hsplit, -⟩ := lookup_eq_some_iff.mp hlookup
    refine hitem (pages[i], r) ?_
    rw [hsplit]
    exact mem_append_right l₁ mem_cons_self

theorem addItems_labels (h : Carries items text pages) : ∀ (order : List QString) (index : Nat),
      (∀ key ∈ order, key ∈ pages) →
        (addItems items index order).map Row.label =
          order.mapIdx fun i key => (text key, index + i) := by
  intro order
  induction order with
  | nil => exact fun _ _ => rfl
  | cons key order ih =>
    intro index hsub
    obtain ⟨r, hlookup, htext⟩ := h key (hsub key mem_cons_self)
    have hrest := ih (index + 1) fun k hk => hsub k (mem_cons_of_mem key hk)
    unfold addItems
    rw [hlookup, mapIdx_cons]
    simp only [map_cons]
    rw [hrest]
    refine congrArg₂ List.cons (congrArg (·, index) htext) ?_
    refine congrArg (List.mapIdx · order) ?_
    funext i k
    rw [Nat.add_assoc, Nat.add_comm 1 i]

theorem addGroupedItems_labels
    (h : Carries items text pages) : ∀ (order : List QString) (rows : List Row),
      (∀ key ∈ order, key ∈ pages) →
        (addGroupedItems items rows order).map Row.label =
          rows.map Row.label ++ order.mapIdx fun i key => (text key, rows.length + i) := by
  intro order
  induction order with
  | nil =>
    intro rows _
    exact (append_nil _).symm
  | cons key order ih =>
    intro rows hsub
    obtain ⟨r, hlookup, htext⟩ := h key (hsub key mem_cons_self)
    have hrest := ih (rows ++ [{ r with index := rows.length, hidden := false }])
      fun k hk => hsub k (mem_cons_of_mem key hk)
    unfold addGroupedItems
    rw [hlookup]
    simp only
    rw [hrest, map_append, append_assoc, mapIdx_cons, map_singleton,
      singleton_append, length_append, length_singleton]
    refine congrArg (rows.map Row.label ++ ·) ?_
    refine congrArg₂ List.cons (congrArg (·, rows.length) htext) ?_
    refine congrArg (List.mapIdx · order) ?_
    funext i k
    rw [Nat.add_assoc, Nat.add_comm 1 i]

/-! ### The pages of a stack in a new order -/

/-- Whatever pages are taken out and put in again, they are the same pages. -/
theorem insertPages_perm : ∀ (ws : List QString) (s : Strip) (target : Nat),
    Normal qt.toUnicode s.groups → s.managed = true → s.pages.Nodup → (∀ w ∈ ws, w ∈ s.pages) →
      (∃ c ∈ s.pages, s.current = some c) →
        Sent s (insertPages qt s target ws) ∧ (insertPages qt s target ws).pages.Perm s.pages ∧
        ∃ c ∈ s.pages, (insertPages qt s target ws).current = some c := by
  intro ws
  induction ws with
  | nil =>
    intro s target _ _ _ _ hcurrent
    exact ⟨Sent.refl s, List.Perm.refl _, hcurrent⟩
  | cons w ws ih =>
    intro s target h hmanaged hnodup hsub hcurrent
    obtain ⟨a, b, hsplit⟩ := append_of_mem (hsub w mem_cons_self)
    have hnot : w ∉ a := by
      intro hmem
      rw [hsplit] at hnodup
      exact (nodup_append.mp hnodup).2.2 w hmem w mem_cons_self rfl
    obtain ⟨hsent₁, hpages₁, hcurrent₁, -⟩ := removeWidget_spec h hmanaged hsplit hnot
    have hturn : insertPages qt s target (w :: ws) = insertPages qt
        (insertWidget qt (removeWidget qt s w) target w) (target + 1) ws := rfl
    rw [hturn]
    generalize removeWidget qt s w = s₁ at hsent₁ hpages₁ hcurrent₁
    -- The page goes to the target, or to the end when there are fewer pages.
    have htarget : insertWidget qt s₁ target w =
        insertWidget qt s₁ (s₁.pages.take target).length w := by
      unfold insertWidget
      rw [length_take, Nat.min_assoc, Nat.min_self]
    rw [htarget]
    obtain ⟨hsent₂, hpages₂, hcurrent₂, -⟩ := insertWidget_spec (s := s₁) (hsent₁.groups ▸ h)
      (hsent₁.managed.trans hmanaged) (take_append_drop target s₁.pages).symm w
    generalize insertWidget qt s₁ (s₁.pages.take target).length w = s₂ at hsent₂ hpages₂ hcurrent₂
    have hperm : s₂.pages.Perm s.pages := by
      rw [hpages₂, hsplit]
      refine perm_middle.trans ((List.Perm.cons w ?_).trans perm_middle.symm)
      rw [take_append_drop, hpages₁]
    have hsent := hsent₁.trans hsent₂
    obtain ⟨hsent', hperm', hcurrent'⟩ := ih s₂ (target + 1) (hsent.groups ▸ h)
      (hsent.managed.trans hmanaged) (hperm.nodup_iff.mpr hnodup)
      (fun k hk => hperm.mem_iff.mpr (hsub k (mem_cons_of_mem w hk))) (by
        obtain ⟨c, hc, hcurrent⟩ := hcurrent
        by_cases hcw : c = w
        · rw [if_pos (hcurrent.trans (congrArg some hcw))] at hcurrent₁
          cases hnext : b.head?.or a.getLast? with
          | none =>
            rw [hcurrent₁, hnext] at hcurrent₂
            exact ⟨w, hperm.mem_iff.mpr (hsub w mem_cons_self), hcurrent₂⟩
          | some next =>
            rw [hcurrent₁, hnext] at hcurrent₂
            refine ⟨next, hperm.mem_iff.mpr ?_, hcurrent₂⟩
            rw [hsplit]
            rcases or_eq_some_iff.mp hnext with hhead | ⟨-, hlast⟩
            · exact mem_append_right a
                (mem_cons_of_mem w (mem_of_head? hhead))
            · exact mem_append_left _ (mem_of_getLast? hlast)
        · rw [if_neg fun heq => hcw (Option.some.inj (hcurrent.symm.trans heq)), hcurrent]
            at hcurrent₁
          rw [hcurrent₁] at hcurrent₂
          exact ⟨c, hperm.mem_iff.mpr hc, hcurrent₂⟩)
    refine ⟨hsent.trans hsent', hperm'.trans hperm, ?_⟩
    obtain ⟨c, hc, hcurrent⟩ := hcurrent'
    exact ⟨c, hperm.mem_iff.mp hc, hcurrent⟩

theorem arrangeStack_spec (h : Normal qt.toUnicode s.groups) (hmanaged : s.managed = true)
    (hnodup : s.pages.Nodup) {order : List QString} (hsub : ∀ w ∈ order, w ∈ s.pages)
    {c : QString} (hc : c ∈ s.pages) (hcurrent : s.current = some c) :
    Sent s.cleared (arrangeStack qt s order).1 ∧
      (arrangeStack qt s order).1.pages.Perm s.pages ∧
      (∃ c' ∈ s.pages, (arrangeStack qt s order).1.current = some c') ∧
      (order.Perm s.pages → (arrangeStack qt s order).1.pages = order ∧
        (arrangeStack qt s order).1.current = resting order ∧
        Settled (arrangeStack qt s order).1) ∧
      ∀ text, s.rows.map Row.label = labels text s.pages →
        Carries (arrangeStack qt s order).2 text s.pages := by
  obtain ⟨hsent₁, hpages₁, hcurrent₁, -, hitems⟩ := takeItems_spec s.rows.length s [] h hmanaged rfl
  unfold arrangeStack
  simp only
  generalize takeItems qt s.rows.length s [] = taken at hsent₁ hpages₁ hcurrent₁ hitems
  obtain ⟨s₁, items⟩ := taken
  obtain ⟨c₁, hc₁, hcurrent₁⟩ := hcurrent₁ c hc hcurrent
  have hnormal : Normal qt.toUnicode s₁.cleared.groups :=
    (hsent₁.groups : s₁.cleared.groups = s.groups) ▸ h
  have hmanaged₁ : s₁.cleared.managed = true := hsent₁.managed.trans hmanaged
  have hpages : s₁.cleared.pages = s.pages := hpages₁
  show Sent s.cleared (insertPages qt s₁.cleared 0 order) ∧ _
  obtain ⟨hsent₂, hperm₂, hcurrent₂⟩ := insertPages_perm order s₁.cleared 0 hnormal hmanaged₁
    (hpages ▸ hnodup) (fun w hw => hpages ▸ hsub w hw) ⟨c₁, hpages ▸ hc₁, hcurrent₁⟩
  rw [hpages] at hperm₂ hcurrent₂
  refine ⟨hsent₁.trans hsent₂, hperm₂, hcurrent₂, fun hperm => ?_, fun text htext => ?_⟩
  · obtain ⟨-, hpages', hrest⟩ := insertPages_spec order s₁.cleared [] s.pages hnormal hmanaged₁
      hpages (hpages ▸ hnodup) hperm
    exact ⟨hpages', hrest c₁ hc₁ hcurrent₁⟩
  · refine carries_of_labels ?_
    rw [hitems, map_nil, append_nil, htext]

end Strip

end Sandboxie.Tabs
