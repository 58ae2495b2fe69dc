import Sandboxie.Plus.TabActions

/-!
# The promised order

The group dialog states that pinned tabs stay first and ungrouped tabs last, with the members of
each group between them in the order of the groups.  The handlers that order the tabs see to
it; the others leave the tabs where they are, and `Meets` says when that is right.
-/

namespace Sandboxie.Tabs

open Strip List

section Ranks

variable {u : Unicode} {g g' : Groups}

/-! ### Places before and after a change -/

theorem isPinned_congr (h : g'.pinned = g.pinned) (key : QString) :
    g'.isPinned key = g.isPinned key := by
  unfold Groups.isPinned
  rw [h]

theorem rank_le (u : Unicode) (g : Groups) (key : QString) :
    rank u g key ≤ g.groupOrder.length + 1 := Nat.le_of_lt_succ (rank_lt u g key)

theorem rank_pinned {key : QString} (h : g.isPinned key = true) : rank u g key = 0 := if_pos h

variable {a b : QString}

theorem pinned_of_le (hab : rank u g a ≤ rank u g b)
    (hb : g.isPinned b = true) : g.isPinned a = true := by
  rw [rank_pinned hb, Nat.le_zero] at hab
  rw [@rank_eq_zero u g a]
  exact decide_eq_true hab

theorem rank_ungrouped {key : QString} (hp : g.isPinned key = false)
    (h : g.groups.value key = none) : rank u g key = g.groupOrder.length + 1 := by
  have hgroup : groupForTab u g key = [] := by
    unfold groupForTab
    rw [h]
    rfl
  unfold rank
  rw [hp, if_neg Bool.false_ne_true, if_pos hgroup]

theorem rank_grouped (hg : Normal u g) {key n : QString} (hp : g.isPinned key = false)
    (h : g.groups.value key = some n) :
    rank u g key = g.groupOrder.idxOf n + 1 ∧ n ∈ g.groupOrder := by
  rcases hg.groupForTab key with ⟨hnone, -⟩ | ⟨n', hmem, hvalue, hgroup, hne⟩
  · rw [h] at hnone
    exact (nomatch hnone)
  · rw [h] at hvalue
    cases hvalue
    unfold rank
    rw [hp, if_neg Bool.false_ne_true, hgroup, if_neg hne]
    exact ⟨rfl, hmem⟩

theorem rank_mono {change : QString → QString} (hg : Normal u g) (hg' : Normal u g')
    (hpinned : g'.pinned = g.pinned)
    (hvalue : ∀ key, g'.groups.value key = (g.groups.value key).map change)
    (horder : ∀ n ∈ g.groupOrder, ∀ m ∈ g.groupOrder, g.groupOrder.idxOf n ≤ g.groupOrder.idxOf m →
      g'.groupOrder.idxOf (change n) ≤ g'.groupOrder.idxOf (change m)) {a b : QString}
    (hab : rank u g a ≤ rank u g b) : rank u g' a ≤ rank u g' b := by
  have hpin := isPinned_congr hpinned
  cases hpa : g.isPinned a with
  | true =>
    rw [rank_pinned ((hpin a).trans hpa)]
    exact Nat.zero_le _
  | false =>
    cases hpb : g.isPinned b with
    | true =>
      rw [pinned_of_le hab hpb] at hpa
      exact Bool.noConfusion hpa
    | false =>
      cases hvb : g.groups.value b with
      | none =>
        have hvb' := hvalue b
        rw [hvb] at hvb'
        rw [rank_ungrouped ((hpin b).trans hpb) hvb']
        exact rank_le u g' a
      | some m =>
        obtain ⟨hrb, hm⟩ := rank_grouped hg hpb hvb
        cases hva : g.groups.value a with
        | none =>
          rw [rank_ungrouped hpa hva, hrb] at hab
          have hlt := idxOf_lt_length_of_mem hm
          omega
        | some n =>
          obtain ⟨hra, hn⟩ := rank_grouped hg hpa hva
          have hva' := hvalue a
          have hvb' := hvalue b
          rw [hva] at hva'
          rw [hvb] at hvb'
          rw [(rank_grouped hg' ((hpin a).trans hpa) hva').1,
            (rank_grouped hg' ((hpin b).trans hpb) hvb').1]
          rw [hra, hrb] at hab
          exact Nat.succ_le_succ (horder n hn m hm (Nat.le_of_succ_le_succ hab))

theorem Normal.last (hg : Normal u g) {tab n : QString} (h : g.groups.value tab = some n) :
    Last u g.groupOrder n := last_iff.mpr (hg.groups tab n h).2

theorem idxOf_append_left {names extra : List QString} {n : QString} (h : n ∈ names) :
    (names ++ extra).idxOf n = names.idxOf n := idxOf_append_of_mem h

/-! ### A new name -/

theorem rank_extended {extra : List QString} (hg : Normal u g) (hg' : Trimmed u g')
    (hpinned : g'.pinned = g.pinned) (hgroups : g'.groups = g.groups)
    (hnames : orderedGroupNames u g' = g.groupOrder ++ extra)
    (hextra : ∀ x ∈ extra, ∀ n ∈ g.groupOrder, u.toLower x ≠ u.toLower n)
    (hab : rank u g a ≤ rank u g b) :
    rank u (ensureGroupMetadata u g') a ≤ rank u (ensureGroupMetadata u g') b := by
  obtain ⟨horder, hgroups', hpinned'⟩ := ensure_names hnames fun tab n hn => by
    rw [hgroups] at hn
    have hlast := hg.last hn
    exact ⟨(hg.proper n hlast.mem).2, hlast.append fun x hx => hextra x hx n hlast.mem⟩
  refine @rank_mono u g _ id hg (normal_ensure hg') (hpinned'.trans hpinned)
    (fun key => ?_) (fun n hn m hm hle => ?_) a b hab
  · rw [hgroups', hgroups, Option.map_id, id]
  · rw [horder, id, id, idxOf_append_left hn, idxOf_append_left hm]
    exact hle

theorem accepted_fresh (hg : Normal u g) {candidate except : QString}
    (htrimmed : trimmed u candidate = candidate)
    (h : nameAccepted u g candidate except = true) : Proper u candidate ∧
      ∀ n ∈ g.groupOrder, (except = [] ∨ u.fold n ≠ u.fold except) →
        u.fold n ≠ u.fold candidate := by
  obtain ⟨hvalid, huse⟩ := Bool.and_eq_true_iff.mp h
  refine ⟨⟨fun hnil => ?_, hvalid⟩, fun n hn hexcept hsame => ?_⟩
  · rw [hnil] at hvalid
    exact absurd hvalid Bool.false_ne_true
  rw [Bool.not_eq_true', groupNameInUse, any_eq_false] at huse
  refine huse n (mem_append_left _ (SortedMap.mem_keys.mpr (hg.known n hn))) ?_
  rw [Bool.and_eq_true_iff, Bool.not_eq_true', htrimmed]
  refine ⟨?_, sameName_iff.mpr hsame⟩
  rw [Bool.and_eq_false_iff]
  rcases hexcept with hnil | hne
  · exact .inl (decide_eq_false fun hne => hne hnil)
  · refine .inr ?_
    rw [← Bool.not_eq_true, sameName_iff]
    exact hne

theorem rank_createGroup (hg : Normal u g) {name : QString} (htrimmed : trimmed u name = name)
    (h : nameAccepted u g name [] = true)
    (hlower : ∀ n ∈ g.groupOrder, u.toLower n ≠ u.toLower name)
    (hab : rank u g a ≤ rank u g b) : rank u (ensureGroupMetadata u (createGroup u g name)) a ≤
      rank u (ensureGroupMetadata u (createGroup u g name)) b := by
  obtain ⟨hproper, hfresh⟩ := accepted_fresh hg htrimmed h
  have hnames : orderedGroupNames u (createGroup u g name) = g.groupOrder ++ [name] := by
    refine orderedGroupNames_known ?_ ?_ fun n hn _ => ?_
    · intro n hn
      rcases mem_append.mp hn with hn | hn
      · exact (hg.proper n hn).1
      · exact mem_singleton.mp hn ▸ hproper
    · refine pairwise_append.mpr ⟨hg.distinct, pairwise_singleton _ _, ?_⟩
      intro n hn m hm
      rw [mem_singleton.mp hm]
      exact hfresh n hn (.inl rfl)
    · refine inOrder_iff.mpr ⟨n, ?_, rfl⟩
      rcases createGroup_brings u g name n hn with hn | rfl
      · exact mem_append_left _ (hg.sources n hn)
      · exact mem_append_right _ (mem_singleton_self n)
  refine rank_extended hg ((createGroup_brings u g name).trimmed hg.trimmed htrimmed) rfl rfl
    hnames (fun x hx n hn => ?_) hab
  rw [mem_singleton.mp hx]
  exact (hlower n hn).symm

theorem rank_changeMetadata (hg : Normal u g) {name : QString} (htrimmed : trimmed u name = name)
    (change : GroupMetadata → GroupMetadata)
    (hlower : (∀ n ∈ g.groupOrder, u.fold n ≠ u.fold name) →
      ∀ n ∈ g.groupOrder, u.toLower n ≠ u.toLower name)
    (hab : rank u g a ≤ rank u g b) :
    rank u (ensureGroupMetadata u (changeMetadata g name change)) a ≤
      rank u (ensureGroupMetadata u (changeMetadata g name change)) b := by
  have hproper : ∀ n ∈ (changeMetadata g name change).groupOrder, Proper u n :=
    fun n hn => (hg.proper n hn).1
  have htrim := (changeMetadata_brings g name change).trimmed hg.trimmed htrimmed
  have hsource : ∀ n ∈ sources (changeMetadata g name change), n ∈ g.groupOrder ∨ n = name :=
    fun n hn => (changeMetadata_brings g name change n hn).imp_left (hg.sources n)
  by_cases hnew : Proper u name ∧ inOrder u g.groupOrder name = false
  · have hin : name ∈ sources (changeMetadata g name change) :=
      mem_sources.mpr (.inr (.inl (value_insert_ne_none.mpr (.inl rfl))))
    have hnames := orderedGroupNames_new hproper hg.distinct hin hnew.1 hnew.2 fun n hn _ =>
      (hsource n hn).imp_left fun hn => inOrder_iff.mpr ⟨n, hn, rfl⟩
    refine rank_extended hg htrim rfl rfl hnames (fun x hx n hn => ?_) hab
    rw [mem_singleton.mp hx]
    refine (hlower (fun n hn heq => ?_) n hn).symm
    rw [inOrder_iff.mpr ⟨n, hn, heq⟩] at hnew
    exact Bool.noConfusion hnew.2
  · have hnames : orderedGroupNames u (changeMetadata g name change) = g.groupOrder ++ [] := by
      rw [append_nil]
      refine orderedGroupNames_known hproper hg.distinct fun n hn hp => ?_
      rcases hsource n hn with hn | rfl
      · exact inOrder_iff.mpr ⟨n, hn, rfl⟩
      · by_contra hnot
        exact hnew ⟨hp, Bool.not_eq_true _ ▸ hnot⟩
    exact rank_extended hg htrim rfl rfl hnames (fun x hx => absurd hx not_mem_nil) hab

/-! ### Another name -/

/-- No name of some others is the same to `toLower` without being the same name. -/
def Tells (u : Unicode) (names : List QString) (x : QString) : Prop :=
  ∀ n ∈ names, u.toLower n = u.toLower x → u.fold n = u.fold x

/-- The names are told apart when a group is renamed: the new name from those of the other groups,
and a name that stays, since the row had another spelling of it, from all of them. -/
structure RenameTells (u : Unicode) (g : Groups) (originalName candidate : QString) : Prop where
  others : ∀ n ∈ g.groupOrder, u.fold n ≠ u.fold originalName → u.toLower n ≠ u.toLower candidate
  stays : ∀ x ∈ g.groupOrder, x ≠ originalName → u.fold x = u.fold originalName →
    Tells u (candidate :: g.groupOrder) x

variable {originalName candidate : QString}

theorem rename_distinct (hg : Normal u g) (htrimmed : trimmed u candidate = candidate)
    (h : nameAccepted u g candidate originalName = true) :
    (∀ n ∈ g.groupOrder.map (renamed u originalName candidate), Proper u n) ∧
      Distinct u (g.groupOrder.map (renamed u originalName candidate)) := by
  obtain ⟨hproper, hfresh⟩ := accepted_fresh hg htrimmed h
  refine ⟨fun n hn => ?_, ?_⟩
  · obtain ⟨n', hn', rfl⟩ := mem_map.mp hn
    rcases renamed_cases u originalName candidate n' with ⟨-, heq⟩ | ⟨-, heq⟩ <;> rw [heq]
    · exact hproper
    · exact (hg.proper n' hn').1
  · refine pairwise_map.mpr (List.Pairwise.imp_of_mem ?_ hg.distinct)
    intro n m hn hm hnm
    rcases renamed_cases u originalName candidate n with ⟨hn', heq⟩ | ⟨hn', heq⟩ <;>
      rcases renamed_cases u originalName candidate m with ⟨hm', heq'⟩ | ⟨hm', heq'⟩ <;>
      rw [heq, heq']
    · exact absurd (hn'.trans hm'.symm) hnm
    · exact (hfresh m hm (.inr hm')).symm
    · exact hfresh n hn (.inr hn')
    · exact hnm

theorem rename_new (hg : Normal u g) {originalName candidate n : QString}
    (hn : n ∈ sources (renameGroup u g originalName candidate))
    (hnew : inOrder u (g.groupOrder.map (renamed u originalName candidate)) n = false) :
    (n = candidate ∧ ∀ m ∈ g.groupOrder, u.fold m ≠ u.fold originalName) ∨
      (n ∈ g.groupOrder ∧ u.fold n = u.fold originalName ∧ n ≠ originalName ∧
        u.fold n ≠ u.fold candidate) := by
  have hnot : ∀ m ∈ g.groupOrder, u.fold (renamed u originalName candidate m) ≠ u.fold n := by
    intro m hm heq
    rw [inOrder_iff.mpr ⟨_, mem_map.mpr ⟨m, hm, rfl⟩, heq⟩] at hnew
    exact Bool.noConfusion hnew
  rcases mem_sources.mp hn with hn | hn | ⟨tab, hn⟩
  · obtain ⟨m, hm, heq⟩ := mem_map.mp hn
    exact absurd (congrArg u.fold heq) (hnot m hm)
  · have hcandidate : ∀ m ∈ g.groupOrder, u.fold m = u.fold originalName →
        u.fold candidate ≠ u.fold n := by
      intro m hm hsame
      have hne := hnot m hm
      rcases renamed_cases u originalName candidate m with ⟨-, heq⟩ | ⟨hdiffer, -⟩
      · rwa [heq] at hne
      · exact absurd hsame hdiffer
    rcases value_insert_ne_none.mp hn with rfl | hn
    · exact .inl ⟨rfl, fun m hm hsame => hcandidate m hm hsame rfl⟩
    · obtain ⟨data, hdata⟩ := Option.ne_none_iff_exists'.mp hn
      obtain ⟨hne, hdata⟩ := value_filter_some.mp hdata
      obtain ⟨i, hi, -⟩ := hg.metadata n data hdata
      have hmem : n ∈ g.groupOrder := mem_of_getElem? hi
      rcases renamed_cases u originalName candidate n with ⟨hsame, -⟩ | ⟨-, heq⟩
      · exact .inr ⟨hmem, hsame, hne, (hcandidate n hmem hsame).symm⟩
      · exact absurd (congrArg u.fold heq) (hnot n hmem)
  · obtain ⟨m, hm, heq⟩ := renameGroup_value.mp hn
    exact absurd (congrArg u.fold heq) (hnot m (hg.groups tab m hm).1)

theorem rename_last (hg : Normal u g)
    (htells : RenameTells u g originalName candidate) {m : QString} (h : Last u g.groupOrder m) :
    Last u (g.groupOrder.map (renamed u originalName candidate))
      (renamed u originalName candidate m) := by
  obtain ⟨front, behind, hsplit, hbehind⟩ := h
  refine ⟨front.map (renamed u originalName candidate), behind.map
    (renamed u originalName candidate),
    ?_, fun k' hk' => ?_⟩
  · rw [hsplit, map_append, map_cons]
  obtain ⟨k, hk, rfl⟩ := mem_map.mp hk'
  have hkmem : k ∈ g.groupOrder :=
    hsplit ▸ mem_append_right _ (mem_cons_of_mem m hk)
  have hmmem : m ∈ g.groupOrder := hsplit ▸ mem_append_right _ mem_cons_self
  rcases renamed_cases u originalName candidate m with ⟨hm, heq⟩ | ⟨hm, heq⟩ <;>
    rcases renamed_cases u originalName candidate k with ⟨hk', heq'⟩ | ⟨hk', heq'⟩ <;>
    rw [heq, heq']
  · have hdistinct := hg.distinct
    rw [hsplit] at hdistinct
    have hpair := (pairwise_append.mp hdistinct).2.1
    exact absurd (hm.trans hk'.symm) (rel_of_pairwise_cons hpair hk)
  · exact htells.others k hkmem hk'
  · exact (htells.others m hmmem hm).symm
  · exact hbehind k hk

theorem idxOf_renamed
    (hdistinct : Distinct u (g.groupOrder.map (renamed u originalName candidate))) {n : QString}
    (hn : n ∈ g.groupOrder) : (g.groupOrder.map (renamed u originalName candidate)).idxOf
      (renamed u originalName candidate n) = g.groupOrder.idxOf n := by
  have hlt := idxOf_lt_length_of_mem hn
  have hlt' : g.groupOrder.idxOf n <
      (g.groupOrder.map (renamed u originalName candidate)).length := by
    rw [length_map]
    exact hlt
  have hget : (g.groupOrder.map (renamed u originalName candidate))[g.groupOrder.idxOf n] =
      renamed u originalName candidate n := by
    rw [getElem_map, getElem_idxOf hlt]
  rw [← hget]
  exact hdistinct.nodup.idxOf_getElem _ hlt'

theorem rename_names (hg : Normal u g)
    (hproper : ∀ n ∈ g.groupOrder.map (renamed u originalName candidate), Proper u n)
    (hdistinct : Distinct u (g.groupOrder.map (renamed u originalName candidate)))
    (htells : RenameTells u g originalName candidate) : ∃ extra,
      orderedGroupNames u (renameGroup u g originalName candidate) =
        g.groupOrder.map (renamed u originalName candidate) ++ extra ∧
      ∀ x ∈ extra, ∀ m ∈ g.groupOrder,
        u.toLower x ≠ u.toLower (renamed u originalName candidate m) := by
  by_cases hknown : ∀ n ∈ sources (renameGroup u g originalName candidate), Proper u n →
      inOrder u (g.groupOrder.map (renamed u originalName candidate)) n = true
  · refine ⟨[], ?_, fun x hx => absurd hx not_mem_nil⟩
    rw [append_nil]
    exact orderedGroupNames_known hproper hdistinct hknown
  simp only [not_forall, Bool.not_eq_true] at hknown
  obtain ⟨x, hx, hx', hnew⟩ := hknown
  refine ⟨[x], orderedGroupNames_new hproper hdistinct hx hx' hnew fun n hn _ => ?_,
    fun y hy m hm => ?_⟩
  · -- Two new names are the same.
    by_contra hnot
    obtain ⟨hnot, hnx⟩ := not_or.mp hnot
    rcases rename_new hg hn (Bool.not_eq_true _ ▸ hnot) with ⟨rfl, hnone⟩ | ⟨hmem, hsame, -⟩ <;>
      rcases rename_new hg hx hnew with ⟨rfl, hnone'⟩ | ⟨hmem', hsame', -⟩
    · exact hnx rfl
    · exact hnone x hmem' hsame'
    · exact hnone' n hmem hsame
    · exact hnx (hg.distinct.eq hmem hmem' (hsame.trans hsame'.symm))
  · rw [mem_singleton.mp hy]
    rcases rename_new hg hx hnew with ⟨rfl, hnone⟩ | ⟨hx, hsame, hne, hdiffer⟩
    · rcases renamed_cases u originalName x m with ⟨hm', -⟩ | ⟨hm', heq⟩
      · exact absurd hm' (hnone m hm)
      · rw [heq]
        exact (htells.others m hm hm').symm
    · have htell := htells.stays x hx hne hsame
      rcases renamed_cases u originalName candidate m with ⟨-, heq⟩ | ⟨hm', heq⟩ <;> rw [heq]
      · exact fun hlower => hdiffer (htell candidate mem_cons_self hlower.symm).symm
      · intro hlower
        exact hm' ((htell m (mem_cons_of_mem candidate hm) hlower.symm).trans hsame)

theorem rank_renameGroup (hg : Normal u g) (htrimmed : trimmed u candidate = candidate)
    (h : nameAccepted u g candidate originalName = true)
    (htells : RenameTells u g originalName candidate)
    (hab : rank u g a ≤ rank u g b) :
    rank u (ensureGroupMetadata u (renameGroup u g originalName candidate)) a ≤
      rank u (ensureGroupMetadata u (renameGroup u g originalName candidate)) b := by
  obtain ⟨hproper, hdistinct⟩ := rename_distinct hg htrimmed h
  have htrim := (renameGroup_brings u g originalName candidate).trimmed hg.trimmed htrimmed
  obtain ⟨extra, hnames, hextra⟩ := rename_names hg hproper hdistinct htells
  obtain ⟨horder, hgroups, hpinned⟩ := ensure_names hnames fun tab n hn => by
    obtain ⟨m, hm, rfl⟩ := renameGroup_value.mp hn
    have hlast := hg.last hm
    refine ⟨?_, (rename_last hg htells hlast).append fun x hx => hextra x hx m hlast.mem⟩
    rcases renamed_cases u originalName candidate m with ⟨-, heq⟩ | ⟨-, heq⟩ <;> rw [heq]
    · exact htrimmed
    · exact (hg.proper m hlast.mem).2
  refine @rank_mono u g _ (renamed u originalName candidate) hg (normal_ensure htrim) hpinned
    (fun key => ?_) (fun n hn m hm hle => ?_) a b hab
  · rw [hgroups]
    show (g.groups.mapSome _).value key = _
    rw [SortedMap.value_mapSome]
    cases g.groups.value key <;> rfl
  · rw [horder, idxOf_append_left (mem_map.mpr ⟨n, hn, rfl⟩),
      idxOf_append_left (mem_map.mpr ⟨m, hm, rfl⟩), idxOf_renamed hdistinct hn,
      idxOf_renamed hdistinct hm]
    exact hle

/-! ### A group less -/

theorem removeGroup_names (hg : Normal u g) (originalName : QString) :
    (ensureGroupMetadata u (removeGroup u g originalName)).groupOrder =
        g.groupOrder.filter (fun name => name ≠ originalName) ∧
      (ensureGroupMetadata u (removeGroup u g originalName)).groups =
        (removeGroup u g originalName).groups ∧
      (ensureGroupMetadata u (removeGroup u g originalName)).pinned = g.pinned := by
  have hkeep : ∀ n ∈ g.groupOrder, n ≠ originalName →
      n ∈ g.groupOrder.filter fun name => name ≠ originalName :=
    fun n hn hne => mem_filter.mpr ⟨hn, decide_eq_true hne⟩
  have hnames : orderedGroupNames u (removeGroup u g originalName) =
      g.groupOrder.filter fun name => name ≠ originalName := by
    refine orderedGroupNames_known (fun n hn => (hg.proper n (mem_filter.mp hn).1).1)
      (List.Pairwise.filter _ hg.distinct) fun n hn _ => inOrder_iff.mpr ⟨n, ?_, rfl⟩
    rcases mem_sources.mp hn with hn | hn | ⟨tab, hn⟩
    · exact hn
    · obtain ⟨data, hdata⟩ := Option.ne_none_iff_exists'.mp hn
      obtain ⟨hne, hdata⟩ := value_filter_some.mp hdata
      obtain ⟨i, hi, -⟩ := hg.metadata n data hdata
      exact hkeep n (mem_of_getElem? hi) hne
    · obtain ⟨hn, hdiffer⟩ := removeGroup_value.mp hn
      exact hkeep n (hg.groups tab n hn).1 fun heq => hdiffer (congrArg u.fold heq)
  refine ensure_names hnames fun tab n hn => ?_
  obtain ⟨hn, hdiffer⟩ := removeGroup_value.mp hn
  have hlast := hg.last hn
  refine ⟨(hg.proper n hlast.mem).2, ?_⟩
  obtain ⟨front, behind, hsplit, hbehind⟩ := hlast
  have hne : n ≠ originalName := fun heq => hdiffer (congrArg u.fold heq)
  refine ⟨front.filter fun name => name ≠ originalName,
    behind.filter fun name => name ≠ originalName, ?_,
    fun m hm => hbehind m (mem_filter.mp hm).1⟩
  have hkept : ∀ l, (n :: l).filter (fun name => name ≠ originalName) =
      n :: l.filter fun name => name ≠ originalName :=
    fun l => filter_cons_of_pos (decide_eq_true hne)
  rw [hsplit, filter_append, hkept]

/-- The members of the group that goes come last.  Nothing changes for the other tabs. -/
theorem rank_removeGroup (hg : Normal u g) {originalName a b : QString}
    (hmembers : g.isPinned a = false → sameName u (groupForTab u g a) originalName = true →
      rank u g b ≤ rank u g a ∨ rank u g b = g.groupOrder.length + 1)
    (hab : rank u g a ≤ rank u g b) :
    rank u (ensureGroupMetadata u (removeGroup u g originalName)) a ≤
      rank u (ensureGroupMetadata u (removeGroup u g originalName)) b := by
  obtain ⟨horder, hgroups, hpinned⟩ := removeGroup_names hg originalName
  have hg' := normal_ensure (removeGroup_trimmed hg.trimmed originalName)
  generalize ensureGroupMetadata u (removeGroup u g originalName) = g' at horder hgroups hpinned hg'
  have hpin := isPinned_congr hpinned
  have hgone : ∀ key n, g.groups.value key = some n → u.fold n = u.fold originalName →
      g'.groups.value key = none := by
    intro key n hn hsame
    rw [hgroups, Option.eq_none_iff_forall_not_mem]
    intro n' hn'
    obtain ⟨hn', hdiffer⟩ := removeGroup_value.mp hn'
    rw [hn] at hn'
    exact hdiffer (Option.some.inj hn' ▸ hsame)
  have hstay : ∀ key n, g.groups.value key = some n → u.fold n ≠ u.fold originalName →
      g'.groups.value key = some n := by
    intro key n hn hdiffer
    rw [hgroups]
    exact removeGroup_value.mpr ⟨hn, hdiffer⟩
  have hnone : ∀ key, g.groups.value key = none → g'.groups.value key = none := by
    intro key hn
    rw [hgroups, Option.eq_none_iff_forall_not_mem]
    intro n' hn'
    obtain ⟨hn', -⟩ := removeGroup_value.mp hn'
    rw [hn] at hn'
    exact (nomatch hn')
  cases hpa : g.isPinned a with
  | true =>
    rw [rank_pinned ((hpin a).trans hpa)]
    exact Nat.zero_le _
  | false =>
    have hpb : g.isPinned b = false := by
      by_contra hpb
      rw [pinned_of_le hab (Bool.eq_true_of_not_eq_false hpb)] at hpa
      exact Bool.noConfusion hpa
    have hpb' := (hpin b).trans hpb
    cases hvb : g.groups.value b with
    | none =>
      rw [rank_ungrouped hpb' (hnone b hvb)]
      exact rank_le u g' a
    | some m =>
      obtain ⟨hrb, hm⟩ := rank_grouped hg hpb hvb
      have hm' := idxOf_lt_length_of_mem hm
      by_cases hmb : u.fold m = u.fold originalName
      · rw [rank_ungrouped hpb' (hgone b m hvb hmb)]
        exact rank_le u g' a
      cases hva : g.groups.value a with
      | none =>
        rw [rank_ungrouped hpa hva, hrb] at hab
        omega
      | some n =>
        obtain ⟨hra, hn⟩ := rank_grouped hg hpa hva
        have hab' : g.groupOrder.idxOf n ≤ g.groupOrder.idxOf m := by omega
        by_cases hna : u.fold n = u.fold originalName
        · -- A tab of a later group would be passed.
          have hgroup : groupForTab u g a = n := by
            unfold groupForTab
            rw [hva]
            exact (hg.proper n hn).2
          rcases hmembers hpa (by rw [hgroup]; exact sameName_iff.mpr hna) with hback | hlast
          · have heq : g.groupOrder.idxOf n = g.groupOrder.idxOf m := by omega
            obtain rfl := (idxOf_inj hn).mp heq
            exact absurd hna hmb
          · omega
        · rw [(rank_grouped hg' ((hpin a).trans hpa) (hstay a n hva hna)).1,
            (rank_grouped hg' hpb' (hstay b m hvb hmb)).1, horder]
          refine Nat.succ_le_succ (Arrange.idxOf_filter_le ?_ hab')
          exact decide_eq_true fun heq => hna (congrArg u.fold heq)

end Ranks

/-! ### Runs -/

variable {qt : Qt} {s : Strip}

/-- The tabs stay in order, for the actions that do not order them. -/
def Meets (qt : Qt) (s : Strip) : Action → Prop
  | .create text =>
    let candidate := trimmed qt.toUnicode text
    nameAccepted qt.toUnicode s.groups candidate [] = true →
      ∀ n ∈ s.groups.groupOrder, qt.toLower n ≠ qt.toLower candidate
  | .rename originalName text =>
    let candidate := trimmed qt.toUnicode text
    nameAccepted qt.toUnicode s.groups candidate originalName = true →
      RenameTells qt.toUnicode s.groups originalName candidate
  | .color originalName _ | .collapse originalName _ =>
    (∀ n ∈ s.groups.groupOrder, qt.fold n ≠ qt.fold originalName) →
      ∀ n ∈ s.groups.groupOrder, qt.toLower n ≠ qt.toLower originalName
  | .remove originalName =>
    -- No tab of a later group follows the members.
    ∀ a ∈ s.pages, s.groups.isPinned a = false →
      sameName qt.toUnicode (groupForTab qt.toUnicode s.groups a) originalName = true →
        ∀ b ∈ s.pages, rank qt.toUnicode s.groups b ≤ rank qt.toUnicode s.groups a ∨
          rank qt.toUnicode s.groups b = s.groups.groupOrder.length + 1
  | .drag i target =>
    -- The tabs that are passed have the place of the dragged one.
    s.tabs = true → i < s.pages.length → target < s.pages.length →
      ∀ j a b, s.pages[i]? = some a → s.pages[j]? = some b → min i target ≤ j → j ≤ max i target →
        rank qt.toUnicode s.groups b = rank qt.toUnicode s.groups a
  | _ => True

theorem inOrder_of_mono {s' : Strip} (horder : InOrder qt s) (hpages : s'.pages = s.pages)
    (hmono : ∀ a ∈ s.pages, ∀ b ∈ s.pages,
      rank qt.toUnicode s.groups a ≤ rank qt.toUnicode s.groups b →
        rank qt.toUnicode s'.groups a ≤ rank qt.toUnicode s'.groups b) : InOrder qt s' := by
  unfold InOrder
  rw [hpages]
  exact List.Pairwise.imp_of_mem (fun ha hb hab => hmono _ ha _ hb hab) horder

theorem inOrder_of_same {s' : Strip} (horder : InOrder qt s) (hpages : s'.pages = s.pages)
    (hgroups : s'.groups = s.groups) : InOrder qt s' :=
  inOrder_of_mono horder hpages fun a _ b _ hab => by rw [hgroups]; exact hab

theorem act_inOrder (h : Managed qt s) (horder : InOrder qt s) {a : Action}
    (hmeets : Meets qt s a) :
    InOrder qt (act qt s a) := by
  have hnames := h.normal.trimmed
  have hvalue : ∀ text, trimmed qt.toUnicode (trimmed qt.toUnicode text) =
    trimmed qt.toUnicode text := trimmed_trimmed
  by_cases horders : a.orders = true
  · rcases act_orders h horders with heq | ⟨g, hg, heq⟩
    · rw [heq]
      exact horder
    · rw [heq]
      exact (relayout_groups h hg).2.2
  cases a with
  | create text =>
    simp only [act]
    split_ifs with haccepted
    · have hg := (createGroup_brings qt.toUnicode s.groups _).trimmed hnames (hvalue text)
      obtain ⟨-, -, hgroups, hpages⟩ := saved_groups h hg
      refine inOrder_of_mono horder hpages fun a _ b _ hab => ?_
      rw [hgroups]
      exact rank_createGroup h.normal (hvalue text) haccepted (hmeets haccepted) hab
    · exact horder
  | rename originalName text =>
    simp only [act]
    split_ifs with haccepted
    · have hg := (renameGroup_brings qt.toUnicode s.groups originalName _).trimmed hnames
        (hvalue text)
      obtain ⟨-, -, hgroups, hpages⟩ := saved_groups h hg
      refine inOrder_of_mono horder hpages fun a _ b _ hab => ?_
      rw [hgroups]
      exact rank_renameGroup h.normal (hvalue text) haccepted (hmeets haccepted) hab
    · exact horder
  | color originalName chosen =>
    simp only [act]
    split_ifs with hname
    · have hg := (changeMetadata_brings s.groups originalName
        fun m => { m with color := some chosen }).trimmed hnames hname
      obtain ⟨-, -, hgroups, hpages⟩ := present_groups h hg
      refine inOrder_of_mono horder hpages fun a _ b _ hab => ?_
      rw [hgroups]
      exact rank_changeMetadata h.normal hname _ hmeets hab
    · exact horder
  | collapse originalName value =>
    simp only [act]
    split_ifs with hname
    · have hg := (changeMetadata_brings s.groups originalName
        fun m => { m with collapsed := value }).trimmed hnames hname
      obtain ⟨-, -, hgroups, hpages⟩ := present_groups h hg
      refine inOrder_of_mono horder hpages fun a _ b _ hab => ?_
      rw [hgroups]
      exact rank_changeMetadata h.normal hname _ hmeets hab
    · exact horder
  | remove originalName =>
    obtain ⟨-, -, hgroups, hpages⟩ := present_groups h (removeGroup_trimmed hnames originalName)
    refine inOrder_of_mono horder hpages fun a ha b hb hab => ?_
    rw [show (act qt s (.remove originalName)).groups = _ from hgroups]
    exact rank_removeGroup h.normal (fun hp hsame => hmeets a ha hp hsame b hb) hab
  | drag i target =>
    simp only [act]
    split_ifs with htabs
    · by_cases hmove : i < s.pages.length ∧ target < s.pages.length ∧ i ≠ target
      · obtain ⟨c, hc, hcurrent⟩ := h.sits
        obtain ⟨hmoved, -, hpages, -⟩ := moveTab_spec h.normal hc hcurrent hmove.1 hmove.2.1
          hmove.2.2
        unfold InOrder
        rw [hmoved.groups, hpages]
        exact Arrange.pairwise_move hmove.1 hmove.2.1 (hmeets htabs hmove.1 hmove.2.1) horder
      · have heq : moveTab qt s i target = s := by
          exact if_neg hmove
        rw [heq]
        exact horder
    · exact horder
  | select row =>
    obtain ⟨-, -, hgroups, hpages⟩ := selectRow_spec h row
    exact inOrder_of_same horder hpages hgroups
  | search index =>
    simp only [act]
    cases hpage : s.pages[index]? with
    | none => exact horder
    | some key =>
      obtain ⟨-, h₁, hgroups, hpages⟩ := setCurrentIndex_managed h index
      simp only
      generalize setCurrentIndex qt s index = s₁ at h₁ hgroups hpages
      have h₂ : Managed qt { s₁ with active := key } :=
        ⟨h₁.managed, h₁.restoring, h₁.normal, h₁.nodup, h₁.nil, h₁.trimmed, h₁.sits⟩
      obtain ⟨-, -, hgroups₂, hpages₂⟩ := save_spec h₂
      exact inOrder_of_same horder (hpages₂.trans hpages) (hgroups₂.trans hgroups)
  | release =>
    obtain ⟨-, -, hgroups, hpages⟩ := save_spec h
    exact inOrder_of_same horder hpages hgroups
  | _ => exact absurd rfl horders

theorem initializeManager_spec (h : Ready qt s) : Managed qt (initializeManager qt s) ∧
    Kept { s with managed := true } (initializeManager qt s) ∧
    InOrder qt (initializeManager qt s) := by
  obtain ⟨h₁, hkept₁, -⟩ := loaded_spec h
  obtain ⟨hkept₂, hgroups₂, hrestoring₂, -⟩ := restoreOrder_kept h₁
  have h₂ := h₁.of_kept hkept₂ hgroups₂ hrestoring₂
  obtain ⟨hkept₃, h₃, -, horder⟩ := relayout_spec h₂
  have hne : s.pages ≠ [] := by
    obtain ⟨c, hc, -⟩ := h.sits
    exact ne_nil_of_mem hc
  have heq : initializeManager qt s = relayout qt (restoreOrder qt (loaded qt s)) := by
    unfold initializeManager
    rw [if_neg hne]
    rfl
  rw [heq]
  exact ⟨h₃, hkept₁.trans (hkept₂.trans hkept₃), horder⟩

/-- The actions of a run, from a strip on which the manager starts. -/
inductive Run (qt : Qt) (P : Strip → Action → Prop) : Strip → Prop
  | start (s : Strip) : Ready qt s → Run qt P (initializeManager qt s)
  | act {s : Strip} {a : Action} : Run qt P s → P s a → Run qt P (act qt s a)

theorem Run.managed {P : Strip → Action → Prop} (h : Run qt P s) : Managed qt s := by
  induction h with
  | start s hready => exact (initializeManager_spec hready).1
  | act _ _ ih => exact (act_kept ih _).2

/-- **The promised order is kept in every run whose actions meet the condition.** -/
theorem tabs_in_order (qt : Qt) (s : Strip) (h : Run qt (Meets qt) s) : InOrder qt s := by
  induction h with
  | start s hready => exact (initializeManager_spec hready).2.2
  | act hrun hmeets ih => exact act_inOrder hrun.managed ih hmeets

def plainQt : Qt where
  isSpace := fun c => c = 32
  isControl := fun c => c < 32
  fold := id
  toLower := id
  fromHsv := id
  fold_nil := fun _ h => h
  neighbour := fun rows i => if i + 1 < rows.length then some (i + 1) else some (i - 1)
  announces := true

/-- A `QTabWidget` with the tabs `a` and `b`. -/
def twoTabs : Strip :=
  { tabs := true, pages := [[97], [98]], current := some [97], managed := false, title := id }

theorem twoTabs_ready : Ready plainQt twoTabs := by
  refine ⟨rfl, by decide, by decide, by decide, ⟨[97], by decide, rfl⟩⟩

theorem tabs_in_order_grouped :
    InOrder plainQt (act plainQt (initializeManager plainQt twoTabs) (.createInto [98] [103])) :=
  tabs_in_order plainQt _ (.act (.start twoTabs twoTabs_ready) trivial)

/-- `a` in the group `g` and `b` in the group `h`: without `g`, `a` stays before `b`. -/
theorem removed_group_stays_before : ¬ ∀ (qt : Qt) (s : Strip),
    Run qt (fun _ _ => True) s → InOrder qt s := by
  intro hall
  have hrun : Run plainQt (fun _ _ => True) (act plainQt (act plainQt (act plainQt
      (initializeManager plainQt twoTabs) (.createInto [97] [103])) (.createInto [98] [104]))
        (.remove [103])) :=
    .act (.act (.act (.start twoTabs twoTabs_ready) trivial) trivial) trivial
  have horder := hall plainQt _ hrun
  unfold InOrder at horder
  revert horder
  decide +kernel

end Sandboxie.Tabs
