import Sandboxie.Plus.TabGroups

/-!
# The normal form of the groups

`ensureGroupMetadata` when the hashes are gone through in any order.  Whatever it is given, it
leaves groups that agree (`agree_ensureIn`) and that a second call leaves alone
(`ensureIn_of_agree`).  The names of the groups are told apart without case, but a tab is
looked up by `toLower`: a tab stays in its group when a name is found for it in this way
(`ensureGroupMetadata_iff`).
-/

namespace Sandboxie.Tabs

open List Option

/-- An order in which `QHash` goes through its entries. -/
structure HashOrder where
  entries : SortedMap QString GroupMetadata → List (QString × GroupMetadata)
  values : SortedMap QString QString → List QString
  entries_perm : ∀ m, (entries m).Perm m.entries
  values_perm : ∀ m, (values m).Perm m.values

def HashOrder.byKey : HashOrder :=
  { entries := SortedMap.entries, values := SortedMap.values
    entries_perm := fun _ => List.Perm.refl _, values_perm := fun _ => List.Perm.refl _ }

section Loops

variable (u : Unicode) (o : HashOrder)

/-- The names in the order in which `orderedGroupNames` comes to them. -/
def sourcesIn (g : Groups) : List QString :=
  g.groupOrder ++ (o.entries g.metadata).map Prod.fst ++ o.values g.groups

/-- `orderedGroupNames` -/
def orderedGroupNamesIn (g : Groups) : List QString :=
  orderedNames u g.groupOrder (sourcesIn o g)

/-- A round of the loop that gives the metadata to the names. -/
def normalizeIn (entries : List (QString × GroupMetadata))
    (normalized : SortedMap QString GroupMetadata) (name : QString) :
    SortedMap QString GroupMetadata :=
  match entries.find? fun e => sameName u e.1 name with
  | some e => normalized.insert name e.2
  | none => normalized

/-- `ensureGroupMetadata`, where `o'` is the order of the hashes that the first loops leave. -/
def ensureGroupMetadataIn (o' : HashOrder) (g : Groups) : Groups :=
  let names := orderedGroupNamesIn u o g
  let groups := g.groups.mapSome fun value => canonical u names (u.toLower (trimmed u value))
  let metadata := names.foldl (normalizeIn u (o.entries g.metadata)) SortedMap.empty
  let order := orderedGroupNamesIn u o' { g with groups := groups, metadata := metadata }
  { pinned := g.pinned
    groups := groups
    metadata := order.zipIdx.foldl (fun m e => m.insert e.1 (fillMetadata u metadata e.1 e.2))
      metadata
    groupOrder := order }

end Loops

variable {u : Unicode} {o o' : HashOrder} {g : Groups}

/-! ### Trimmed names -/

theorem dropWhile_rdropWhile (p : WChar → Bool) (s : QString) :
    ((s.dropWhile p).rdropWhile p).dropWhile p = (s.dropWhile p).rdropWhile p := by
  rw [dropWhile_eq_self_iff]
  intro hlen hp
  obtain ⟨rest, hrest⟩ := rdropWhile_prefix p (s.dropWhile p)
  have hlen' : 0 < (s.dropWhile p).length := by
    rw [← hrest, length_append]
    omega
  have hhead : (s.dropWhile p)[0] = ((s.dropWhile p).rdropWhile p)[0] := by
    have hget : ((s.dropWhile p).rdropWhile p ++ rest)[0]? = ((s.dropWhile p).rdropWhile p)[0]? :=
      getElem?_append_left hlen
    rw [hrest] at hget
    rw [getElem?_eq_getElem hlen', getElem?_eq_getElem hlen] at hget
    exact Option.some.inj hget
  have hnot := dropWhile_get_zero_not p s hlen'
  rw [get_eq_getElem] at hnot
  exact hnot (hhead ▸ hp)

theorem trimmed_trimmed (s : QString) : trimmed u (trimmed u s) = trimmed u s := by
  unfold trimmed
  rw [dropWhile_rdropWhile, rdropWhile_idempotent]

/-! ### Maps that are built by a loop -/

theorem value_foldl_insert {κ ν ε : Type} [LinearOrder κ] (key : ε → κ) (val : ε → ν) (k : κ) :
    ∀ (l : List ε) (m : SortedMap κ ν), (l.map key).Nodup →
      (∀ e ∈ l, key e = k → (l.foldl (fun m e => m.insert (key e) (val e)) m).value k =
        some (val e)) ∧
      ((∀ e ∈ l, key e ≠ k) → (l.foldl (fun m e => m.insert (key e) (val e)) m).value k =
        m.value k) := by
  intro l
  induction l with
  | nil => exact fun m _ => ⟨fun e he => absurd he not_mem_nil, fun _ => rfl⟩
  | cons e l ih =>
    intro m hnodup
    obtain ⟨hnew, hrest⟩ := nodup_cons.mp hnodup
    obtain ⟨hin, hout⟩ := ih (m.insert (key e) (val e)) hrest
    rw [foldl_cons]
    refine ⟨fun e' he' hk => ?_, fun hnone => ?_⟩
    · rcases mem_cons.mp he' with rfl | he'
      · have hothers : ∀ e ∈ l, key e ≠ k := by
          intro e he heq
          exact hnew (mem_map.mpr ⟨e, he, heq.trans hk.symm⟩)
        rw [hout hothers, SortedMap.value_insert, if_pos hk.symm]
      · exact hin e' he' hk
    · rw [hout fun e' he' => hnone e' (mem_cons_of_mem e he'), SortedMap.value_insert,
        if_neg fun heq => hnone e mem_cons_self heq.symm]

theorem value_foldl_normalizeIn (entries : List (QString × GroupMetadata)) (k : QString) :
    ∀ (names : List QString) (m : SortedMap QString GroupMetadata), Distinct u names →
      (k ∈ names → (names.foldl (normalizeIn u entries) m).value k =
        ((entries.find? fun e => sameName u e.1 k).map Prod.snd).or (m.value k)) ∧
      (k ∉ names → (names.foldl (normalizeIn u entries) m).value k = m.value k) := by
  intro names
  induction names with
  | nil => exact fun m _ => ⟨fun hk => absurd hk not_mem_nil, fun _ => rfl⟩
  | cons n names ih =>
    intro m hdistinct
    obtain ⟨hnew, hrest⟩ := pairwise_cons.mp hdistinct
    obtain ⟨hin, hout⟩ := ih (normalizeIn u entries m n) hrest
    have hself : k = n → (normalizeIn u entries m n).value k =
        ((entries.find? fun e => sameName u e.1 k).map Prod.snd).or (m.value k) := by
      rintro rfl
      unfold normalizeIn
      cases entries.find? fun e => sameName u e.1 k with
      | none => rfl
      | some e => rw [SortedMap.value_insert, if_pos rfl]; rfl
    have hother : k ≠ n → (normalizeIn u entries m n).value k = m.value k := by
      intro hne
      unfold normalizeIn
      cases entries.find? fun e => sameName u e.1 n with
      | none => rfl
      | some e => rw [SortedMap.value_insert, if_neg hne]
    rw [foldl_cons]
    refine ⟨fun hk => ?_, fun hk => ?_⟩
    · by_cases heq : k = n
      · have hnot : k ∉ names := fun hk => hnew k hk (congrArg u.fold heq.symm)
        rw [hout hnot, hself heq]
      · rw [hin ((mem_cons.mp hk).resolve_left heq), hother heq]
    · have hne : k ≠ n := fun heq => hk (heq ▸ mem_cons_self)
      rw [hout fun hmem => hk (mem_cons_of_mem n hmem), hother hne]

/-! ### The later of two names -/

theorem canonical_eq_some {order names : List QString} {lower name : QString}
    (hsorted : names.Pairwise (Before u order)) : canonical u names lower = some name ↔
      name ∈ names ∧ u.toLower name = lower ∧
        ∀ n ∈ names, u.toLower n = lower → n = name ∨ Before u order n name := by
  have hlast : ∀ {name}, canonical u names lower = some name →
      name ∈ names ∧ u.toLower name = lower ∧
        ∀ n ∈ names, u.toLower n = lower → n = name ∨ Before u order n name := by
    intro name hfind
    obtain ⟨hlower, behind, front, hsplit, hbehind⟩ := find?_eq_some_iff_append.mp hfind
    have hnames : names = front.reverse ++ name :: behind.reverse := by
      rw [← reverse_reverse names, hsplit, reverse_append, reverse_cons,
        append_assoc, singleton_append]
    refine ⟨?_, of_decide_eq_true hlower, fun n hn hsame => ?_⟩
    · rw [hnames]
      exact mem_append_right _ mem_cons_self
    rw [hnames] at hn hsorted
    rcases mem_append.mp hn with hfront | htail
    · exact .inr ((pairwise_append.mp hsorted).2.2 n hfront name mem_cons_self)
    · rcases mem_cons.mp htail with rfl | htail
      · exact .inl rfl
      · have hnot := hbehind n (mem_reverse.mp htail)
        rw [decide_eq_true hsame] at hnot
        exact absurd hnot (by decide)
  refine ⟨hlast, ?_⟩
  rintro ⟨hmem, hlower, hlater⟩
  cases hfind : canonical u names lower with
  | none =>
    have hnone := find?_eq_none.mp hfind name (mem_reverse.mpr hmem)
    exact absurd (decide_eq_true hlower) hnone
  | some name' =>
    obtain ⟨hmem', hlower', hlater'⟩ := hlast hfind
    rcases hlater name' hmem' hlower' with rfl | hbefore
    · rfl
    · rcases hlater' name hmem hlower with rfl | hbefore'
      · rfl
      · exact absurd hbefore' hbefore.asymm

/-! ### Groups that agree -/

theorem mem_hashKeys {m : SortedMap QString GroupMetadata} {n : QString} :
    n ∈ (o.entries m).map Prod.fst ↔ m.value n ≠ none := by
  rw [((o.entries_perm m).map Prod.fst).mem_iff]
  exact SortedMap.mem_keys

theorem mem_hashValues {m : SortedMap QString QString} {n : QString} :
    n ∈ o.values m ↔ ∃ tab, m.value tab = some n := by
  rw [(o.values_perm m).mem_iff]
  exact SortedMap.mem_values

/-- The order, the metadata and the groups of the tabs agree. -/
structure Agree (u : Unicode) (g : Groups) : Prop where
  proper : ∀ n ∈ g.groupOrder, Proper u n
  distinct : Distinct u g.groupOrder
  known : ∀ n ∈ g.groupOrder, g.metadata.value n ≠ none
  metadata : ∀ n m, g.metadata.value n = some m →
    ∃ i, g.groupOrder[i]? = some n ∧ m.order = i ∧ m.color ≠ none
  groups : ∀ tab n, g.groups.value tab = some n →
    n ∈ g.groupOrder ∧ canonical u g.groupOrder (u.toLower n) = some n

theorem Distinct.nodup {names : List QString} (h : Distinct u names) : names.Nodup :=
  h.imp fun hne heq => hne (congrArg u.fold heq)

theorem Agree.orderedGroupNamesIn (h : Agree u g) (o : HashOrder) :
    orderedGroupNamesIn u o g = g.groupOrder := by
  refine orderedNames_self h.proper h.distinct (fun n hn => ?_) fun n hn => ?_
  · exact mem_append_left _ (mem_append_left _ hn)
  rcases mem_append.mp hn with hn | hn
  · rcases mem_append.mp hn with hn | hn
    · exact hn
    · obtain ⟨m, hm⟩ := ne_none_iff_exists'.mp (mem_hashKeys.mp hn)
      obtain ⟨i, hi, -⟩ := h.metadata n m hm
      exact mem_of_getElem? hi
  · obtain ⟨tab, htab⟩ := mem_hashValues.mp hn
    exact (h.groups tab n htab).1

theorem ensureIn_of_agree (h : Agree u g)
    (htrimmed : ∀ tab n, g.groups.value tab = some n → trimmed u n = n) (o o' : HashOrder) :
    ensureGroupMetadataIn u o o' g = g := by
  have hgroups : g.groups.mapSome (fun value => canonical u g.groupOrder
      (u.toLower (trimmed u value))) = g.groups := by
    ext1 tab
    rw [SortedMap.value_mapSome]
    cases hvalue : g.groups.value tab with
    | none => rfl
    | some n =>
      obtain ⟨hmem, hcanonical⟩ := h.groups tab n hvalue
      show canonical u g.groupOrder (u.toLower (trimmed u n)) = some n
      rw [htrimmed tab n hvalue, hcanonical]
  have hmetadata : g.groupOrder.foldl (normalizeIn u (o.entries g.metadata)) SortedMap.empty =
      g.metadata := by
    ext1 k
    obtain ⟨hin, hout⟩ := value_foldl_normalizeIn (u := u) (o.entries g.metadata) k g.groupOrder
      SortedMap.empty h.distinct
    by_cases hk : k ∈ g.groupOrder
    · rw [hin hk, SortedMap.value_empty, or_none]
      obtain ⟨m, hm⟩ := ne_none_iff_exists'.mp (h.known k hk)
      have hentry := (o.entries_perm g.metadata).mem_iff.mpr (SortedMap.value_eq_some.mp hm)
      cases hfind : (o.entries g.metadata).find? fun e => sameName u e.1 k with
      | none =>
        exact absurd (sameName_iff.mpr rfl) (find?_eq_none.mp hfind _ hentry)
      | some e =>
        have hsame := find?_some hfind
        have hsome : g.metadata.value e.1 = some e.2 :=
          SortedMap.value_eq_some.mpr
            ((o.entries_perm g.metadata).mem_iff.mp (mem_of_find?_eq_some hfind))
        obtain ⟨i, hi, -⟩ := h.metadata _ _ hsome
        rw [← h.distinct.eq (mem_of_getElem? hi) hk (sameName_iff.mp hsame), hsome]
        rfl
    · rw [hout hk, SortedMap.value_empty]
      cases hvalue : g.metadata.value k with
      | none => rfl
      | some m =>
        obtain ⟨i, hi, -⟩ := h.metadata _ _ hvalue
        exact absurd (mem_of_getElem? hi) hk
  have hfill : g.groupOrder.zipIdx.foldl
      (fun m e => m.insert e.1 (fillMetadata u g.metadata e.1 e.2)) g.metadata = g.metadata := by
    ext1 k
    have hnodup : (g.groupOrder.zipIdx.map Prod.fst).Nodup := by
      rw [zipIdx_map_fst]
      exact h.distinct.nodup
    obtain ⟨hin, hout⟩ := value_foldl_insert Prod.fst
      (fun e : QString × Nat => fillMetadata u g.metadata e.1 e.2) k g.groupOrder.zipIdx
      g.metadata hnodup
    cases hvalue : g.metadata.value k with
    | none =>
      rw [hout, hvalue]
      rintro ⟨n, i⟩ he rfl
      have hmem : n ∈ g.groupOrder := mem_of_getElem? (mem_zipIdx_iff_getElem?.mp he)
      exact h.known n hmem hvalue
    | some m =>
      obtain ⟨i, hi, horder, hcolor⟩ := h.metadata _ _ hvalue
      rw [hin (k, i) (mem_zipIdx_iff_getElem?.mpr hi) rfl]
      show some (fillMetadata u g.metadata k i) = some m
      unfold fillMetadata
      rw [hvalue]
      obtain ⟨c, hc⟩ := ne_none_iff_exists'.mp hcolor
      obtain ⟨color, order, collapsed⟩ := m
      obtain rfl : order = i := horder
      obtain rfl : color = some c := hc
      rfl
  unfold ensureGroupMetadataIn
  simp only
  rw [h.orderedGroupNamesIn, hgroups, hmetadata]
  have hsame : { g with groups := g.groups, metadata := g.metadata } = g := rfl
  rw [hsame, h.orderedGroupNamesIn, hfill]

theorem orderedGroupNamesIn_facts (u : Unicode) (o : HashOrder) (g : Groups) :
    (orderedGroupNamesIn u o g).Pairwise (Before u g.groupOrder) ∧
    (∀ n ∈ orderedGroupNamesIn u o g, n ∈ sourcesIn o g ∧ Proper u n) ∧
    ∀ c ∈ sourcesIn o g, Proper u c → ∃ n ∈ orderedGroupNamesIn u o g, u.fold n = u.fold c :=
  orderedNames_facts u g.groupOrder (sourcesIn o g)

theorem orderedGroupNamesIn_distinct (u : Unicode) (o : HashOrder) (g : Groups) :
    Distinct u (orderedGroupNamesIn u o g) :=
  (orderedGroupNamesIn_facts u o g).1.imp fun hab => hab.fold_ne

theorem mem_orderedGroupNamesIn_of_known {g' : Groups} (horder : g'.groupOrder = g.groupOrder)
    (hknown : ∀ n ∈ (o'.entries g'.metadata).map Prod.fst ++ o'.values g'.groups,
      n ∈ orderedGroupNamesIn u o g) {n : QString} (hn : n ∈ orderedGroupNamesIn u o' g') :
    n ∈ orderedGroupNamesIn u o g := by
  have hsplit : ∀ (o : HashOrder) (g : Groups), orderedGroupNamesIn u o g =
      orderedNames u g.groupOrder
        (g.groupOrder ++ ((o.entries g.metadata).map Prod.fst ++ o.values g.groups)) := by
    intro o g
    rw [← append_assoc]
    rfl
  rw [hsplit] at hn
  simp only [hsplit o g] at hknown ⊢
  rw [horder] at hn
  exact mem_orderedNames_of_known hknown hn

/-- What the first two loops of `ensureGroupMetadata` leave. -/
def cleaned (u : Unicode) (o : HashOrder) (g : Groups) : Groups :=
  { g with
    groups := g.groups.mapSome fun value =>
      canonical u (orderedGroupNamesIn u o g) (u.toLower (trimmed u value))
    metadata := (orderedGroupNamesIn u o g).foldl (normalizeIn u (o.entries g.metadata))
      SortedMap.empty }

theorem ensureIn_groupOrder :
    (ensureGroupMetadataIn u o o' g).groupOrder = orderedGroupNamesIn u o' (cleaned u o g) := rfl

theorem ensureIn_groups : (ensureGroupMetadataIn u o o' g).groups = (cleaned u o g).groups := rfl

theorem cleaned_groups_value (tab : QString) : (cleaned u o g).groups.value tab =
    (g.groups.value tab).bind fun v =>
      canonical u (orderedGroupNamesIn u o g) (u.toLower (trimmed u v)) :=
  SortedMap.value_mapSome _ _ _

theorem cleaned_groups {tab n : QString} (h : (cleaned u o g).groups.value tab = some n) :
    n ∈ orderedGroupNamesIn u o g ∧ ∀ n' ∈ orderedGroupNamesIn u o g,
      u.toLower n' = u.toLower n → n' = n ∨ Before u g.groupOrder n' n := by
  rw [cleaned_groups_value] at h
  obtain ⟨v, -, hv⟩ := bind_eq_some_iff.mp h
  obtain ⟨hmem, hlower, hlater⟩ := (canonical_eq_some (orderedGroupNamesIn_facts u o g).1).mp hv
  rw [hlower]
  exact ⟨hmem, hlater⟩

theorem cleaned_metadata {n : QString} (h : (cleaned u o g).metadata.value n ≠ none) :
    n ∈ orderedGroupNamesIn u o g := by
  by_contra hnot
  exact h ((value_foldl_normalizeIn _ n _ _ (orderedGroupNamesIn_distinct u o g)).2 hnot)

theorem cleaned_known {n : QString} (h : n ∈ (o'.entries (cleaned u o g).metadata).map Prod.fst ++
    o'.values (cleaned u o g).groups) : n ∈ orderedGroupNamesIn u o g := by
  rcases mem_append.mp h with h | h
  · exact cleaned_metadata (mem_hashKeys.mp h)
  · obtain ⟨tab, htab⟩ := mem_hashValues.mp h
    exact (cleaned_groups htab).1

theorem mem_first_of_mem_second {n : QString}
    (hn : n ∈ orderedGroupNamesIn u o' (cleaned u o g)) : n ∈ orderedGroupNamesIn u o g :=
  @mem_orderedGroupNamesIn_of_known u o o' g (cleaned u o g) rfl (fun _ => cleaned_known) n hn

theorem mem_second_of_known {n : QString}
    (h : n ∈ (o'.entries (cleaned u o g).metadata).map Prod.fst ++
      o'.values (cleaned u o g).groups) : n ∈ orderedGroupNamesIn u o' (cleaned u o g) := by
  have hknown := cleaned_known h
  have hsource : n ∈ sourcesIn o' (cleaned u o g) := by
    rw [sourcesIn, append_assoc]
    exact mem_append_right _ h
  have hproper := ((orderedGroupNamesIn_facts u o g).2.1 n hknown).2
  obtain ⟨n', hn', hsame⟩ := (orderedGroupNamesIn_facts u o' _).2.2 n hsource hproper
  rw [← (orderedGroupNamesIn_distinct u o g).eq (mem_first_of_mem_second hn') hknown hsame]
  exact hn'

theorem ensureIn_metadata {i : Nat} {n : QString}
    (h : (orderedGroupNamesIn u o' (cleaned u o g))[i]? = some n) :
    (ensureGroupMetadataIn u o o' g).metadata.value n =
      some (fillMetadata u (cleaned u o g).metadata n i) := by
  have hnodup : ((orderedGroupNamesIn u o' (cleaned u o g)).zipIdx.map Prod.fst).Nodup := by
    rw [zipIdx_map_fst]
    exact (orderedGroupNamesIn_distinct u o' _).nodup
  exact (value_foldl_insert Prod.fst
    (fun e : QString × Nat => fillMetadata u (cleaned u o g).metadata e.1 e.2) n
    (orderedGroupNamesIn u o' (cleaned u o g)).zipIdx (cleaned u o g).metadata hnodup).1 (n, i)
      (mem_zipIdx_iff_getElem?.mpr h) rfl

theorem mem_second_of_metadata {n : QString}
    (h : (ensureGroupMetadataIn u o o' g).metadata.value n ≠ none) :
    n ∈ orderedGroupNamesIn u o' (cleaned u o g) := by
  by_contra hnot
  have hnodup : ((orderedGroupNamesIn u o' (cleaned u o g)).zipIdx.map Prod.fst).Nodup := by
    rw [zipIdx_map_fst]
    exact (orderedGroupNamesIn_distinct u o' _).nodup
  have hout : (ensureGroupMetadataIn u o o' g).metadata.value n =
      (cleaned u o g).metadata.value n := by
    refine (value_foldl_insert Prod.fst
      (fun e : QString × Nat => fillMetadata u (cleaned u o g).metadata e.1 e.2) n
      (orderedGroupNamesIn u o' (cleaned u o g)).zipIdx (cleaned u o g).metadata hnodup).2 ?_
    rintro ⟨n', i⟩ he rfl
    exact hnot (mem_of_getElem? (mem_zipIdx_iff_getElem?.mp he))
  rw [hout] at h
  exact hnot (mem_second_of_known (mem_append_left _ (mem_hashKeys.mpr h)))

theorem agree_ensureIn (u : Unicode) (o o' : HashOrder) (g : Groups) :
    Agree u (ensureGroupMetadataIn u o o' g) := by
  refine ⟨?_, ?_, ?_, ?_, ?_⟩
  · intro n hn
    exact ((orderedGroupNamesIn_facts u o g).2.1 n (mem_first_of_mem_second hn)).2
  · exact orderedGroupNamesIn_distinct u o' _
  · intro n hn
    obtain ⟨i, hi⟩ := mem_iff_getElem?.mp hn
    rw [ensureIn_metadata hi]
    exact some_ne_none _
  · intro n m hm
    have hmem := mem_second_of_metadata (hm ▸ some_ne_none m)
    obtain ⟨i, hi⟩ := mem_iff_getElem?.mp hmem
    rw [ensureIn_metadata hi] at hm
    cases hm
    refine ⟨i, hi, ?_⟩
    unfold fillMetadata
    cases (cleaned u o g).metadata.value n with
    | none => exact ⟨rfl, some_ne_none _⟩
    | some m => exact ⟨rfl, some_ne_none _⟩
  · rw [ensureIn_groupOrder, ensureIn_groups]
    intro tab n hn
    have hmem : n ∈ orderedGroupNamesIn u o' (cleaned u o g) :=
      mem_second_of_known (mem_append_right _ (mem_hashValues.mpr ⟨tab, hn⟩))
    have hsorted := (orderedGroupNamesIn_facts u o' (cleaned u o g)).1
    refine ⟨hmem, (canonical_eq_some hsorted).mpr ⟨hmem, rfl, fun n' hn' hlower => ?_⟩⟩
    exact (cleaned_groups hn).2 n' (mem_first_of_mem_second hn') hlower

/-! ### The tabs that stay in their groups -/

/-- A name is the first of those that are the same as it without case. -/
def First (u : Unicode) (cs : List QString) (n : QString) : Prop :=
  ∃ front behind, cs = front ++ n :: behind ∧ Proper u n ∧
    ∀ m ∈ front, Proper u m → u.fold m ≠ u.fold n

theorem first_concat {cs : List QString} {c n : QString} : First u (cs ++ [c]) n ↔
    First u cs n ∨ n = c ∧ Proper u c ∧ ∀ m ∈ cs, Proper u m → u.fold m ≠ u.fold c := by
  constructor
  · rintro ⟨front, behind, hsplit, hproper, hnew⟩
    rcases eq_nil_or_concat behind with rfl | ⟨behind, last, rfl⟩
    · obtain ⟨rfl, hlast⟩ := append_inj' hsplit rfl
      obtain rfl := singleton_inj.mp hlast
      exact .inr ⟨rfl, hproper, hnew⟩
    · rw [concat_eq_append, ← cons_append, ← append_assoc] at hsplit
      obtain ⟨rfl, -⟩ := append_inj' hsplit rfl
      exact .inl ⟨front, behind, rfl, hproper, hnew⟩
  · rintro (⟨front, behind, rfl, hproper, hnew⟩ | ⟨rfl, hproper, hnew⟩)
    · exact ⟨front, behind ++ [c], by rw [append_assoc, cons_append], hproper, hnew⟩
    · exact ⟨cs, [], rfl, hproper, hnew⟩

theorem mem_names_iff (cs : List QString) (n : QString) :
    n ∈ cs.foldl (appendUnique u) [] ↔ First u cs n := by
  induction cs using List.reverseRecOn with
  | nil =>
    refine ⟨fun h => absurd h not_mem_nil, ?_⟩
    rintro ⟨front, behind, hsplit, -⟩
    exact absurd hsplit.symm (append_ne_nil_of_right_ne_nil _ (cons_ne_nil _ _))
  | append_singleton cs c ih =>
    obtain ⟨-, hnames, hcover⟩ := names_facts u cs
    rw [foldl_append, foldl_cons, foldl_nil, first_concat, ← ih]
    rcases appendUnique_cases (cs.foldl (appendUnique u) []) c with
      ⟨heq, hfound⟩ | ⟨heq, hproper, hnew⟩
    · rw [heq]
      refine ⟨.inl, ?_⟩
      rintro (hn | ⟨-, hproper, hnone⟩)
      · exact hn
      · obtain ⟨m, hm, hsame⟩ := hfound hproper
        exact absurd hsame (hnone m (hnames m hm).1 (hnames m hm).2)
    · rw [heq, mem_append, mem_singleton]
      refine or_congr_right ⟨fun hn => ⟨hn, hproper, fun m hm hproper' hsame => ?_⟩, And.left⟩
      obtain ⟨m', hm', hsame'⟩ := hcover m hm hproper'
      exact hnew m' hm' (hsame'.trans hsame)

theorem canonical_eq_none {names : List QString} {lower : QString} :
    canonical u names lower = none ↔ ∀ n ∈ names, u.toLower n ≠ lower := by
  rw [canonical, find?_eq_none]
  simp only [mem_reverse, decide_eq_true_eq, ne_eq]

/-- What `toLower` makes of a name tells whether white space stands around it. -/
def KeepsSpace (u : Unicode) : Prop :=
  ∀ s, trimmed u (u.toLower s) = u.toLower s ↔ trimmed u s = s

theorem trimmed_of_toLower (h : KeepsSpace u) {a b : QString} (hb : trimmed u b = b)
    (hsame : u.toLower a = u.toLower b) : trimmed u a = a :=
  (h a).mp (hsame ▸ (h b).mpr hb)

theorem cleaned_trimmed (h : KeepsSpace u) {tab n : QString}
    (hn : (cleaned u o g).groups.value tab = some n) : trimmed u n = n := by
  rw [cleaned_groups_value] at hn
  obtain ⟨v, -, hv⟩ := bind_eq_some_iff.mp hn
  have hlower := ((canonical_eq_some (orderedGroupNamesIn_facts u o g).1).mp hv).2.1
  exact trimmed_of_toLower h (trimmed_trimmed v) hlower

theorem ensureIn_drops {tab v : QString} (hv : g.groups.value tab = some v) :
    (ensureGroupMetadataIn u o o' g).groups.value tab = none ↔
      ∀ n, First u (sourcesIn o g) n → u.toLower n ≠ u.toLower (trimmed u v) := by
  rw [ensureIn_groups, cleaned_groups_value, hv]
  show canonical u _ _ = none ↔ _
  rw [canonical_eq_none]
  refine forall_congr' fun n => ?_
  rw [orderedGroupNamesIn, mem_orderedNames, mem_names_iff]

/-- The groups are in their normal form, and no tab has lost a group with a valid name. -/
structure NormalForm (u : Unicode) (g g' : Groups) : Prop where
  distinct : Distinct u g'.groupOrder
  keys : ∀ n, g'.metadata.value n ≠ none ↔ n ∈ g'.groupOrder
  order : ∀ i n, g'.groupOrder[i]? = some n → ∃ m, g'.metadata.value n = some m ∧ m.order = i
  groups : ∀ tab n, g'.groups.value tab = some n → n ∈ g'.groupOrder
  again : ∀ o o' : HashOrder, ensureGroupMetadataIn u o o' g' = g'
  kept : ∀ tab v, g.groups.value tab = some v → g'.groups.value tab = none →
    validGroupName u v = false

theorem keepsSpace_of_map {lower : WChar → WChar} (hlower : u.toLower = List.map lower)
    (hspace : ∀ c, u.isSpace (lower c) = u.isSpace c) : KeepsSpace u := by
  intro s
  have hcomp : u.isSpace ∘ lower = u.isSpace := funext hspace
  have htrimmed : trimmed u (s.map lower) = (trimmed u s).map lower := by
    unfold trimmed List.rdropWhile
    rw [dropWhile_map, hcomp, ← map_reverse, dropWhile_map, hcomp, map_reverse]
  have hsub : (trimmed u s).Sublist s :=
    ( rdropWhile_prefix _ _).sublist.trans (dropWhile_sublist _)
  rw [hlower, htrimmed]
  refine ⟨fun h => hsub.eq_of_length ?_, fun h => by rw [h]⟩
  rw [← length_map lower, h, length_map]

/-- Latin and Greek capitals, and the two small sigmas, which only `compare` takes for one. -/
def greekLower (c : Nat) : Nat :=
  if 65 ≤ c ∧ c ≤ 90 ∨ 0x391 ≤ c ∧ c ≤ 0x3A9 then c + 32 else c

def greekFold (c : Nat) : Nat := if c = 0x3C2 then 0x3C3 else greekLower c

def greek : Unicode where
  isSpace := fun c => c = 32
  isControl := fun c => c < 32
  fold := List.map greekFold
  toLower := List.map greekLower
  fromHsv := id
  fold_nil := fun _ h => List.map_eq_nil_iff.mp h

theorem keepsSpace_greek : KeepsSpace greek := by
  refine keepsSpace_of_map rfl fun c => ?_
  show decide (greekLower c = (32 : Nat)) = decide (@Eq Nat c 32)
  rw [decide_eq_decide]
  unfold greekLower
  split
  · constructor <;> intro h <;> omega
  · rfl

def oneTab (order name : QString) : Groups :=
  { Groups.empty with groups := SortedMap.empty.insert [0x61] name, groupOrder := [order] }

/-- `ensureGroupMetadata` reaches the normal form, whatever it is given and however the hashes
are gone through, exactly if each tab with a valid group finds one of the names that are left
when they are told apart without case, by its letters after `toLower`. -/
theorem ensureGroupMetadata_iff (u : Unicode) (hspace : KeepsSpace u) (o o' : HashOrder)
    (g : Groups) : NormalForm u g (ensureGroupMetadataIn u o o' g) ↔
      ∀ tab v, g.groups.value tab = some v → validGroupName u v = true →
        ∃ n, First u (sourcesIn o g) n ∧ u.toLower n = u.toLower (trimmed u v) := by
  have hagree := agree_ensureIn u o o' g
  constructor
  · intro h tab v hv hvalid
    by_contra hnone
    have hdrop : (ensureGroupMetadataIn u o o' g).groups.value tab = none :=
      (ensureIn_drops hv).mpr fun n hn hsame => hnone ⟨n, hn, hsame⟩
    rw [h.kept tab v hv hdrop] at hvalid
    exact Bool.noConfusion hvalid
  · intro h
    refine ⟨hagree.distinct, fun n => ⟨fun hn => ?_, hagree.known n⟩, fun i n hn => ?_,
      fun tab n hn => (hagree.groups tab n hn).1, fun o₁ o₁' => ?_, fun tab v hv hdrop => ?_⟩
    · exact mem_second_of_metadata hn
    · obtain ⟨m, hm⟩ := ne_none_iff_exists'.mp
        (hagree.known n (List.mem_of_getElem? hn))
      obtain ⟨j, hj, horder, -⟩ := hagree.metadata n m hm
      have hij : i = j := (List.getElem?_inj (List.getElem?_eq_some_iff.mp hn).1
        hagree.distinct.nodup).mp (hn.trans hj.symm)
      exact ⟨m, hm, horder.trans hij.symm⟩
    · exact ensureIn_of_agree hagree (fun tab n hn => cleaned_trimmed hspace hn) o₁ o₁'
    · by_contra hvalid
      obtain ⟨n, hn, hsame⟩ := h tab v hv (Bool.not_eq_false _ ▸ hvalid)
      exact (ensureIn_drops hv).mp hdrop n hn hsame

theorem ensureGroupMetadata_iff_sigma :
    NormalForm greek (oneTab [0x3A3] [0x3C3])
      (ensureGroupMetadataIn greek HashOrder.byKey HashOrder.byKey (oneTab [0x3A3] [0x3C3])) := by
  refine (ensureGroupMetadata_iff greek keepsSpace_greek HashOrder.byKey HashOrder.byKey
    (oneTab [0x3A3] [0x3C3])).mpr fun tab v hv _ => ⟨[0x3A3], ?_, ?_⟩
  · exact (mem_names_iff _ _).mp (by decide)
  · have hentry : (tab, v) ∈ [(([0x61] : QString), ([0x3C3] : QString))] :=
      SortedMap.value_eq_some.mp hv
    rw [(Prod.mk.inj (mem_singleton.mp hentry)).2]
    decide

/-- The group is `Σ` and the tab is in `ς`, which `compare` takes for the same name: the tab
loses its group. -/
theorem ensureGroupMetadata_final_sigma :
    ¬ NormalForm greek (oneTab [0x3A3] [0x3C2])
      (ensureGroupMetadataIn greek HashOrder.byKey HashOrder.byKey (oneTab [0x3A3] [0x3C2])) := by
  intro h
  have hv : (oneTab [0x3A3] [0x3C2]).groups.value [0x61] = some [0x3C2] := by decide
  have hdrop : (ensureGroupMetadataIn greek HashOrder.byKey HashOrder.byKey
      (oneTab [0x3A3] [0x3C2])).groups.value [0x61] = none := by
    refine (ensureIn_drops hv).mpr fun n hn => ?_
    have hnames : (sourcesIn HashOrder.byKey (oneTab [0x3A3] [0x3C2])).foldl
        (appendUnique greek) [] = [[0x3A3]] := by decide
    have hn := (mem_names_iff _ _).mpr hn
    rw [hnames, mem_singleton] at hn
    rw [hn]
    decide
  exact absurd (h.kept _ _ hv hdrop) (by decide)

end Sandboxie.Tabs
