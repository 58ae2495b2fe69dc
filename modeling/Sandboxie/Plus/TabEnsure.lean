import Sandboxie.Plus.TabKeep

/-!
# The names after a change

A handler changes the groups and leaves it to `ensureGroupMetadata` to make them agree again.
The names are then those of the order, and at most one more (`orderedGroupNames_known`,
`orderedGroupNames_new`); the tabs stay in their groups as long as `toLower` tells the names
apart (`ensure_names`).
-/

namespace Sandboxie.Tabs

open List

variable {u : Unicode} {g : Groups}

/-! ### The names of the groups -/

theorem foldl_appendUnique_self {order : List QString} (hproper : ∀ n ∈ order, Proper u n)
    (hdistinct : Distinct u order) : ∀ n ∈ order, n ∈ order.foldl (appendUnique u) [] := by
  intro n hn
  obtain ⟨hdistinct', hmem, -, hcover⟩ := foldl_appendUnique (u := u) order [] List.Pairwise.nil
  obtain ⟨n', hn', hsame⟩ := hcover n hn (hproper n hn)
  rcases hmem n' hn' with hnil | ⟨hin, -⟩
  · exact absurd hnil not_mem_nil
  · rw [← hdistinct.eq hin hn hsame]
    exact hn'

theorem mem_orderedGroupNames_self (hproper : ∀ n ∈ g.groupOrder, Proper u n)
    (hdistinct : Distinct u g.groupOrder) : ∀ n ∈ g.groupOrder, n ∈ orderedGroupNames u g := by
  intro n hn
  have hbase : Distinct u (g.groupOrder.foldl (appendUnique u) []) :=
    (foldl_appendUnique g.groupOrder [] List.Pairwise.nil).1
  rw [mem_orderedGroupNames, allNames, sources, append_assoc, foldl_append]
  exact (foldl_appendUnique _ _ hbase).2.2.1 n (foldl_appendUnique_self hproper hdistinct n hn)

theorem mem_of_inOrder (hproper : ∀ n ∈ g.groupOrder, Proper u n)
    (hdistinct : Distinct u g.groupOrder) {n : QString} (hn : n ∈ orderedGroupNames u g)
    (hin : inOrder u g.groupOrder n = true) : n ∈ g.groupOrder := by
  obtain ⟨o, ho, hsame⟩ := inOrder_iff.mp hin
  have ho' := mem_orderedGroupNames_self hproper hdistinct o ho
  rw [← (orderedGroupNames_distinct u g).eq ho' hn hsame]
  exact ho

theorem orderedGroupNames_known (hproper : ∀ n ∈ g.groupOrder, Proper u n)
    (hdistinct : Distinct u g.groupOrder)
    (hsources : ∀ n ∈ sources g, Proper u n → inOrder u g.groupOrder n = true) :
    orderedGroupNames u g = g.groupOrder := by
  obtain ⟨hsorted, hmem, -⟩ := orderedGroupNames_facts u g
  refine eq_of_before hsorted (pairwise_before_self hdistinct) fun n => ⟨fun hn => ?_, fun hn => ?_⟩
  · obtain ⟨hsource, hproper'⟩ := hmem n hn
    exact mem_of_inOrder hproper hdistinct hn (hsources n hsource hproper')
  · exact mem_orderedGroupNames_self hproper hdistinct n hn

theorem orderedGroupNames_new (hproper : ∀ n ∈ g.groupOrder, Proper u n)
    (hdistinct : Distinct u g.groupOrder) {x : QString} (hx : x ∈ sources g) (hx' : Proper u x)
    (hnew : inOrder u g.groupOrder x = false)
    (hsources : ∀ n ∈ sources g, Proper u n → inOrder u g.groupOrder n = true ∨ n = x) :
    orderedGroupNames u g = g.groupOrder ++ [x] := by
  obtain ⟨hsorted, hmem, hcover⟩ := orderedGroupNames_facts u g
  have hlast : g.groupOrder.length ≤ place u g.groupOrder x := by
    refine Nat.le_of_not_lt fun hlt => ?_
    rw [place_lt.mp hlt] at hnew
    exact Bool.noConfusion hnew
  have hsorted' : (g.groupOrder ++ [x]).Pairwise (Before u g.groupOrder) := by
    refine pairwise_append.mpr ⟨pairwise_before_self hdistinct, pairwise_singleton _ _,
      fun a ha b hb => Or.inl ?_⟩
    rw [mem_singleton.mp hb]
    exact Nat.lt_of_lt_of_le (place_lt.mpr (inOrder_iff.mpr ⟨a, ha, rfl⟩)) hlast
  refine eq_of_before hsorted hsorted' fun n => ⟨fun hn => ?_, fun hn => ?_⟩
  · obtain ⟨hsource, hproper'⟩ := hmem n hn
    rcases hsources n hsource hproper' with hin | rfl
    · exact mem_append_left _ (mem_of_inOrder hproper hdistinct hn hin)
    · exact mem_append_right _ (mem_singleton_self n)
  · rcases mem_append.mp hn with hn | hn
    · exact mem_orderedGroupNames_self hproper hdistinct n hn
    · rw [mem_singleton.mp hn]
      obtain ⟨n', hn', hsame⟩ := hcover x hx hx'
      obtain ⟨hsource, hproper'⟩ := hmem n' hn'
      rcases hsources n' hsource hproper' with hin | rfl
      · obtain ⟨o, ho, hsame'⟩ := inOrder_iff.mp hin
        have hin' := inOrder_iff.mpr ⟨o, ho, hsame'.trans hsame⟩
        rw [hin'] at hnew
        exact Bool.noConfusion hnew
      · exact hn'

/-! ### The groups of the tabs -/

/-- No later name is the same to `toLower`. -/
def Last (u : Unicode) (names : List QString) (name : QString) : Prop :=
  ∃ front behind, names = front ++ name :: behind ∧ ∀ n ∈ behind, u.toLower n ≠ u.toLower name

variable {names : List QString} {name : QString}

theorem last_iff :
    Last u names name ↔ canonical u names (u.toLower name) = some name := by
  unfold canonical
  rw [find?_eq_some_iff_append]
  constructor
  · rintro ⟨front, behind, rfl, hbehind⟩
    refine ⟨decide_eq_true rfl, behind.reverse, front.reverse, ?_, fun n hn => ?_⟩
    · rw [reverse_append, reverse_cons, append_assoc, singleton_append]
    · rw [decide_eq_false (hbehind n (mem_reverse.mp hn))]
      rfl
  · rintro ⟨-, behind, front, hsplit, hbehind⟩
    refine ⟨front.reverse, behind.reverse, ?_, fun n hn heq => ?_⟩
    · rw [← reverse_reverse names, hsplit, reverse_append, reverse_cons,
        append_assoc, singleton_append]
    · have hnot := hbehind n (mem_reverse.mp hn)
      rw [decide_eq_true heq] at hnot
      exact absurd hnot (by decide)

theorem Last.mem (h : Last u names name) :
    name ∈ names := by
  obtain ⟨front, behind, rfl, -⟩ := h
  exact mem_append_right _ mem_cons_self

theorem Last.append {extra : List QString} (h : Last u names name)
    (hextra : ∀ n ∈ extra, u.toLower n ≠ u.toLower name) : Last u (names ++ extra) name := by
  obtain ⟨front, behind, rfl, hbehind⟩ := h
  refine ⟨front, behind ++ extra, ?_, fun n hn => ?_⟩
  · rw [append_assoc, cons_append]
  · rcases mem_append.mp hn with hn | hn
    · exact hbehind n hn
    · exact hextra n hn

/-- A change after which the groups of the tabs are names of the list, each the last of those
that are the same to `toLower`. -/
theorem ensure_names (hnames : orderedGroupNames u g = names)
    (hvalues : ∀ tab n, g.groups.value tab = some n → trimmed u n = n ∧ Last u names n) :
    (ensureGroupMetadata u g).groupOrder = names ∧
      (ensureGroupMetadata u g).groups = g.groups ∧
      (ensureGroupMetadata u g).pinned = g.pinned := by
  have hdistinct : Distinct u names := hnames ▸ orderedGroupNames_distinct u g
  have hgroups : g.groups.mapSome (fun value => canonical u names
      (u.toLower (trimmed u value))) = g.groups := by
    ext1 tab
    rw [SortedMap.value_mapSome]
    cases hvalue : g.groups.value tab with
    | none => rfl
    | some n =>
      obtain ⟨htrimmed, hlast⟩ := hvalues tab n hvalue
      show canonical u names (u.toLower (trimmed u n)) = some n
      rw [htrimmed, last_iff.mp hlast]
  unfold ensureGroupMetadata
  simp only
  rw [hnames, hgroups]
  generalize hmetadata : names.foldl (normalize u g.metadata) SortedMap.empty = metadata
  have hkeys : ∀ n, metadata.value n ≠ none ↔
      n ∈ names ∧ (g.metadata.entries.find? fun e => sameName u e.1 n) ≠ none := by
    intro n
    obtain ⟨hin, hout⟩ := value_foldl_normalize (u := u) g.metadata n names SortedMap.empty
      hdistinct
    rw [hmetadata] at hin hout
    by_cases hn : n ∈ names
    · rw [hin hn, SortedMap.value_empty, Option.or_none]
      simp only [ne_eq, Option.map_eq_none_iff, hn, true_and]
    · rw [hout hn, SortedMap.value_empty]
      exact ⟨fun h => absurd rfl h, fun h => absurd h.1 hn⟩
  -- The second round of the names finds the same ones.
  have hagain : orderedGroupNames u
    { g with groups := g.groups, metadata := metadata } = names := by
    obtain ⟨hsorted, hmem, hcover⟩ :=
      orderedGroupNames_facts u { g with groups := g.groups, metadata := metadata }
    obtain ⟨hsorted', hmem', -⟩ := orderedGroupNames_facts u g
    rw [hnames] at hsorted' hmem'
    have hsub : ∀ n ∈ orderedGroupNames u { g with groups := g.groups, metadata := metadata },
        n ∈ names := by
      intro n hn
      rw [← hnames]
      have horder : ({ g with groups := g.groups, metadata := metadata } : Groups).groupOrder =
        g.groupOrder := rfl
      refine mem_orderedGroupNames_of_known horder (fun n hn => ?_) hn
      rw [hnames]
      rcases mem_append.mp hn with hn | hn
      · exact ((hkeys n).mp (SortedMap.mem_keys.mp hn)).1
      · obtain ⟨tab, htab⟩ := SortedMap.mem_values.mp hn
        exact (hvalues tab n htab).2.mem
    refine eq_of_before hsorted hsorted' fun n => ⟨hsub n, fun hn => ?_⟩
    obtain ⟨hsource, hproper⟩ := hmem' n hn
    have hsource' : n ∈ sources { g with groups := g.groups, metadata := metadata } := by
      rcases mem_append.mp hsource with hsource | hsource
      · rcases mem_append.mp hsource with hsource | hsource
        · exact mem_append_left _ (mem_append_left _ hsource)
        · refine mem_append_left _ (mem_append_right _ (SortedMap.mem_keys.mpr ?_))
          obtain ⟨m, hm⟩ := Option.ne_none_iff_exists'.mp (SortedMap.mem_keys.mp hsource)
          refine (hkeys n).mpr ⟨hn, fun hnone => ?_⟩
          exact find?_eq_none.mp hnone _ (SortedMap.value_eq_some.mp hm) (sameName_iff.mpr rfl)
      · exact mem_append_right _ hsource
    obtain ⟨n', hn', hsame⟩ := hcover n hsource' hproper
    rw [← hdistinct.eq (hsub n' hn') hn hsame]
    exact hn'
  exact ⟨hagain, rfl, trivial⟩

end Sandboxie.Tabs
