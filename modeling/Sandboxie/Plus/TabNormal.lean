import Sandboxie.Plus.TabNormalForm

/-!
# Groups that agree

`Normal` says that the parts of the groups agree: each group has its metadata, and each tab
that is in a group is in one of the list.  `ensureGroupMetadata` makes them so and leaves them
so.
-/

namespace Sandboxie.Tabs

variable {u : Unicode} {g : Groups}

def Trimmed (u : Unicode) (g : Groups) : Prop := ∀ n ∈ sources g, trimmed u n = n

/-! ### Groups that agree -/

/-- The groups agree. -/
structure Normal (u : Unicode) (g : Groups) : Prop where
  proper : ∀ n ∈ g.groupOrder, Proper u n ∧ trimmed u n = n
  distinct : Distinct u g.groupOrder
  known : ∀ n ∈ g.groupOrder, g.metadata.value n ≠ none
  metadata : ∀ n m, g.metadata.value n = some m →
    ∃ i, g.groupOrder[i]? = some n ∧ m.order = i ∧ m.color ≠ none
  groups : ∀ tab n, g.groups.value tab = some n →
    n ∈ g.groupOrder ∧ canonical u g.groupOrder (u.toLower n) = some n

theorem Normal.sources (h : Normal u g) : ∀ n ∈ sources g, n ∈ g.groupOrder := by
  intro n hn
  rcases List.mem_append.mp hn with hn | hn
  · rcases List.mem_append.mp hn with hn | hn
    · exact hn
    · obtain ⟨m, hm⟩ := Option.ne_none_iff_exists'.mp (SortedMap.mem_keys.mp hn)
      obtain ⟨i, hi, -⟩ := h.metadata n m hm
      exact List.mem_of_getElem? hi
  · obtain ⟨tab, htab⟩ := SortedMap.mem_values.mp hn
    exact (h.groups tab n htab).1

theorem Normal.trimmed (h : Normal u g) : Trimmed u g :=
  fun n hn => (h.proper n (h.sources n hn)).2

theorem Normal.agree (h : Normal u g) : Agree u g :=
  ⟨fun n hn => (h.proper n hn).1, h.distinct, h.known, h.metadata, h.groups⟩

theorem Normal.orderedGroupNames (h : Normal u g) : orderedGroupNames u g = g.groupOrder :=
  h.agree.orderedGroupNamesIn HashOrder.byKey

theorem ensure_of_normal (h : Normal u g) : ensureGroupMetadata u g = g :=
  ensureIn_of_agree h.agree (fun tab n hn => (h.proper n (h.groups tab n hn).1).2)
    HashOrder.byKey HashOrder.byKey

theorem orderedGroupNames_distinct (u : Unicode) (g : Groups) :
    Distinct u (orderedGroupNames u g) :=
  orderedGroupNamesIn_distinct u HashOrder.byKey g

theorem mem_orderedGroupNames_of_known {g' : Groups} (horder : g'.groupOrder = g.groupOrder)
    (hknown : ∀ n ∈ g'.metadata.keys ++ g'.groups.values, n ∈ orderedGroupNames u g) {n : QString}
    (hn : n ∈ orderedGroupNames u g') : n ∈ orderedGroupNames u g :=
  @mem_orderedGroupNamesIn_of_known u HashOrder.byKey HashOrder.byKey g g' horder hknown n hn

theorem value_foldl_normalize (metadata : SortedMap QString GroupMetadata) (k : QString)
    (names : List QString) (m : SortedMap QString GroupMetadata) (h : Distinct u names) :
    (k ∈ names → (names.foldl (normalize u metadata) m).value k =
      ((metadata.entries.find? fun e => sameName u e.1 k).map Prod.snd).or (m.value k)) ∧
    (k ∉ names → (names.foldl (normalize u metadata) m).value k = m.value k) :=
  value_foldl_normalizeIn metadata.entries k names m h

theorem normal_ensure (htrimmed : Trimmed u g) : Normal u (ensureGroupMetadata u g) := by
  have hagree := agree_ensureIn u HashOrder.byKey HashOrder.byKey g
  refine ⟨fun n hn => ⟨hagree.proper n hn, htrimmed n ?_⟩, hagree.distinct, hagree.known,
    hagree.metadata, hagree.groups⟩
  have hn : n ∈ orderedGroupNames u g :=
    @mem_first_of_mem_second u HashOrder.byKey HashOrder.byKey g n hn
  exact ((orderedGroupNames_facts u g).2.1 n hn).1

end Sandboxie.Tabs
