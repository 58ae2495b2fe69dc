import Sandboxie.Common.Text
import Sandboxie.Lib.SortedMap
import Mathlib.Data.List.Sort
import Mathlib.Data.List.Lex
import Mathlib.Data.List.DropRight

/-!
# Tab groups

The part of `CTabStateManager` that knows nothing of pages
(`MiscHelpers/Common/TabStateManager.cpp`): which tabs are pinned, the group of each tab, and
the order, the colours and the collapsed flags of the groups.  `ensureGroupMetadata` makes the
parts agree after each change.

A `QHash` and a `QSet` are gone through in the order of their keys.  What Qt knows of
characters and colours is a parameter: two names are compared without case by `fold`, and
`toLower` need not agree with it.
-/

namespace Sandboxie.Tabs

open List

abbrev QString := List WChar

/-- What the groups use of Qt: its tables of characters, and the colour of a hue. -/
structure Unicode where
  isSpace : WChar → Bool
  isControl : WChar → Bool
  fold : QString → QString
  toLower : QString → QString
  fromHsv : Nat → Nat
  /-- Only the empty string is the same as the empty string. -/
  fold_nil : ∀ name, fold name = fold [] → name = []

/-- A `QColor` by its `HexArgb` name, if it is valid. -/
abbrev QColor := Option Nat

structure GroupMetadata where
  color : QColor := none
  order : Nat := 0
  collapsed : Bool := false
deriving DecidableEq

/-- `m_pinned`, `m_groups`, `m_groupMetadata` and `m_groupOrder` -/
structure Groups where
  pinned : SortedMap QString Unit
  groups : SortedMap QString QString
  metadata : SortedMap QString GroupMetadata
  groupOrder : List QString

namespace Groups

def empty : Groups :=
  { pinned := SortedMap.empty, groups := SortedMap.empty, metadata := SortedMap.empty
    groupOrder := [] }

/-- `m_pinned.contains` -/
def isPinned (g : Groups) (tab : QString) : Bool := (g.pinned.value tab).isSome

end Groups

section Names

variable (u : Unicode)

def trimmed (s : QString) : QString := (s.dropWhile u.isSpace).rdropWhile u.isSpace

/-- `compare` without case finds no difference. -/
def sameName (a b : QString) : Bool := u.fold a = u.fold b

def validGroupName (value : QString) : Bool :=
  let t := trimmed u value
  t ≠ [] && t.length ≤ 80 && t.all fun c => !u.isControl c

def defaultGroupColor (groupName : QString) : Nat :=
  let hash := groupName.foldl (fun hash c => (Nat.xor hash c * 16777619) % 2 ^ 32) 2166136261
  u.fromHsv (hash % 360)

def groupForTab (g : Groups) (tabName : QString) : QString :=
  trimmed u ((g.groups.value tabName).getD [])

def groupNameInUse (g : Groups) (value except : QString) : Bool :=
  let candidate := trimmed u value
  (g.metadata.keys ++ g.groups.values).any fun name =>
    !(except ≠ [] && sameName u name except) && sameName u name candidate

/-- `appendUnique` in `orderedGroupNames` -/
def appendUnique (names : List QString) (candidate : QString) : List QString :=
  if candidate = [] then names
  else if validGroupName u candidate = false then names
  else if names.any (sameName u · candidate) then names
  else names ++ [candidate]

/-- The names in the order in which `orderedGroupNames` comes to them. -/
def sources (g : Groups) : List QString := g.groupOrder ++ g.metadata.keys ++ g.groups.values

def allNames (g : Groups) : List QString := (sources g).foldl (appendUnique u) []

def inOrder (order : List QString) (name : QString) : Bool := order.any (sameName u · name)

def remainder (order names : List QString) : List QString :=
  (names.filter fun n => !inOrder u order n).mergeSort fun a b => u.fold a ≤ u.fold b

/-- A round of the loop over `m_groupOrder`. -/
def appendOrdered (names result : List QString) (name : QString) : List QString :=
  match names.find? fun candidate => sameName u candidate name && !result.contains candidate with
  | some candidate => result ++ [candidate]
  | none => result

def appendNew (result : List QString) (name : QString) : List QString :=
  if result.contains name then result else result ++ [name]

def orderedGroupNames (g : Groups) : List QString :=
  let names := allNames u g
  (remainder u g.groupOrder names).foldl appendNew (g.groupOrder.foldl (appendOrdered u names) [])

/-- `canonical` in `ensureGroupMetadata`: of two names that are the same to `toLower`, the
later one. -/
def canonical (names : List QString) (lower : QString) : Option QString :=
  names.reverse.find? fun name => u.toLower name = lower

/-- A round of the loop that gives the metadata to the names. -/
def normalize (metadata : SortedMap QString GroupMetadata)
    (normalized : SortedMap QString GroupMetadata) (name : QString) :
    SortedMap QString GroupMetadata :=
  match metadata.entries.find? fun e => sameName u e.1 name with
  | some e => normalized.insert name e.2
  | none => normalized

/-- A round of the last loop of `ensureGroupMetadata`. -/
def fillMetadata (metadata : SortedMap QString GroupMetadata) (name : QString) (index : Nat) :
    GroupMetadata :=
  match metadata.value name with
  | some m => { m with order := index, color := some (m.color.getD (defaultGroupColor u name)) }
  | none => { color := some (defaultGroupColor u name), order := index }

def ensureGroupMetadata (g : Groups) : Groups :=
  let names := orderedGroupNames u g
  let groups := g.groups.mapSome fun value => canonical u names (u.toLower (trimmed u value))
  let metadata := names.foldl (normalize u g.metadata) SortedMap.empty
  let order := orderedGroupNames u { g with groups := groups, metadata := metadata }
  { pinned := g.pinned
    groups := groups
    metadata := order.zipIdx.foldl (fun m e => m.insert e.1 (fillMetadata u metadata e.1 e.2))
      metadata
    groupOrder := order }

end Names

/-! ### Names without case -/

variable {u : Unicode} {g : Groups} {a b : QString}

theorem sameName_iff : sameName u a b = true ↔ u.fold a = u.fold b :=
  decide_eq_true_iff

variable {order : List QString} {name : QString}

theorem inOrder_iff :
    inOrder u order name = true ↔ ∃ o ∈ order, u.fold o = u.fold name := by
  simp only [inOrder, any_eq_true, sameName_iff]

def Distinct (u : Unicode) (names : List QString) : Prop :=
  names.Pairwise fun a b => u.fold a ≠ u.fold b

variable {names : List QString}

theorem Distinct.eq (h : Distinct u names)
    (ha : a ∈ names) (hb : b ∈ names) (heq : u.fold a = u.fold b) : a = b := by
  by_contra hne
  have hsymm : Std.Symm fun a b : QString => u.fold a ≠ u.fold b := ⟨fun _ _ hab => hab.symm⟩
  exact @List.Pairwise.forall _ _ _ hsymm h a ha b hb hne heq

/-- A name that can stand in the list of groups. -/
def Proper (u : Unicode) (name : QString) : Prop := name ≠ [] ∧ validGroupName u name = true

theorem appendUnique_cases (names : List QString) (c : QString) :
    (appendUnique u names c = names ∧ (Proper u c → ∃ n ∈ names, u.fold n = u.fold c)) ∨
    (appendUnique u names c = names ++ [c] ∧ Proper u c ∧ ∀ n ∈ names, u.fold n ≠ u.fold c) := by
  unfold appendUnique
  by_cases hnil : c = []
  · rw [if_pos hnil]
    exact .inl ⟨rfl, fun hproper => absurd hnil hproper.1⟩
  rw [if_neg hnil]
  by_cases hvalid : validGroupName u c = false
  · rw [if_pos hvalid]
    refine .inl ⟨rfl, fun hproper => ?_⟩
    rw [hproper.2] at hvalid
    exact Bool.noConfusion hvalid
  · rw [if_neg hvalid]
    by_cases hany : names.any (sameName u · c) = true
    · rw [if_pos hany]
      obtain ⟨n, hn, hsame⟩ := any_eq_true.mp hany
      exact .inl ⟨rfl, fun _ => ⟨n, hn, sameName_iff.mp hsame⟩⟩
    · rw [if_neg hany]
      refine .inr ⟨rfl, ⟨hnil, Bool.not_eq_false _ ▸ hvalid⟩, fun n hn hsame => hany ?_⟩
      exact any_eq_true.mpr ⟨n, hn, sameName_iff.mpr hsame⟩

theorem foldl_appendUnique : ∀ (cs names : List QString), Distinct u names →
    Distinct u (cs.foldl (appendUnique u) names) ∧
    (∀ n ∈ cs.foldl (appendUnique u) names, n ∈ names ∨ (n ∈ cs ∧ Proper u n)) ∧
    (∀ n ∈ names, n ∈ cs.foldl (appendUnique u) names) ∧
    ∀ c ∈ cs, Proper u c → ∃ n ∈ cs.foldl (appendUnique u) names, u.fold n = u.fold c := by
  intro cs
  induction cs with
  | nil =>
    intro names h
    exact ⟨h, fun n hn => .inl hn, fun n hn => hn, fun c hc => absurd hc not_mem_nil⟩
  | cons c cs ih =>
    intro names h
    rw [foldl_cons]
    rcases appendUnique_cases names c with ⟨heq, hfound⟩ | ⟨heq, hproper, hnew⟩
    · rw [heq]
      obtain ⟨h₁, h₂, h₃, h₄⟩ := ih names h
      refine ⟨h₁, fun n hn => ?_, h₃, fun c' hc' hproper => ?_⟩
      · exact (h₂ n hn).imp_right fun hm => ⟨mem_cons_of_mem c hm.1, hm.2⟩
      · rcases mem_cons.mp hc' with rfl | hc'
        · obtain ⟨n, hn, hsame⟩ := hfound hproper
          exact ⟨n, h₃ n hn, hsame⟩
        · exact h₄ c' hc' hproper
    · rw [heq]
      have hdistinct : Distinct u (names ++ [c]) := by
        refine pairwise_append.mpr ⟨h, pairwise_singleton _ _, ?_⟩
        intro a ha b hb
        rw [mem_singleton.mp hb]
        exact hnew a ha
      obtain ⟨h₁, h₂, h₃, h₄⟩ := ih (names ++ [c]) hdistinct
      refine ⟨h₁, fun n hn => ?_, fun n hn => h₃ n (mem_append_left _ hn),
        fun c' hc' hproper' => ?_⟩
      · rcases h₂ n hn with hold | hm
        · rcases mem_append.mp hold with hold | hself
          · exact .inl hold
          · rw [mem_singleton.mp hself]
            exact .inr ⟨mem_cons_self, hproper⟩
        · exact .inr ⟨mem_cons_of_mem c hm.1, hm.2⟩
      · rcases mem_cons.mp hc' with rfl | hc'
        · exact ⟨c', h₃ c' (mem_append_right _ (mem_singleton_self _)), rfl⟩
        · exact h₄ c' hc' hproper'

theorem names_facts (u : Unicode) (cs : List QString) :
    Distinct u (cs.foldl (appendUnique u) []) ∧
    (∀ n ∈ cs.foldl (appendUnique u) [], n ∈ cs ∧ Proper u n) ∧
    ∀ c ∈ cs, Proper u c → ∃ n ∈ cs.foldl (appendUnique u) [], u.fold n = u.fold c := by
  obtain ⟨h₁, h₂, -, h₄⟩ := foldl_appendUnique (u := u) cs [] List.Pairwise.nil
  exact ⟨h₁, fun n hn => (h₂ n hn).resolve_left not_mem_nil, h₄⟩

/-! ### The order of the names -/

/-- The place of a name in the order of the groups, behind which are those without one. -/
def place (u : Unicode) (order : List QString) (name : QString) : Nat :=
  order.findIdx fun o => u.fold o = u.fold name

/-- A name comes before another one: by its place, or without one by its letters. -/
def Before (u : Unicode) (order : List QString) (a b : QString) : Prop :=
  place u order a < place u order b ∨
    place u order a = place u order b ∧ u.fold a < u.fold b

theorem place_congr (h : u.fold a = u.fold b) :
    place u order a = place u order b := by
  rw [place, place, h]

theorem Before.fold_ne (h : Before u order a b) :
    u.fold a ≠ u.fold b := by
  intro heq
  rcases h with hlt | ⟨-, hlt⟩
  · exact absurd (place_congr heq) (Nat.ne_of_lt hlt)
  · rw [heq] at hlt
    exact absurd hlt (lt_irrefl _)

theorem Before.asymm (h : Before u order a b) :
    ¬ Before u order b a := by
  rcases h with hlt | ⟨heq, hlt⟩
  · rintro (hlt' | ⟨heq', -⟩) <;> omega
  · rintro (hlt' | ⟨-, hlt'⟩)
    · omega
    · exact lt_asymm hlt hlt'

theorem place_lt :
    place u order name < order.length ↔ inOrder u order name = true := by
  rw [place, findIdx_lt_length, inOrder_iff]
  simp only [decide_eq_true_eq]

/-- What the loop over the order of the groups has done. -/
structure Ordered (u : Unicode) (order names done result : List QString) : Prop where
  sorted : result.Pairwise (Before u order)
  mem : ∀ n ∈ result, n ∈ names ∧ ∃ o ∈ done, u.fold o = u.fold n
  complete : ∀ n ∈ names, (∃ o ∈ done, u.fold o = u.fold n) → n ∈ result

theorem ordered_nil (order names : List QString) : Ordered u order names [] [] := by
  refine ⟨List.Pairwise.nil, fun n hn => absurd hn not_mem_nil, ?_⟩
  rintro n - ⟨o, ho, -⟩
  exact absurd ho not_mem_nil

variable {order : List QString}

theorem Ordered.step {done rest result : List QString}
    (hdistinct : Distinct u names) (hsplit : order = done ++ name :: rest)
    (h : Ordered u order names done result) :
    Ordered u order names (done ++ [name]) (appendOrdered u names result name) := by
  unfold appendOrdered
  cases hfind : names.find? fun candidate =>
      sameName u candidate name && !result.contains candidate with
  | none =>
    refine ⟨h.sorted, fun n hn => ?_, fun n hn hdone => ?_⟩
    · obtain ⟨hname, o, ho, hsame⟩ := h.mem n hn
      exact ⟨hname, o, mem_append_left _ ho, hsame⟩
    obtain ⟨o, ho, hsame⟩ := hdone
    rcases mem_append.mp ho with ho | ho
    · exact h.complete n hn ⟨o, ho, hsame⟩
    · rw [mem_singleton.mp ho] at hsame
      by_contra hnot
      refine find?_eq_none.mp hfind n hn ?_
      rw [sameName_iff.mpr hsame.symm, Bool.true_and, Bool.not_eq_true',
        ← Bool.not_eq_true, contains_iff_mem]
      exact hnot
  | some c =>
    have hc : c ∈ names := mem_of_find?_eq_some hfind
    have hboth := find?_some hfind
    obtain ⟨hsame, hnew⟩ := Bool.and_eq_true_iff.mp hboth
    rw [sameName_iff] at hsame
    rw [Bool.not_eq_true', ← Bool.not_eq_true, contains_iff_mem] at hnew
    have hlate : done.length ≤ place u order c := by
      by_contra hlt
      have hlt : place u order c < done.length := Nat.lt_of_not_le hlt
      rw [hsplit, place, findIdx_append] at hlt
      have hin : done.findIdx (fun o => u.fold o = u.fold c) < done.length := by
        by_contra hge
        rw [if_neg hge] at hlt
        omega
      obtain ⟨o, ho, hsame'⟩ := findIdx_lt_length.mp hin
      exact hnew (h.complete c hc ⟨o, ho, of_decide_eq_true hsame'⟩)
    refine ⟨?_, fun n hn => ?_, fun n hn hdone => ?_⟩
    · refine pairwise_append.mpr ⟨h.sorted, pairwise_singleton _ _, ?_⟩
      intro a ha b hb
      rw [mem_singleton.mp hb]
      obtain ⟨-, o, ho, hsame'⟩ := h.mem a ha
      have hearly : done.findIdx (fun o => u.fold o = u.fold a) < done.length :=
        findIdx_lt_length.mpr ⟨o, ho, decide_eq_true hsame'⟩
      refine .inl (Nat.lt_of_lt_of_le ?_ hlate)
      rw [hsplit, place, findIdx_append, if_pos hearly]
      exact hearly
    · rcases mem_append.mp hn with hn | hn
      · obtain ⟨hname, o, ho, hsame'⟩ := h.mem n hn
        exact ⟨hname, o, mem_append_left _ ho, hsame'⟩
      · rw [mem_singleton.mp hn]
        exact ⟨hc, name, mem_append_right _ (mem_singleton_self _), hsame.symm⟩
    · obtain ⟨o, ho, hsame'⟩ := hdone
      rcases mem_append.mp ho with ho | ho
      · exact mem_append_left _ (h.complete n hn ⟨o, ho, hsame'⟩)
      · rw [mem_singleton.mp ho] at hsame'
        rw [hdistinct.eq hn hc (hsame'.symm.trans hsame.symm)]
        exact mem_append_right _ (mem_singleton_self _)

theorem foldl_appendOrdered (hdistinct : Distinct u names) :
    ∀ (rest done result : List QString), order = done ++ rest →
      Ordered u order names done result →
        Ordered u order names order (rest.foldl (appendOrdered u names) result) := by
  intro rest
  induction rest with
  | nil =>
    intro done result hsplit h
    rw [append_nil] at hsplit
    rw [hsplit] at h ⊢
    exact h
  | cons name rest ih =>
    intro done result hsplit h
    exact ih (done ++ [name]) _ (by rw [hsplit, append_assoc, singleton_append])
      (h.step hdistinct hsplit)

theorem ordered_order (order : List QString) (hdistinct : Distinct u names) :
    Ordered u order names order (order.foldl (appendOrdered u names) []) :=
  foldl_appendOrdered hdistinct order [] [] rfl (ordered_nil _ _)

theorem mem_remainder {n : QString} :
    n ∈ remainder u order names ↔ n ∈ names ∧ inOrder u order n = false := by
  rw [remainder, mem_mergeSort, mem_filter, Bool.not_eq_true']

theorem foldl_appendNew : ∀ (rest result : List QString), rest.Nodup →
    (∀ n ∈ rest, n ∉ result) → rest.foldl appendNew result = result ++ rest := by
  intro rest
  induction rest with
  | nil =>
    intro result _ _
    exact (append_nil result).symm
  | cons n rest ih =>
    intro result hnodup hnew
    obtain ⟨hn, hrest⟩ := nodup_cons.mp hnodup
    have hnot : n ∉ result := hnew n mem_cons_self
    have happend : appendNew result n = result ++ [n] := by
      rw [appendNew, if_neg]
      rw [contains_iff_mem]
      exact hnot
    rw [foldl_cons, happend, ih _ hrest, append_assoc, singleton_append]
    intro m hm hmem
    rcases mem_append.mp hmem with hmem | hself
    · exact hnew m (mem_cons_of_mem n hm) hmem
    · exact hn (mem_singleton.mp hself ▸ hm)

/-- The names that `orderedGroupNames` makes of an order and of the names it comes to. -/
def orderedNames (u : Unicode) (order cs : List QString) : List QString :=
  let names := cs.foldl (appendUnique u) []
  (remainder u order names).foldl appendNew (order.foldl (appendOrdered u names) [])

theorem orderedNames_eq (u : Unicode) (order cs : List QString) :
    orderedNames u order cs =
      order.foldl (appendOrdered u (cs.foldl (appendUnique u) [])) [] ++
        remainder u order (cs.foldl (appendUnique u) []) := by
  obtain ⟨hdistinct, -, -⟩ := names_facts u cs
  have hnodup : (cs.foldl (appendUnique u) []).Nodup :=
    hdistinct.imp fun hne heq => hne (congrArg u.fold heq)
  have hpart := ordered_order order hdistinct
  refine foldl_appendNew _ _ ?_ ?_
  · exact (mergeSort_perm _ _).nodup_iff.mpr (hnodup.filter _)
  · intro n hn hmem
    obtain ⟨-, o, ho, hsame⟩ := hpart.mem n hmem
    have hin := inOrder_iff.mpr ⟨o, ho, hsame⟩
    rw [(mem_remainder.mp hn).2] at hin
    exact Bool.noConfusion hin

theorem orderedNames_facts (u : Unicode) (order cs : List QString) :
    (orderedNames u order cs).Pairwise (Before u order) ∧
    (∀ n ∈ orderedNames u order cs, n ∈ cs ∧ Proper u n) ∧
    ∀ c ∈ cs, Proper u c → ∃ n ∈ orderedNames u order cs, u.fold n = u.fold c := by
  obtain ⟨hdistinct, hproper, hcover⟩ := names_facts u cs
  rw [orderedNames_eq]
  generalize cs.foldl (appendUnique u) [] = names at hdistinct hproper hcover ⊢
  have hpart := ordered_order order hdistinct
  have hplace : ∀ n ∈ remainder u order names,
      place u order n = order.length := by
    intro n hn
    refine Nat.le_antisymm findIdx_le_length (Nat.le_of_not_lt fun hlt => ?_)
    have hin := place_lt.mp hlt
    rw [(mem_remainder.mp hn).2] at hin
    exact Bool.noConfusion hin
  refine ⟨?_, fun n hn => ?_, fun c hc hproper' => ?_⟩
  · refine pairwise_append.mpr ⟨hpart.sorted, ?_, fun a ha b hb => ?_⟩
    · have hsorted : (remainder u order names).Pairwise
          fun a b => u.fold a ≤ u.fold b := by
        have hle := @pairwise_mergeSort QString (fun a b => decide (u.fold a ≤ u.fold b))
          (fun a b c hab hbc => decide_eq_true
            (le_trans (of_decide_eq_true hab) (of_decide_eq_true hbc)))
          (fun a b => by
            rcases le_total (u.fold a) (u.fold b) with h | h
            · simp only [h, decide_true, Bool.true_or]
            · simp only [h, decide_true, Bool.or_true])
          (names.filter fun n => !inOrder u order n)
        exact hle.imp fun h => of_decide_eq_true h
      have hdiffer : Distinct u (remainder u order names) := by
        have hfilter : Distinct u (names.filter fun n => !inOrder u order n) :=
          hdistinct.filter _
        exact (mergeSort_perm _ _).symm.pairwise hfilter fun hne => hne.symm
      refine List.Pairwise.imp_of_mem ?_ (hsorted.and hdiffer)
      intro a b ha hb hab
      exact .inr ⟨(hplace a ha).trans (hplace b hb).symm, lt_of_le_of_ne hab.1 hab.2⟩
    · obtain ⟨-, o, ho, hsame⟩ := hpart.mem a ha
      refine .inl ?_
      rw [hplace b hb]
      exact place_lt.mpr (inOrder_iff.mpr ⟨o, ho, hsame⟩)
  · rcases mem_append.mp hn with hn | hn
    · exact hproper n (hpart.mem n hn).1
    · exact hproper n (mem_remainder.mp hn).1
  · obtain ⟨n, hn, hsame⟩ := hcover c hc hproper'
    refine ⟨n, ?_, hsame⟩
    cases hin : inOrder u order n with
    | true => exact mem_append_left _ (hpart.complete n hn (inOrder_iff.mp hin))
    | false => exact mem_append_right _ (mem_remainder.mpr ⟨hn, hin⟩)

theorem orderedGroupNames_facts (u : Unicode) (g : Groups) :
    (orderedGroupNames u g).Pairwise (Before u g.groupOrder) ∧
    (∀ n ∈ orderedGroupNames u g, n ∈ sources g ∧ Proper u n) ∧
    ∀ c ∈ sources g, Proper u c → ∃ n ∈ orderedGroupNames u g, u.fold n = u.fold c :=
  orderedNames_facts u g.groupOrder (sources g)

theorem pairwise_before_self (h : Distinct u order) :
    order.Pairwise (Before u order) := by
  refine pairwise_iff_getElem.mpr fun i j hi hj hij => .inl ?_
  have hplace : ∀ (k : Nat) (hk : k < order.length), place u order order[k] = k := by
    intro k hk
    refine (findIdx_eq hk).mpr ⟨decide_eq_true rfl, fun m hm => decide_eq_false ?_⟩
    exact pairwise_iff_getElem.mp h m k (by omega) hk hm
  rw [hplace i hi, hplace j hj]
  exact hij

theorem eq_of_before {l l' : List QString} (h : l.Pairwise (Before u order))
    (h' : l'.Pairwise (Before u order)) (hmem : ∀ n, n ∈ l ↔ n ∈ l') : l = l' := by
  have hnodup : ∀ {l : List QString}, l.Pairwise (Before u order) → l.Nodup :=
    fun hl => hl.imp fun hab heq => hab.fold_ne (congrArg u.fold heq)
  have hperm : l.Perm l' := (perm_ext_iff_of_nodup (hnodup h) (hnodup h')).mpr hmem
  exact hperm.eq_of_pairwise (fun a b _ _ hab hba => absurd hba hab.asymm) h h'

theorem orderedNames_self {cs : List QString} (hproper : ∀ n ∈ order, Proper u n)
    (hdistinct : Distinct u order) (horder : ∀ n ∈ order, n ∈ cs)
    (hsources : ∀ n ∈ cs, n ∈ order) : orderedNames u order cs = order := by
  obtain ⟨hsorted, hmem, hcover⟩ := orderedNames_facts u order cs
  refine eq_of_before hsorted (pairwise_before_self hdistinct) fun n => ⟨fun hn => ?_, fun hn => ?_⟩
  · exact hsources n (hmem n hn).1
  · obtain ⟨n', hn', hsame⟩ := hcover n (horder n hn) (hproper n hn)
    rw [← hdistinct.eq (hsources n' (hmem n' hn').1) hn hsame]
    exact hn'

theorem mem_orderedNames {cs : List QString} {n : QString} :
    n ∈ orderedNames u order cs ↔ n ∈ cs.foldl (appendUnique u) [] := by
  have hpart := ordered_order order (names_facts u cs).1
  rw [orderedNames_eq, mem_append]
  constructor
  · rintro (hn | hn)
    · exact (hpart.mem n hn).1
    · exact (mem_remainder.mp hn).1
  · intro hn
    cases hin : inOrder u order n with
    | true => exact .inl (hpart.complete n hn (inOrder_iff.mp hin))
    | false => exact .inr (mem_remainder.mpr ⟨hn, hin⟩)

theorem mem_orderedGroupNames {n : QString} :
    n ∈ orderedGroupNames u g ↔ n ∈ allNames u g :=
  mem_orderedNames

theorem mem_orderedNames_of_known {tail tail' : List QString}
    (hknown : ∀ n ∈ tail', n ∈ orderedNames u order (order ++ tail)) {n : QString}
    (hn : n ∈ orderedNames u order (order ++ tail')) :
    n ∈ orderedNames u order (order ++ tail) := by
  have hbase : Distinct u (order.foldl (appendUnique u) []) := (names_facts u order).1
  rw [mem_orderedNames, foldl_append] at hn
  rcases (foldl_appendUnique _ _ hbase).2.1 n hn with hn | hn
  · rw [mem_orderedNames, foldl_append]
    exact (foldl_appendUnique _ _ hbase).2.2.1 n hn
  · exact hknown n hn.1

end Sandboxie.Tabs
