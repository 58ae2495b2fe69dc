import Sandboxie.Common.NetFw

/-!
# The ranges of one rule

`NetFw_ParseRule` adds the ranges of a list to the tree of a rule one by one.  Of the ranges
that begin at one place the tree keeps the first (`Leads`), and a lookup looks at the nearest
one below alone, so that a listed value is passed over when a range that begins later ends
before it (`Open`).
-/

namespace Sandboxie.NetFw

open RangeMap List

section Trees

variable {α : Type*} [LinearOrder α]

/-- The common body of `NetFw_RuleAddPortRange` and `NetFw_RuleAddIpRange`. -/
def ruleAddRange (tree : RangeMap α) (first last : α) : RangeMap α := tree.insert ⟨first, last⟩

def ruleTree (list : List (Range α)) : RangeMap α :=
  list.foldl (fun tree r => ruleAddRange tree r.first r.last) RangeMap.empty

def Contains (r : Range α) (x : α) : Prop := r.first ≤ x ∧ x ≤ r.last

instance (r : Range α) (x : α) : Decidable (Contains r x) := inferInstanceAs (Decidable (_ ∧ _))

/-- A range is the first of the list to begin where it does. -/
def Leads (list : List (Range α)) (r : Range α) : Prop :=
  list.find? (fun y => y.first = r.first) = some r

variable {list : List (Range α)}

theorem Leads.mem {r : Range α} (h : Leads list r) : r ∈ list :=
  mem_of_find?_eq_some h

theorem exists_leads {r : Range α} (h : r ∈ list) :
    ∃ z, Leads list z ∧ z.first = r.first := by
  cases hfind : list.find? fun y => y.first = r.first with
  | none => exact absurd (decide_eq_true rfl) (find?_eq_none.mp hfind r h)
  | some z =>
    have hfound := find?_some hfind
    have hz : z.first = r.first := of_decide_eq_true hfound
    refine ⟨z, ?_, hz⟩
    unfold Leads
    rw [hz]
    exact hfind

theorem mem_foldl_ruleAddRange (list : List (Range α)) : ∀ (tree : RangeMap α) (z : Range α),
    z ∈ list.foldl (fun tree r => ruleAddRange tree r.first r.last) tree ↔
      z ∈ tree ∨ (Leads list z ∧ ∀ y ∈ tree, y.first ≠ z.first) := by
  induction list with
  | nil =>
    intro tree z
    refine ⟨.inl, fun h => h.resolve_right fun hand => ?_⟩
    exact (nomatch hand.1)
  | cons r list ih =>
    intro tree z
    rw [foldl_cons, ih]
    have hadd : ∀ w, w ∈ ruleAddRange tree r.first r.last ↔
        w ∈ tree ∨ (w = r ∧ ∀ y ∈ tree, y.first ≠ r.first) := fun w => mem_insert
    unfold Leads
    rw [find?_cons]
    by_cases hfirst : r.first = z.first
    · rw [decide_eq_true hfirst]
      constructor
      · rintro (hz | ⟨-, hne⟩)
        · rcases (hadd z).mp hz with hz | ⟨rfl, hne⟩
          · exact .inl hz
          · exact .inr ⟨rfl, hne⟩
        · by_cases hold : ∃ y ∈ tree, y.first = r.first
          · obtain ⟨y, hy, heq⟩ := hold
            exact absurd (heq.trans hfirst) (hne y ((hadd y).mpr (.inl hy)))
          · have hnew : ∀ y ∈ tree, y.first ≠ r.first := fun y hy heq => hold ⟨y, hy, heq⟩
            exact absurd hfirst (hne r ((hadd r).mpr (.inr ⟨rfl, hnew⟩)))
      · rintro (hz | ⟨heq, hne⟩)
        · exact .inl ((hadd z).mpr (.inl hz))
        · obtain rfl : r = z := Option.some.inj heq
          exact .inl ((hadd r).mpr (.inr ⟨rfl, hne⟩))
    · rw [decide_eq_false hfirst]
      constructor
      · rintro (hz | ⟨hfind, hne⟩)
        · rcases (hadd z).mp hz with hz | ⟨rfl, -⟩
          · exact .inl hz
          · exact absurd rfl hfirst
        · exact .inr ⟨hfind, fun y hy => hne y ((hadd y).mpr (.inl hy))⟩
      · rintro (hz | ⟨hfind, hne⟩)
        · exact .inl ((hadd z).mpr (.inl hz))
        · refine .inr ⟨hfind, fun y hy => ?_⟩
          rcases (hadd y).mp hy with hy | ⟨rfl, -⟩
          · exact hne y hy
          · exact hfirst

theorem mem_ruleTree {z : Range α} : z ∈ ruleTree list ↔ Leads list z := by
  unfold ruleTree
  rw [mem_foldl_ruleAddRange]
  refine ⟨fun h => (h.resolve_left not_mem_nil).1, fun h => .inr ⟨h, fun y hy => ?_⟩⟩
  exact absurd hy not_mem_nil

def Nearest (list : List (Range α)) (x : α) (z : Range α) : Prop :=
  Leads list z ∧ z.first ≤ x ∧ ∀ y ∈ list, y.first ≤ x → y.first ≤ z.first

theorem findLessEqual_ruleTree {x : α} {z : Range α} :
    (ruleTree list).findLessEqual x = some z ↔ Nearest list x z := by
  rw [findLessEqual_eq_some_iff, mem_ruleTree]
  refine and_congr_right fun _ => and_congr_right fun _ => ⟨fun h y hy hle => ?_, fun h y hy => ?_⟩
  · obtain ⟨w, hw, hfirst⟩ := exists_leads hy
    rw [← hfirst] at hle ⊢
    exact h w (mem_ruleTree.mpr hw) hle
  · exact h y (mem_ruleTree.mp hy).mem

/-! ### What a lookup reports -/

/-- A match with a listed range is reported.  (`NETFW_MATCH_GLOBAL` says that there is no list.) -/
def Reports (level : Nat) : Prop := level = matchRange ∨ level = matchExact

/-- A lookup of a value says what the list says of it. -/
structure Means (list : List (Range α)) (x : α) : Prop where
  reported : Reports (matchTree (ruleTree list) x) ↔ ∃ r ∈ list, Contains r x
  exact : matchTree (ruleTree list) x = matchExact ↔ (⟨x, x⟩ : Range α) ∈ list

/-- A value of a listed range lies behind the end of a range that leads and begins in it, and no
other range begins between. -/
def Open (list : List (Range α)) (z r : Range α) (x : α) : Prop :=
  r.first ≤ z.first ∧ z.first ≤ x ∧ z.last < x ∧ x ≤ r.last ∧
    ∀ y ∈ list, y.first ≤ x → y.first ≤ z.first

/-- No listed value is passed over, and no single value is listed behind a longer range that
begins with it. -/
structure Apart (list : List (Range α)) : Prop where
  closed : ∀ z, Leads list z → ∀ r ∈ list, ∀ x, ¬ Open list z r x
  single : ∀ z, Leads list z → (⟨z.first, z.first⟩ : Range α) ∈ list → z.last = z.first

theorem matchTree_of_nearest {x : α} {z : Range α}
    (h : Nearest list x z) : matchTree (ruleTree list) x =
      if z.last < x then matchNone else if z.first = z.last then matchExact else matchRange := by
  have hne : (ruleTree list).count ≠ 0 := by
    intro hzero
    have hmem : z ∈ (ruleTree list).ranges := mem_ruleTree.mpr h.1
    rw [count_eq_zero.mp hzero] at hmem
    exact absurd hmem not_mem_nil
  unfold matchTree
  rw [if_neg hne, findLessEqual_ruleTree.mpr h]
  simp only
  have hnot : (x < z.first ∨ z.last < x) ↔ z.last < x :=
    ⟨fun hor => hor.resolve_left (not_lt.mpr h.2.1), .inr⟩
  rw [if_congr hnot rfl rfl]

theorem means_of_none {x : α} (h : ∀ y ∈ list, x < y.first) :
    Means list x := by
  have hlevel : matchTree (ruleTree list) x = matchGlobal ∨
      matchTree (ruleTree list) x = matchNone := by
    have hnone : (ruleTree list).findLessEqual x = none :=
      findLessEqual_eq_none_iff.mpr fun y hy => h y (mem_ruleTree.mp hy).mem
    unfold matchTree
    rw [hnone]
    by_cases hcount : (ruleTree list).count = 0
    · exact .inl (if_pos hcount)
    · exact .inr (if_neg hcount)
  refine ⟨⟨fun hrep => ?_, fun ⟨r, hr, hin⟩ => ?_⟩, ⟨fun heq => ?_, fun hmem => ?_⟩⟩
  · rcases hlevel with hlevel | hlevel <;> rw [hlevel] at hrep <;>
      exact absurd hrep (by unfold Reports; decide)
  · exact absurd hin.1 (not_le.mpr (h r hr))
  · rcases hlevel with hlevel | hlevel <;> rw [hlevel] at heq <;> exact absurd heq (by decide)
  · exact absurd (h _ hmem) (lt_irrefl x)

theorem nearest_or_none (list : List (Range α)) (x : α) :
    (∃ z, Nearest list x z) ∨ ∀ y ∈ list, x < y.first := by
  cases hfind : (ruleTree list).findLessEqual x with
  | some z => exact .inl ⟨z, findLessEqual_ruleTree.mp hfind⟩
  | none =>
    refine .inr fun y hy => ?_
    obtain ⟨z, hz, hfirst⟩ := exists_leads hy
    rw [← hfirst]
    exact findLessEqual_eq_none_iff.mp hfind z (mem_ruleTree.mpr hz)

theorem means_iff_nearest {x : α} {z : Range α} (h : Nearest list x z) :
    Means list x ↔ (∀ r ∈ list, Contains r x → x ≤ z.last) ∧
      ((⟨x, x⟩ : Range α) ∈ list → z = ⟨x, x⟩) := by
  have hlevel := matchTree_of_nearest h
  have hreports : Reports (matchTree (ruleTree list) x) ↔ x ≤ z.last := by
    rw [hlevel]
    by_cases hlast : z.last < x
    · rw [if_pos hlast]
      exact ⟨fun hrep => absurd hrep (by unfold Reports; decide),
        fun hle => absurd hlast (not_lt.mpr hle)⟩
    · rw [if_neg hlast]
      refine ⟨fun _ => not_lt.mp hlast, fun _ => ?_⟩
      split_ifs
      · exact .inr rfl
      · exact .inl rfl
  have hexact : matchTree (ruleTree list) x = matchExact ↔ z = ⟨x, x⟩ := by
    rw [hlevel]
    refine ⟨fun heq => ?_, fun heq => ?_⟩
    · by_cases hlast : z.last < x
      · rw [if_pos hlast] at heq
        exact absurd heq (by decide)
      · rw [if_neg hlast] at heq
        by_cases hone : z.first = z.last
        · have hx : z.first = x := le_antisymm h.2.1 (hone ▸ not_lt.mp hlast)
          obtain ⟨first, last⟩ := z
          obtain rfl : first = x := hx
          obtain rfl : first = last := hone
          rfl
        · rw [if_neg hone] at heq
          exact absurd heq (by decide)
    · rw [heq, if_neg (lt_irrefl x), if_pos rfl]
  refine ⟨fun hmeans => ⟨fun r hr hin => ?_, fun hmem => ?_⟩, fun ⟨hall, hsingle⟩ => ⟨?_, ?_⟩⟩
  · exact hreports.mp (hmeans.reported.mpr ⟨r, hr, hin⟩)
  · exact hexact.mp (hmeans.exact.mpr hmem)
  · rw [hreports]
    refine ⟨fun hle => ⟨z, h.1.mem, h.2.1, hle⟩, fun ⟨r, hr, hin⟩ => hall r hr hin⟩
  · rw [hexact]
    exact ⟨fun heq => heq ▸ h.1.mem, hsingle⟩

theorem means_iff (list : List (Range α)) : (∀ x, Means list x) ↔ Apart list := by
  constructor
  · intro hmeans
    refine ⟨fun z hz r hr x hopen => ?_, fun z hz hmem => ?_⟩
    · obtain ⟨hbegin, hzx, hend, hrx, hnone⟩ := hopen
      have hnear : Nearest list x z := ⟨hz, hzx, hnone⟩
      have hle := ((means_iff_nearest hnear).mp (hmeans x)).1 r hr ⟨hbegin.trans hzx, hrx⟩
      exact absurd hend (not_lt.mpr hle)
    · have hnear : Nearest list z.first z := ⟨hz, le_refl _, fun y _ hle => hle⟩
      have heq := ((means_iff_nearest hnear).mp (hmeans z.first)).2 hmem
      exact congrArg Range.last heq
  · intro hapart x
    rcases nearest_or_none list x with ⟨z, hnear⟩ | hnone
    · refine (means_iff_nearest hnear).mpr ⟨fun r hr hin => ?_, fun hmem => ?_⟩
      · by_contra hlast
        have hbegin := hnear.2.2 r hr hin.1
        exact hapart.closed z hnear.1 r hr x ⟨hbegin, hnear.2.1, not_le.mp hlast, hin.2, hnear.2.2⟩
      · have hfirst : z.first = x := le_antisymm hnear.2.1 (hnear.2.2 _ hmem (le_refl x))
        have hlast := hapart.single z hnear.1 (by rw [hfirst]; exact hmem)
        obtain ⟨first, last⟩ := z
        obtain rfl : first = x := hfirst
        obtain rfl : last = first := hlast
        rfl
    · exact means_of_none hnone

end Trees

/-- `NetFw_RuleAddPortRange` -/
def ruleAddPortRange : RangeMap Port → Port → Port → RangeMap Port := ruleAddRange
/-- `NetFw_RuleAddIpRange` -/
def ruleAddIpRange : RangeMap IpAddress → IpAddress → IpAddress → RangeMap IpAddress := ruleAddRange

def portMap (ports : List (Range Port)) : RangeMap Port :=
  ports.foldl (fun tree r => ruleAddPortRange tree r.first r.last) RangeMap.empty

def ipMap (ips : List (Range IpAddress)) : RangeMap IpAddress :=
  ips.foldl (fun tree r => ruleAddIpRange tree r.first r.last) RangeMap.empty

/-- **A list means the union of its ranges exactly when it is `Apart`.** -/
theorem lists_mean_iff (ports : List (Range Port)) (ips : List (Range IpAddress)) :
    ((∀ port, (Reports (matchPort (portMap ports) port) ↔ ∃ r ∈ ports, Contains r port) ∧
      (matchPort (portMap ports) port = matchExact ↔ ⟨port, port⟩ ∈ ports)) ↔ Apart ports) ∧
    ((∀ ip, (Reports (matchAddress (ipMap ips) ip) ↔ ∃ r ∈ ips, Contains r ip) ∧
      (matchAddress (ipMap ips) ip = matchExact ↔ ⟨ip, ip⟩ ∈ ips)) ↔ Apart ips) := by
  refine ⟨?_, ?_⟩
  · rw [← means_iff ports]
    exact forall_congr' fun port => ⟨fun h => ⟨h.1, h.2⟩, fun h => ⟨h.reported, h.exact⟩⟩
  · rw [← means_iff ips]
    exact forall_congr' fun ip => ⟨fun h => ⟨h.1, h.2⟩, fun h => ⟨h.reported, h.exact⟩⟩

/-- The ports `80-90,85`: port 88 is listed and not reported. -/
theorem listed_port_passed_over :
    ¬ ((Reports (matchPort (portMap [⟨80, 90⟩, ⟨85, 85⟩]) 88)) ↔
      ∃ r ∈ ([⟨80, 90⟩, ⟨85, 85⟩] : List (Range Port)), Contains r 88) := by
  intro h
  have hlisted : ∃ r ∈ ([⟨80, 90⟩, ⟨85, 85⟩] : List (Range Port)), Contains r 88 :=
    ⟨⟨80, 90⟩, mem_cons_self, by decide⟩
  have hlevel : matchPort (portMap [⟨80, 90⟩, ⟨85, 85⟩]) 88 = matchNone := by decide
  have hreports := h.mpr hlisted
  exact absurd hreports (by unfold Reports; decide)

end Sandboxie.NetFw
