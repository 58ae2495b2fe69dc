import Sandboxie.Common.NetFw

/-!
# Folding one rule into another

What `NetFw_AddRule` does to the meaning of the list when it folds the ranges of
the new rule into a rule of the list.
-/

namespace Sandboxie.NetFw

open RangeMap KeepBest

/-! ### Trees -/

section Trees

variable {α : Type*} [LinearOrder α]

def matchNode (x : α) (node : Range α) : Nat :=
  if x < node.first ∨ node.last < x then matchNone
  else if node.first = node.last then matchExact
  else matchRange

/-- The range of `dst` found for `x` ends before `x`, and begins inside the range of
`src` found for `x`, which holds `x`: the search in the merged tree stops at the first. -/
def Hides (dst src : RangeMap α) (x : α) : Prop :=
  ∃ d s, dst.findLessEqual x = some d ∧ src.findLessEqual x = some s ∧
    s.first ≤ d.first ∧ d.last < x ∧ x ≤ s.last

variable {x : α} {tree : RangeMap α}

theorem matchTree_eq_zero_of_none (hne : tree.count ≠ 0)
    (h : tree.findLessEqual x = none) : matchTree tree x = 0 := by
  simp [matchTree, hne, h]

theorem matchTree_of_some {node : Range α}
    (h : tree.findLessEqual x = some node) : matchTree tree x = matchNode x node := by
  have hne : tree.count ≠ 0 := by
    intro hzero
    have := mem_of_findLessEqual h
    rw [mem_def, count_eq_zero.mp hzero] at this
    simp at this
  simp [matchTree, hne, h, matchNode]

theorem matchNode_eq_zero_iff {node : Range α} (h : node.first ≤ x) :
    matchNode x node = 0 ↔ node.last < x := by
  unfold matchNode
  by_cases hlt : node.last < x
  · simp [hlt]
  · have hx : ¬ (x < node.first ∨ node.last < x) := by simp [h, not_lt.mp hlt]
    rw [if_neg hx]
    split <;> simp [hlt]

theorem matchNode_of_le {node : Range α} (h : node.first ≤ x) (hx : x ≤ node.last) :
    matchNode x node = if node.first = node.last then 4 else 3 := by
  have : ¬ (x < node.first ∨ node.last < x) := by simp [h, hx]
  rw [matchNode, if_neg this]

theorem not_hides_self : ¬ Hides tree tree x := by
  rintro ⟨d, s, hd, hs, _, hdx, hxs⟩
  rw [hd, Option.some.injEq] at hs
  rw [hs] at hdx
  exact absurd hxs (not_le_of_gt hdx)

theorem Hides.matchTree_eq_zero {dst src : RangeMap α} (h : Hides dst src x) :
    matchTree dst x = 0 := by
  obtain ⟨d, s, hd, _, _, hdx, _⟩ := h
  rw [matchTree_of_some hd,
    matchNode_eq_zero_iff (findLessEqual_eq_some_iff.mp hd).2.1]
  exact hdx

theorem findLessEqual_of_between {dst : RangeMap α} {x k : α} {d : Range α}
    (hd : dst.findLessEqual x = some d) (hdk : d.first ≤ k) (hkx : k ≤ x) :
    dst.findLessEqual k = some d := by
  obtain ⟨hmem, _, hmax⟩ := findLessEqual_eq_some_iff.mp hd
  exact findLessEqual_eq_some_iff.mpr ⟨hmem, hdk, fun y hy hyk => hmax y hy (hyk.trans hkx)⟩

variable {dst src m : RangeMap α}

theorem last_lt_of_mergeTrees (h : mergeTrees dst src = some m)
    {s d : Range α} (hs : s ∈ src) (hd : dst.findLessEqual s.first = some d) :
    d.last < s.last := by
  unfold mergeTrees at h
  split at h
  · cases h
  · rename_i hany
    rw [List.any_eq_true] at hany
    refine not_le.mp fun hle => hany ⟨s, hs, ?_⟩
    simp [overlaps, hd, hle]

theorem eq_merge_of_mergeTrees (h : mergeTrees dst src = some m) :
    m = dst.merge src := by
  unfold mergeTrees at h
  split at h
  · cases h
  · exact (Option.some.inj h).symm

/-- **An accepted merge matches as the better of its parts**, except at a hidden key. -/
theorem matchTree_of_mergeTrees (hm : mergeTrees dst src = some m)
    (hdst : dst.count ≠ 0) (hsrc : src.count ≠ 0) (x : α) :
    (Hides dst src x → matchTree m x = 0) ∧
      (¬ Hides dst src x → matchTree m x = max (matchTree dst x) (matchTree src x)) := by
  have hmerge := eq_merge_of_mergeTrees hm
  have hmne : m.count ≠ 0 := by
    rw [Ne, count_eq_zero, hmerge]
    exact merge_ranges_ne_nil (fun h => hdst (count_eq_zero.mpr h))
  have hfind : m.findLessEqual x = nearer (dst.findLessEqual x) (src.findLessEqual x) := by
    rw [hmerge, findLessEqual_merge]
  cases hd : dst.findLessEqual x with
  | none =>
    have hno : ¬ Hides dst src x := by
      rintro ⟨d, s, hd', _⟩
      rw [hd] at hd'
      cases hd'
    refine ⟨fun h => absurd h hno, fun _ => ?_⟩
    rw [matchTree_eq_zero_of_none hdst hd, Nat.zero_max]
    rw [hd] at hfind
    cases hs : src.findLessEqual x with
    | none =>
      rw [hs] at hfind
      rw [matchTree_eq_zero_of_none hmne hfind, matchTree_eq_zero_of_none hsrc hs]
    | some s =>
      rw [hs] at hfind
      rw [matchTree_of_some hfind, matchTree_of_some hs]
  | some d =>
    obtain ⟨_, hdx, _⟩ := findLessEqual_eq_some_iff.mp hd
    cases hs : src.findLessEqual x with
    | none =>
      have hno : ¬ Hides dst src x := by
        rintro ⟨_, s, _, hs', _⟩
        rw [hs] at hs'
        cases hs'
      refine ⟨fun h => absurd h hno, fun _ => ?_⟩
      rw [hd, hs] at hfind
      rw [matchTree_eq_zero_of_none hsrc hs, Nat.max_zero, matchTree_of_some hfind,
        matchTree_of_some hd]
    | some s =>
      obtain ⟨hsmem, hsx, _⟩ := findLessEqual_eq_some_iff.mp hs
      rw [hd, hs, nearer] at hfind
      have hhides : Hides dst src x ↔ s.first ≤ d.first ∧ d.last < x ∧ x ≤ s.last := by
        constructor
        · rintro ⟨d', s', hd', hs', h⟩
          rw [hd, Option.some.injEq] at hd'
          rw [hs, Option.some.injEq] at hs'
          rw [hd', hs']
          exact h
        · intro h
          exact ⟨d, s, hd, hs, h⟩
      rw [hhides, matchTree_of_some hd, matchTree_of_some hs]
      by_cases hds : d.first < s.first
      · -- the new range begins later, and the overlap test has passed for it
        rw [if_pos hds] at hfind
        have hlast : d.last < s.last :=
          last_lt_of_mergeTrees hm hsmem (findLessEqual_of_between hd hds.le hsx)
        refine ⟨fun h => absurd hds (not_lt_of_ge h.1), fun _ => ?_⟩
        rw [matchTree_of_some hfind]
        refine (max_eq_right ?_).symm
        by_cases hdlast : d.last < x
        · rw [(matchNode_eq_zero_iff hdx).mpr hdlast]
          exact Nat.zero_le _
        · have hxd : x ≤ d.last := not_lt.mp hdlast
          have hne : d.first ≠ d.last := ne_of_lt (hds.trans_le (hsx.trans hxd))
          rw [matchNode_of_le hdx hxd, matchNode_of_le hsx (hxd.trans hlast.le), if_neg hne]
          split <;> omega
      · rw [if_neg hds] at hfind
        have hsd : s.first ≤ d.first := not_lt.mp hds
        rw [matchTree_of_some hfind]
        constructor
        · rintro ⟨_, hdlast, _⟩
          exact (matchNode_eq_zero_iff hdx).mpr hdlast
        intro hno
        refine (max_eq_left ?_).symm
        by_cases hslast : s.last < x
        · rw [(matchNode_eq_zero_iff hsx).mpr hslast]
          exact Nat.zero_le _
        have hxs : x ≤ s.last := not_lt.mp hslast
        have hxd : x ≤ d.last := not_lt.mp fun hlt => hno ⟨hsd, hlt, hxs⟩
        have hne : s.first ≠ s.last := by
          -- a single key beginning where the old range does would have overlapped
          intro heq
          have hsx' : s.first = x := le_antisymm hsx (heq ▸ hxs)
          have hfirst : d.first = s.first := le_antisymm (hsx' ▸ hdx) hsd
          have hlast := last_lt_of_mergeTrees hm hsmem
            (findLessEqual_of_between hd hfirst.le hsx)
          rw [← heq, hsx'] at hlast
          exact absurd hxd (not_le_of_gt hlast)
        rw [matchNode_of_le hdx hxd, matchNode_of_le hsx hxs, if_neg hne]
        split <;> omega

theorem eq_of_sameRanges {ls rs : List (Range α)} (h : sameRanges ls rs = true) : ls = rs := by
  induction ls generalizing rs with
  | nil =>
    cases rs with
    | nil => rfl
    | cons r rs => simp [sameRanges] at h
  | cons l ls ih =>
    cases rs with
    | nil => simp [sameRanges] at h
    | cons r rs =>
      simp only [sameRanges] at h
      split at h
      · rename_i heq
        rw [ih h]
        cases l; cases r
        simp_all
      · cases h

theorem eq_of_sameTrees {l r : RangeMap α} (h : sameTrees l r = true) : l = r :=
  ext_ranges (eq_of_sameRanges h)

end Trees

/-! ### Rules -/

variable {rule new_rule merged : Rule}

/-- What `foldInto` accepts: rules of one class that agree on the ports or on the
addresses, the other trees merged. -/
theorem foldInto_cases (h : foldInto rule new_rule = some merged) :
    (rule.procMatchLevel = new_rule.procMatchLevel ∧ rule.actionBlock = new_rule.actionBlock ∧
      rule.protocol = new_rule.protocol) ∧
    ((new_rule.portMap = rule.portMap ∧ new_rule.ipMap = rule.ipMap ∧ merged = rule) ∨
      (new_rule.ipMap = rule.ipMap ∧ rule.portMap.count ≠ 0 ∧ new_rule.portMap.count ≠ 0 ∧
        ∃ ports, mergeTrees rule.portMap new_rule.portMap = some ports ∧
          merged = { rule with portMap := ports }) ∨
      (new_rule.portMap = rule.portMap ∧ rule.ipMap.count ≠ 0 ∧ new_rule.ipMap.count ≠ 0 ∧
        ∃ ips, mergeTrees rule.ipMap new_rule.ipMap = some ips ∧
          merged = { rule with ipMap := ips })) := by
  have hempty : ∀ {α : Type} [LinearOrder α] {l r : RangeMap α}, l.count = 0 → r.count = 0 →
      r = l := fun hl hr => ext_ranges ((count_eq_zero.mp hr).trans (count_eq_zero.mp hl).symm)
  unfold foldInto at h
  split at h
  · cases h
  rename_i hclass
  split at h
  · cases h
  rename_i hports
  split at h
  · cases h
  rename_i hips
  split at h
  · cases h
  rename_i hprot
  simp only [not_or, not_not] at hclass hprot
  have hports' : rule.portMap.count = 0 ↔ new_rule.portMap.count = 0 := by simpa using hports
  have hips' : rule.ipMap.count = 0 ↔ new_rule.ipMap.count = 0 := by simpa using hips
  refine ⟨⟨hclass.1, hclass.2, hprot⟩, ?_⟩
  split at h
  · rename_i hboth
    have hnew : new_rule.portMap.count ≠ 0 := fun hz => hboth.1 (hports'.mpr hz)
    have hnew' : new_rule.ipMap.count ≠ 0 := fun hz => hboth.2 (hips'.mpr hz)
    cases hsp : matchPortMaps rule.portMap new_rule.portMap with
    | true =>
      have hsame := (eq_of_sameTrees hsp).symm
      cases hsi : matchIPMaps rule.ipMap new_rule.ipMap with
      | true =>
        simp only [hsp, hsi, Bool.not_true, Bool.and_self, Bool.false_eq_true, if_false,
          Option.some.injEq] at h
        exact .inl ⟨hsame, (eq_of_sameTrees hsi).symm, h.symm⟩
      | false =>
        simp only [hsp, hsi, Bool.not_true, Bool.not_false, Bool.and_true, Bool.false_eq_true,
          if_false, if_true, Option.map_eq_some_iff] at h
        obtain ⟨ips, hm, hr⟩ := h
        exact .inr (.inr ⟨hsame, hboth.2, hnew', ips, hm, hr.symm⟩)
    | false =>
      cases hsi : matchIPMaps rule.ipMap new_rule.ipMap with
      | true =>
        simp only [hsp, hsi, Bool.not_true, Bool.not_false, Bool.and_false, Bool.false_eq_true,
          if_false, if_true, Option.map_eq_some_iff] at h
        obtain ⟨ports, hm, hr⟩ := h
        exact .inr (.inl ⟨(eq_of_sameTrees hsi).symm, hboth.1, hnew, ports, hm, hr.symm⟩)
      | false =>
        simp [hsp, hsi] at h
  · rename_i hnot
    split at h
    · rename_i hp
      have hi : rule.ipMap.count = 0 := by
        by_contra hi
        exact hnot ⟨hp, hi⟩
      rw [Option.map_eq_some_iff] at h
      obtain ⟨ports, hm, hr⟩ := h
      exact .inr (.inl ⟨hempty hi (hips'.mp hi), hp, fun hz => hp (hports'.mpr hz), ports, hm,
        hr.symm⟩)
    · rename_i hp
      rw [not_not] at hp
      have hsame := hempty hp (hports'.mp hp)
      split at h
      · rename_i hi
        rw [Option.map_eq_some_iff] at h
        obtain ⟨ips, hm, hr⟩ := h
        exact .inr (.inr ⟨hsame, hi, fun hz => hi (hips'.mpr hz), ips, hm, hr.symm⟩)
      · rename_i hi
        rw [not_not] at hi
        exact .inl ⟨hsame, hempty hi (hips'.mp hi), (Option.some.inj h).symm⟩

/-- The record with the given levels. -/
def recordOf (byProg byPort byAddress byProtocol : Nat) (blockAction : Bool) : RuleMatch where
  byProg := byProg
  byPort := byPort
  byAddress := byAddress
  byEndPoint := if 1 < byAddress ∧ 1 < byPort then max byAddress byPort else 0
  byProtocol := byProtocol
  blockAction := blockAction

def recordAt (byProg byPort byAddress byProtocol : Nat) (blockAction : Bool) :
    Option RuleMatch :=
  if byPort ≠ 0 ∧ byAddress ≠ 0 ∧ byProtocol ≠ 0 then
    some (recordOf byProg byPort byAddress byProtocol blockAction)
  else none

theorem matchRule_eq_recordAt (rule : Rule) (t : Traffic) :
    matchRule rule t = recordAt rule.procMatchLevel (matchTree rule.portMap t.port)
      (matchTree rule.ipMap t.ip) (matchProtocol rule.protocol t.protocol) rule.actionBlock := by
  simp only [matchRule, recordAt, recordOf, matchPort, matchAddress]
  by_cases hp : matchTree rule.portMap t.port = 0
  · simp [hp]
  · by_cases ha : matchTree rule.ipMap t.ip = 0
    · simp [ha]
    · by_cases hq : matchProtocol rule.protocol t.protocol = 0
      · simp [hq]
      · simp only [hp, ha, hq, matchNone, if_false, ne_eq, not_false_eq_true, and_self, if_true]
        rfl

/-- The record of greater rank, the second at a tie. -/
def outrank : Option RuleMatch → Option RuleMatch → Option RuleMatch
  | none, n => n
  | some m, none => some m
  | some m, some n => if rank n < rank m then some m else some n

theorem rank_recordOf_port {g p p' a q : Nat} {b : Bool} :
    rank (recordOf g p' a q b) < rank (recordOf g p a q b) ↔ p' < p := by
  rw [rank_lt_iff]
  simp only [recordOf]
  grind

theorem rank_recordOf_address {g p a a' q : Nat} {b : Bool} :
    rank (recordOf g p a' q b) < rank (recordOf g p a q b) ↔ a' < a := by
  rw [rank_lt_iff]
  simp only [recordOf]
  grind

theorem recordAt_max_port (g p p' a q : Nat) (b : Bool) :
    recordAt g (max p p') a q b = outrank (recordAt g p a q b) (recordAt g p' a q b) := by
  by_cases hz : a ≠ 0 ∧ q ≠ 0
  · rcases Nat.eq_zero_or_pos p with rfl | hp
    · simp [recordAt, outrank]
    · rcases Nat.eq_zero_or_pos p' with rfl | hp'
      · simp [recordAt, outrank, hp.ne', hz]
      · have hmax : max p p' ≠ 0 := by omega
        rw [recordAt, recordAt, recordAt, if_pos ⟨hmax, hz⟩, if_pos ⟨hp.ne', hz⟩,
          if_pos ⟨hp'.ne', hz⟩, outrank]
        simp only [rank_recordOf_port]
        split
        · rw [max_eq_left (by omega)]
        · rw [max_eq_right (by omega)]
  · have hnone : ∀ p, recordAt g p a q b = none := fun p => if_neg (fun h => hz h.2)
    rw [hnone, hnone, hnone, outrank]

theorem recordAt_max_address (g p a a' q : Nat) (b : Bool) :
    recordAt g p (max a a') q b = outrank (recordAt g p a q b) (recordAt g p a' q b) := by
  by_cases hz : p ≠ 0 ∧ q ≠ 0
  · rcases Nat.eq_zero_or_pos a with rfl | ha
    · simp [recordAt, outrank]
    · rcases Nat.eq_zero_or_pos a' with rfl | ha'
      · simp [recordAt, outrank, ha.ne', hz]
      · have hmax : max a a' ≠ 0 := by omega
        rw [recordAt, recordAt, recordAt, if_pos ⟨hz.1, hmax, hz.2⟩, if_pos ⟨hz.1, ha.ne', hz.2⟩,
          if_pos ⟨hz.1, ha'.ne', hz.2⟩, outrank]
        simp only [rank_recordOf_address]
        split
        · rw [max_eq_left (by omega)]
        · rw [max_eq_right (by omega)]
  · have hnone : ∀ a, recordAt g p a q b = none := fun a => if_neg (fun h => hz ⟨h.1, h.2.2⟩)
    rw [hnone, hnone, hnone, outrank]

theorem outrank_self (o : Option RuleMatch) : outrank o o = o := by
  cases o <;> simp [outrank]

/-- A port range or an address range of `rule` hides one of `new_rule`. -/
def Hidden (rule new_rule : Rule) (t : Traffic) : Prop :=
  Hides rule.portMap new_rule.portMap t.port ∨ Hides rule.ipMap new_rule.ipMap t.ip

/-- **The folded rule matches as the better of the two**, except at a hidden key, where
neither it nor the old rule matches. -/
theorem matchRule_foldInto (h : foldInto rule new_rule = some merged) (t : Traffic) :
    (Hidden rule new_rule t → matchRule rule t = none ∧ matchRule merged t = none) ∧
      (¬ Hidden rule new_rule t →
        matchRule merged t = outrank (matchRule rule t) (matchRule new_rule t)) := by
  obtain ⟨⟨hlevel, haction, hprot⟩, hcase⟩ := foldInto_cases h
  simp only [matchRule_eq_recordAt, Hidden]
  rcases hcase with ⟨hports, hips, rfl⟩ | ⟨hips, hp, hp', ports, hm, rfl⟩ |
    ⟨hports, hi, hi', ips, hm, rfl⟩
  · rw [hports, hips, ← hlevel, ← haction, ← hprot, outrank_self]
    exact ⟨fun hid => hid.elim (absurd · not_hides_self) (absurd · not_hides_self), fun _ => rfl⟩
  · obtain ⟨hhid, hnot⟩ := matchTree_of_mergeTrees hm hp hp' t.port
    rw [hips, ← hlevel, ← haction, ← hprot]
    constructor
    · rintro (hid | hid)
      · simp [hhid hid, hid.matchTree_eq_zero, recordAt]
      · exact absurd hid not_hides_self
    · intro hid
      rw [hnot (fun hh => hid (.inl hh)), recordAt_max_port]
  · obtain ⟨hhid, hnot⟩ := matchTree_of_mergeTrees hm hi hi' t.ip
    rw [hports, ← hlevel, ← haction, ← hprot]
    constructor
    · rintro (hid | hid)
      · exact absurd hid not_hides_self
      · simp [hhid hid, hid.matchTree_eq_zero, recordAt]
    · intro hid
      rw [hnot (fun hh => hid (.inr hh)), recordAt_max_address]

/-! ### Records of the greatest rank -/

/-- The record blocks and names the protocol: no record of its rank is better. -/
def firm (m : RuleMatch) : Bool := m.blockAction && decide (m.byProtocol ≠ matchGlobal)

/-- The record blocks without naming the protocol, or allows naming it: two such
records of one rank and of different actions are each better than the other. -/
def contested (m : RuleMatch) : Bool := m.blockAction == decide (m.byProtocol = matchGlobal)

/-- The last contested record of the rank of `m`. -/
def lastContested (m : RuleMatch) (recs : List RuleMatch) : Option RuleMatch :=
  (recs.filter fun o => decide (rank o = rank m) && contested o).getLast?

/-- Some record of the rank of `m` is firm. -/
def anyFirm (m : RuleMatch) (recs : List RuleMatch) : Bool :=
  recs.any fun o => decide (rank o = rank m) && firm o

variable {m : RuleMatch}

theorem byProtocol_of_mem_records {l : List Rule} {t : Traffic}
    (h : m ∈ records l t) : m.byProtocol = matchGlobal ∨ m.byProtocol = matchExact := by
  obtain ⟨rule, _, hm⟩ := mem_records.mp h
  rw [matchRule_eq_recordAt, recordAt] at hm
  split at hm
  · rename_i hne
    rw [← Option.some.inj hm]
    have hq := hne.2.2
    unfold matchProtocol at hq ⊢
    split
    · exact .inl rfl
    · rename_i hany
      rw [if_neg hany] at hq
      split
      · exact .inr rfl
      · rename_i heq
        rw [if_neg heq] at hq
        exact absurd rfl hq
  · cases hm

variable {recs : List RuleMatch}

theorem mem_lastContested {m c : RuleMatch} (h : lastContested m recs = some c) :
    c ∈ recs ∧ rank c = rank m ∧ contested c = true := by
  have := List.mem_of_getLast? h
  simpa using this

theorem lastContested_append (m : RuleMatch) (l l' : List RuleMatch) :
    lastContested m (l ++ l') = (lastContested m l').or (lastContested m l) := by
  rw [lastContested, List.filter_append, List.getLast?_append]
  rfl

theorem lastContested_cons {m b : RuleMatch} (hrank : rank b = rank m) (l : List RuleMatch) :
    lastContested m (b :: l) = (lastContested m l).or (if contested b then some b else none) := by
  rw [← List.singleton_append, lastContested_append]
  congr 1
  by_cases hb : contested b = true <;> simp [lastContested, hrank, hb]

theorem lastContested_eq_none {l : List RuleMatch}
    (h : ∀ o ∈ l, rank o = rank m → contested o = false) : lastContested m l = none := by
  rw [lastContested, List.getLast?_eq_none_iff, List.filter_eq_nil_iff]
  intro o ho
  simpa using h o ho

theorem anyFirm_append (m : RuleMatch) (l l' : List RuleMatch) :
    anyFirm m (l ++ l') = (anyFirm m l || anyFirm m l') := List.any_append

theorem anyFirm_cons {m b : RuleMatch} (hrank : rank b = rank m) (l : List RuleMatch) :
    anyFirm m (b :: l) = (firm b || anyFirm m l) := by
  simp [anyFirm, hrank]

/-- **Where the greatest rank is that of `m`**, a firm record blocks, and otherwise the
last contested one decides. -/
theorem decides_of_top (hle : ∀ o ∈ recs, rank o ≤ rank m) (hex : ∃ o ∈ recs, rank o = rank m)
    (hp : ∀ o ∈ recs, o.byProtocol = matchGlobal ∨ o.byProtocol = matchExact) :
    decides recs = (anyFirm m recs || (lastContested m recs).any (·.blockAction)) := by
  rw [Bool.eq_iff_iff, decides_iff, Bool.or_eq_true]
  constructor
  · rintro ⟨xs, b, ys, rfl, hblock, htop, hno⟩
    have hbmem : b ∈ xs ++ b :: ys := by simp
    have hrank : rank b = rank m := by
      obtain ⟨o, ho, hom⟩ := hex
      exact le_antisymm (hle b hbmem) (hom ▸ htop o ho)
    by_cases hfirm : firm b = true
    · exact .inl (List.any_eq_true.mpr ⟨b, hbmem, by simp [hrank, hfirm]⟩)
    right
    have hglobal : b.byProtocol = matchGlobal := by simpa [firm, hblock] using hfirm
    have hcon : contested b = true := by simp [contested, hblock, hglobal]
    rw [lastContested_append, lastContested_cons hrank, if_pos hcon]
    cases hys : lastContested m ys with
    | none => simpa using hblock
    | some c =>
      obtain ⟨hc, hcm, hcc⟩ := mem_lastContested hys
      rw [Option.some_or, Option.some_or, Option.any_some]
      by_contra hallow
      have hallow' : c.blockAction = false := by simpa using hallow
      refine hno c hc ⟨hcm.trans hrank.symm, hallow', hblock, ?_⟩
      have hprot := hp c (by simp [hc])
      simp only [contested, hallow', beq_iff_eq] at hcc
      have hne : c.byProtocol ≠ matchGlobal := by simpa using hcc.symm
      rw [hglobal, hprot.resolve_left hne]
      decide
  · rintro (hfirm | hlast)
    · obtain ⟨e, he, hprop⟩ := List.any_eq_true.mp hfirm
      simp only [Bool.and_eq_true, decide_eq_true_eq, firm] at hprop
      obtain ⟨hrank, hblock, hprot⟩ := hprop
      obtain ⟨xs, ys, rfl⟩ := List.append_of_mem he
      refine ⟨xs, e, ys, rfl, hblock, fun o ho => (hle o ho).trans hrank.ge, ?_⟩
      intro o ho hov
      have hge : o.byProtocol ≤ matchExact :=
        (hp o (by simp [ho])).elim (fun h => h ▸ by decide) (fun h => h.le)
      rw [← (hp e he).resolve_left hprot] at hge
      exact absurd hov.2.2.2 (not_lt_of_ge hge)
    · cases hc : lastContested m recs with
      | none => simp [hc] at hlast
      | some c =>
        rw [hc, Option.any_some] at hlast
        obtain ⟨init, hinit⟩ := List.getLast?_eq_some_iff.mp hc
        obtain ⟨xs, zs, rfl, _, hzs⟩ := List.filter_eq_append_iff.mp hinit
        obtain ⟨us, ys, rfl, _, hcprop, hys⟩ := List.filter_eq_cons_iff.mp hzs
        simp only [Bool.and_eq_true, decide_eq_true_eq] at hcprop
        refine ⟨xs ++ us, c, ys, by simp, hlast, ?_, ?_⟩
        · intro o ho
          exact (hle o (by simpa using ho)).trans hcprop.1.ge
        · intro o ho hov
          have hnot := List.filter_eq_nil_iff.mp hys o ho
          refine hnot ?_
          have hge : matchGlobal ≤ c.byProtocol :=
            (hp c (by simp)).elim (fun h => h.ge) (fun h => h ▸ by decide)
          have hne : o.byProtocol ≠ matchGlobal := (hge.trans_lt hov.2.2.2).ne'
          simp [hov.1.trans hcprop.1, contested, hov.2.1, hne]

/-! ### Folding and the decision -/

theorem firm_or_contested (h : m.blockAction = true) :
    firm m = true ∨ contested m = true := by
  by_cases hp : m.byProtocol = matchGlobal <;> simp [firm, contested, h, hp]

theorem not_firm_of_allow (h : m.blockAction = false) : firm m = false := by
  simp [firm, h]

theorem not_contested_of_firm (h : firm m = true) : contested m = false := by
  simp only [firm, Bool.and_eq_true, decide_eq_true_eq] at h
  simp [contested, h.1, h.2]

theorem decides_concat_of_top (hle : ∀ o ∈ recs, rank o ≤ rank m)
    (hp : ∀ o ∈ recs ++ [m], o.byProtocol = matchGlobal ∨ o.byProtocol = matchExact) :
    decides (recs ++ [m]) = (anyFirm m recs || firm m ||
      ((if contested m then some m else none).or (lastContested m recs)).any (·.blockAction)) := by
  rw [decides_of_top (m := m) _ ⟨m, by simp, rfl⟩ hp, anyFirm_append, anyFirm_cons rfl,
    lastContested_append, lastContested_cons rfl]
  · simp [anyFirm, lastContested]
  · intro o ho
    rcases List.mem_append.mp ho with ho | ho
    · exact hle o ho
    · rw [List.mem_singleton.mp ho]

/-- A range that was hidden would have decided otherwise than the rest of the list. -/
def Lost (recs : List RuleMatch) (m : RuleMatch) : Prop :=
  if m.blockAction then ¬ Blocked recs
  else Blocked recs ∧
    ∀ e ∈ recs, rank e = rank m → e.blockAction = true → e.byProtocol < m.byProtocol

/-- The record is contested, and after the place it moves to the last contested record
of its rank takes the other action; no firm record settles the matter. -/
def Moved (recs later : List RuleMatch) (m : RuleMatch) : Prop :=
  contested m = true ∧ anyFirm m recs = false ∧
    ∃ c, lastContested m later = some c ∧ c.blockAction ≠ m.blockAction

theorem decides_hidden_iff (hle : ∀ o ∈ recs, rank o ≤ rank m)
    (hp : ∀ o ∈ recs ++ [m], o.byProtocol = matchGlobal ∨ o.byProtocol = matchExact) :
    decides recs = decides (recs ++ [m]) ↔ ¬ Lost recs m := by
  have hcat := decides_concat_of_top hle hp
  cases hblock : m.blockAction with
  | true =>
    have htrue : decides (recs ++ [m]) = true := by
      rw [hcat]
      rcases firm_or_contested hblock with h | h <;> simp [h, hblock]
    rw [htrue, decides_iff, Lost, if_pos hblock, not_not]
  | false =>
    rw [Lost, if_neg (by simp [hblock]), ← decides_iff]
    rw [not_firm_of_allow hblock, Bool.or_false] at hcat
    have hpr : ∀ o ∈ recs, o.byProtocol = matchGlobal ∨ o.byProtocol = matchExact :=
      fun o ho => hp o (List.mem_append_left _ ho)
    by_cases hdec : decides recs = true
    · rw [hdec, eq_comm, not_and, not_forall]
      constructor
      · intro htrue _
        rw [hcat, Bool.or_eq_true] at htrue
        have hm : m.byProtocol ≤ matchExact :=
          (hp m (by simp)).elim (fun h => h ▸ by decide) (fun h => h.le)
        rcases htrue with hfirm | hlast
        · obtain ⟨e, he, hprop⟩ := List.any_eq_true.mp hfirm
          simp only [firm, Bool.and_eq_true, decide_eq_true_eq] at hprop
          refine ⟨e, fun hall => absurd (hall he hprop.1 hprop.2.1) (not_lt_of_ge ?_)⟩
          rw [(hpr e he).resolve_left hprop.2.2]
          exact hm
        · by_cases hcon : contested m = true
          · simp [hcon, hblock] at hlast
          · rw [if_neg hcon, Option.none_or] at hlast
            cases hc : lastContested m recs with
            | none => simp [hc] at hlast
            | some c =>
              obtain ⟨hmem, hrank, hcc⟩ := mem_lastContested hc
              rw [hc, Option.any_some] at hlast
              have hglobal : m.byProtocol = matchGlobal := by simpa [contested, hblock] using hcon
              refine ⟨c, fun hall => absurd (hall hmem hrank hlast) (not_lt_of_ge ?_)⟩
              rw [hglobal]
              exact (hpr c hmem).elim (fun h => h.ge) (fun h => h ▸ by decide)
      · intro hno
        obtain ⟨e, he⟩ := hno rfl
        simp only [Classical.not_imp, not_lt] at he
        obtain ⟨hmem, hrank, heb, hprot⟩ := he
        rw [decides_of_top hle ⟨e, hmem, hrank⟩ hpr] at hdec
        rw [hcat]
        by_cases hfirm : firm e = true
        · have : anyFirm m recs = true :=
            List.any_eq_true.mpr ⟨e, hmem, by simp [hrank, hfirm]⟩
          rw [this, Bool.true_or]
        have heg : e.byProtocol = matchGlobal := by simpa [firm, heb] using hfirm
        have hmg : m.byProtocol = matchGlobal := by
          refine (hp m (by simp)).resolve_right fun hex => ?_
          rw [heg, hex] at hprot
          exact absurd hprot (by decide)
        have hcon : contested m = false := by simp [contested, hblock, hmg]
        rw [hcon, if_neg (by simp), Option.none_or]
        exact hdec
    · have hfalse : decides (recs ++ [m]) = false := by
        rw [hcat]
        by_cases hex : ∃ o ∈ recs, rank o = rank m
        · rw [decides_of_top hle hex hpr, Bool.or_eq_true, not_or] at hdec
          by_cases hcon : contested m = true
          · simp [hcon, hdec.1, hblock]
          · rw [if_neg hcon, Option.none_or]
            simp [hdec.1, hdec.2]
        · have hnone : lastContested m recs = none :=
            lastContested_eq_none fun o ho hr => absurd ⟨o, ho, hr⟩ hex
          have hno : anyFirm m recs = false := by
            rw [anyFirm, List.any_eq_false]
            intro o ho
            simpa using fun hr => absurd ⟨o, ho, hr⟩ hex
          rw [hnone, hno]
          by_cases hcon : contested m = true <;> simp [hcon, hblock]
      rw [hfalse]
      simp [hdec]

/-- The record moves from the end to the place of the rule it is folded into. -/
theorem decides_moved_iff {recs later : List RuleMatch} {o : Option RuleMatch}
    (ho : ∀ r, o = some r → rank r = rank m → r = m)
    (hle : ∀ r ∈ recs ++ o.toList ++ later, rank r ≤ rank m)
    (hp : ∀ r ∈ recs ++ o.toList ++ later ++ [m],
      r.byProtocol = matchGlobal ∨ r.byProtocol = matchExact) :
    decides (recs ++ m :: later) = decides (recs ++ o.toList ++ later ++ [m]) ↔
      ¬ Moved (recs ++ o.toList ++ later) later m := by
  have hright := decides_concat_of_top hle hp
  have hleft : decides (recs ++ m :: later) = (anyFirm m recs || (firm m || anyFirm m later) ||
      (((lastContested m later).or (if contested m then some m else none)).or
        (lastContested m recs)).any (·.blockAction)) := by
    rw [decides_of_top (m := m) _ ⟨m, by simp, rfl⟩ _, anyFirm_append, anyFirm_cons rfl,
      lastContested_append, lastContested_cons rfl]
    · intro r hr
      rcases List.mem_append.mp hr with hr | hr
      · exact hle r (by simp [hr])
      · rcases List.mem_cons.mp hr with rfl | hr
        · exact le_rfl
        · exact hle r (by simp [hr])
    · intro r hr
      refine hp r ?_
      rcases List.mem_append.mp hr with hr | hr
      · simp [hr]
      · rcases List.mem_cons.mp hr with rfl | hr <;> simp [*]
  -- the old record is `m` itself where it counts
  have hofirm : anyFirm m o.toList = true → firm m = true := by
    intro h
    obtain ⟨r, hr, hprop⟩ := List.any_eq_true.mp h
    simp only [Bool.and_eq_true, decide_eq_true_eq] at hprop
    rw [ho r (by simpa using hr) hprop.1] at hprop
    exact hprop.2
  have hocon : contested m = false → lastContested m o.toList = none := by
    intro hcon
    refine lastContested_eq_none fun r hr hrank => ?_
    rw [ho r (by simpa using hr) hrank]
    exact hcon
  rw [hleft, hright, anyFirm_append, anyFirm_append, lastContested_append, lastContested_append]
  by_cases hfirm : firm m = true
  · have hcon := not_contested_of_firm hfirm
    simp [hfirm, Moved, hcon]
  have hofirm' : anyFirm m o.toList = false := by simpa using mt hofirm hfirm
  simp only [Bool.not_eq_true] at hfirm
  by_cases hany : (anyFirm m recs || anyFirm m later) = true
  · have hnot : ¬ Moved (recs ++ o.toList ++ later) later m := by
      rintro ⟨_, hno, _⟩
      rw [anyFirm_append, anyFirm_append, hofirm', Bool.or_false] at hno
      rw [hno] at hany
      exact absurd hany (by simp)
    refine iff_of_true ?_ hnot
    rcases (Bool.or_eq_true _ _).mp hany with h | h <;> simp [h]
  · simp only [Bool.not_eq_true, Bool.or_eq_false_iff] at hany
    by_cases hcon : contested m = true
    · rw [hany.1, hany.2, hofirm', hfirm]
      simp only [hcon, if_true, Bool.or_false, Bool.false_or, Option.some_or, Option.any_some,
        Moved, anyFirm_append, hany.1, hany.2, hofirm', true_and]
      cases hc : lastContested m later with
      | none => simp
      | some c => simp
    · rw [hany.1, hany.2, hofirm', hfirm, hocon (by simpa using hcon)]
      simp [hcon, Moved]

/-! ### Adding a rule -/

theorem records_cons (rule : Rule) (l : List Rule) (t : Traffic) :
    records (rule :: l) t = (matchRule rule t).toList ++ records l t := by
  cases h : matchRule rule t <;> simp [records, h]

/-- `new_rule` is folded into `rule`: the first rule of the list that accepts it. -/
structure FoldsAt (list : List Rule) (new_rule : Rule) (pre : List Rule) (rule : Rule)
    (post : List Rule) : Prop where
  split : list = pre ++ rule :: post
  before : ∀ r ∈ pre, foldInto r new_rule = none
  accepts : foldInto rule new_rule ≠ none

theorem addRule_of_none {list : List Rule} {new_rule : Rule}
    (h : ∀ r ∈ list, foldInto r new_rule = none) : addRule list new_rule = list ++ [new_rule] := by
  induction list with
  | nil => rfl
  | cons r rest ih =>
    rw [addRule, h r List.mem_cons_self]
    simp [ih fun q hq => h q (List.mem_cons_of_mem r hq)]

theorem addRule_of_foldsAt {pre post : List Rule}
    (hpre : ∀ r ∈ pre, foldInto r new_rule = none) (hm : foldInto rule new_rule = some merged) :
    addRule (pre ++ rule :: post) new_rule = pre ++ merged :: post := by
  induction pre with
  | nil => simp [addRule, hm]
  | cons r rest ih =>
    rw [List.cons_append, addRule, hpre r List.mem_cons_self]
    simp [ih fun q hq => hpre q (List.mem_cons_of_mem r hq)]

theorem addRule_cases (list : List Rule) (new_rule : Rule) :
    ((∀ r ∈ list, foldInto r new_rule = none) ∧ addRule list new_rule = list ++ [new_rule]) ∨
      ∃ pre rule post merged, FoldsAt list new_rule pre rule post ∧
        foldInto rule new_rule = some merged ∧ addRule list new_rule = pre ++ merged :: post := by
  by_cases hall : ∀ r ∈ list, foldInto r new_rule = none
  · exact .inl ⟨hall, addRule_of_none hall⟩
  right
  induction list with
  | nil => simp at hall
  | cons r rest ih =>
    cases hr : foldInto r new_rule with
    | some merged =>
      have hpre : ∀ q ∈ ([] : List Rule), foldInto q new_rule = none := by simp
      exact ⟨[], r, rest, merged, ⟨rfl, hpre, by simp [hr]⟩, hr, addRule_of_foldsAt hpre hr⟩
    | none =>
      have hrest : ¬ ∀ q ∈ rest, foldInto q new_rule = none := fun h =>
        hall (List.forall_mem_cons.mpr ⟨hr, h⟩)
      obtain ⟨pre, rule, post, merged, hat, hm, _⟩ := ih hrest
      have hpre : ∀ q ∈ r :: pre, foldInto q new_rule = none :=
        List.forall_mem_cons.mpr ⟨hr, hat.before⟩
      refine ⟨r :: pre, rule, post, merged, ⟨by simp [hat.split], hpre, hat.accepts⟩, hm, ?_⟩
      rw [hat.split]
      exact addRule_of_foldsAt hpre hm

/-- No range that a fold hides and no record that it moves changes the answer. -/
def FoldSafe (list : List Rule) (new_rule : Rule) : Prop :=
  ∀ pre rule post, FoldsAt list new_rule pre rule post →
    ∀ t m, matchRule new_rule t = some m → (∀ o ∈ records list t, rank o ≤ rank m) →
      (Hidden rule new_rule t → ¬ Lost (records list t) m) ∧
      (¬ Hidden rule new_rule t → ¬ Moved (records list t) (records post t) m)

theorem outrank_none (o : Option RuleMatch) : outrank o none = o := by cases o <;> rfl

theorem eq_of_foldInto_of_rank {t : Traffic} {r m : RuleMatch}
    (h : foldInto rule new_rule = some merged) (hr : matchRule rule t = some r)
    (hm : matchRule new_rule t = some m) (hrank : rank r = rank m) : r = m := by
  obtain ⟨⟨_, haction, hprot⟩, -⟩ := foldInto_cases h
  obtain ⟨hprog, -, hport, haddress⟩ := rank_eq_iff.mp hrank
  rw [matchRule_eq_recordAt, recordAt] at hr hm
  split at hr
  · split at hm
    · cases hr
      cases hm
      simp only [recordOf] at hprog hport haddress ⊢
      rw [hprog, hport, haddress, haction, hprot]
    · cases hm
  · cases hr

theorem decides_concat_outranked {m o : RuleMatch} (ho : o ∈ recs)
    (hlt : rank m < rank o) : decides (recs ++ [m]) = decides recs := by
  rw [decides, decides, keepBest_concat]
  cases hb : keepBest isBetterMatch recs with
  | none =>
    rw [keepBest_eq_none_iff.mp hb] at ho
    simp at ho
  | some b =>
    have hmb : rank m < rank b := hlt.trans_le (isBetterMatch_ranked.rank_le hb o ho)
    rw [step, isBetterMatch_ranked.below hmb]
    simp

theorem decides_outranked {recs later : List RuleMatch} {m o : RuleMatch}
    {r : Option RuleMatch} (ho : o ∈ recs ++ r.toList ++ later) (hlt : rank m < rank o) :
    decides (recs ++ (outrank r (some m)).toList ++ later) =
      decides (recs ++ r.toList ++ later ++ [m]) := by
  have hm : [m].filter (fun q => decide (rank o ≤ rank q)) = [] := by
    simpa using hlt
  have hr : (outrank r (some m)).toList.filter (fun q => decide (rank o ≤ rank q)) =
      r.toList.filter (fun q => decide (rank o ≤ rank q)) := by
    cases r with
    | none => exact hm
    | some r =>
      by_cases hmr : rank m < rank r
      · rw [outrank, if_pos hmr]
      · have hro : rank r < rank o := (not_lt.mp hmr).trans_lt hlt
        have hrnil : [r].filter (fun q => decide (rank o ≤ rank q)) = [] := by simpa using hro
        rw [outrank, if_neg hmr, Option.toList_some, Option.toList_some, hm, hrnil]
  have hleft : ∃ q ∈ recs ++ (outrank r (some m)).toList ++ later, rank o ≤ rank q := by
    simp only [List.mem_append] at ho
    rcases ho with (ho | ho) | ho
    · exact ⟨o, by simp [ho], le_rfl⟩
    · refine ⟨o, ?_, le_rfl⟩
      obtain rfl : r = some o := by simpa using ho
      rw [outrank, if_pos hlt]
      simp
    · exact ⟨o, by simp [ho], le_rfl⟩
  have hright : ∃ q ∈ recs ++ r.toList ++ later ++ [m], rank o ≤ rank q :=
    ⟨o, List.mem_append_left _ ho, le_rfl⟩
  rw [decides, decides, ← isBetterMatch_ranked.keepBest_filter _ hleft,
    ← isBetterMatch_ranked.keepBest_filter _ hright]
  simp only [List.filter_append, hr, hm, List.append_nil]

/-- One packet: folding keeps the answer unless what is lost or moved decides it. -/
theorem blockTraffic_fold_iff {list pre post : List Rule}
    (hat : FoldsAt list new_rule pre rule post) (hm : foldInto rule new_rule = some merged)
    (t : Traffic) :
    blockTraffic (pre ++ merged :: post) t = blockTraffic (list ++ [new_rule]) t ↔
      ∀ m, matchRule new_rule t = some m → (∀ o ∈ records list t, rank o ≤ rank m) →
        (Hidden rule new_rule t → ¬ Lost (records list t) m) ∧
        (¬ Hidden rule new_rule t → ¬ Moved (records list t) (records post t) m) := by
  obtain ⟨hhid, hnot⟩ := matchRule_foldInto hm t
  have hlist : records list t = records pre t ++ (matchRule rule t).toList ++ records post t := by
    rw [hat.split, records_append, records_cons, List.append_assoc]
  have hmerged : records (pre ++ merged :: post) t =
      records pre t ++ (matchRule merged t).toList ++ records post t := by
    rw [records_append, records_cons, List.append_assoc]
  have happend : records (list ++ [new_rule]) t =
      records list t ++ (matchRule new_rule t).toList := by
    rw [records_append]
    cases h : matchRule new_rule t <;> simp [records, h]
  rw [blockTraffic_eq_decides, blockTraffic_eq_decides, hmerged, happend]
  cases hn : matchRule new_rule t with
  | none =>
    have hsame : matchRule merged t = matchRule rule t := by
      by_cases hid : Hidden rule new_rule t
      · rw [(hhid hid).1, (hhid hid).2]
      · rw [hnot hid, hn, outrank_none]
    rw [hsame, ← hlist]
    simp
  | some m =>
    have hp : ∀ o ∈ records list t ++ [m],
        o.byProtocol = matchGlobal ∨ o.byProtocol = matchExact := by
      intro o ho
      refine byProtocol_of_mem_records (l := list ++ [new_rule]) (t := t) ?_
      rw [happend, hn]
      exact ho
    have hforall : (∀ m', some m = some m' → (∀ o ∈ records list t, rank o ≤ rank m') →
        (Hidden rule new_rule t → ¬ Lost (records list t) m') ∧
        (¬ Hidden rule new_rule t → ¬ Moved (records list t) (records post t) m')) ↔
        ((∀ o ∈ records list t, rank o ≤ rank m) →
        (Hidden rule new_rule t → ¬ Lost (records list t) m) ∧
        (¬ Hidden rule new_rule t → ¬ Moved (records list t) (records post t) m)) := by
      constructor
      · exact fun h => h m rfl
      · rintro h m' hm'
        rw [← Option.some.inj hm']
        exact h
    rw [hforall, Option.toList_some]
    by_cases htop : ∀ o ∈ records list t, rank o ≤ rank m
    · rw [forall_prop_of_true htop]
      by_cases hid : Hidden rule new_rule t
      · -- the rule that was folded into does not match, before or after
        have hsame : matchRule merged t = matchRule rule t := by rw [(hhid hid).1, (hhid hid).2]
        rw [hsame, ← hlist, decides_hidden_iff htop hp]
        simp [hid]
      · have hrecord : matchRule merged t = some m := by
          rw [hnot hid, hn]
          cases hr : matchRule rule t with
          | none => rfl
          | some r =>
            have hle : rank r ≤ rank m := htop r (by rw [hlist, hr]; simp)
            rw [outrank, if_neg (not_lt_of_ge hle)]
        rw [hlist] at htop hp
        rw [hrecord, Option.toList_some, List.append_assoc, List.singleton_append, hlist,
          decides_moved_iff (fun r hr hrank => eq_of_foldInto_of_rank hm hr hn hrank) htop hp]
        simp [hid]
    · refine iff_of_true ?_ (fun h => absurd h htop)
      -- some rule of the list outranks the new one
      simp only [not_forall, not_le] at htop
      obtain ⟨o, ho, hlt⟩ := htop
      by_cases hid : Hidden rule new_rule t
      · have hsame : matchRule merged t = matchRule rule t := by rw [(hhid hid).1, (hhid hid).2]
        rw [hsame, ← hlist, decides_concat_outranked ho hlt]
      · rw [hnot hid, hn, hlist]
        rw [hlist] at ho
        exact decides_outranked ho hlt

/-- **Folding keeps every answer exactly when it is safe.** -/
theorem addRule_same_iff (list : List Rule) (new_rule : Rule) :
    (∀ t, blockTraffic (addRule list new_rule) t = blockTraffic (list ++ [new_rule]) t) ↔
      FoldSafe list new_rule := by
  rcases addRule_cases list new_rule with ⟨hall, hadd⟩ | ⟨pre, rule, post, merged, hat, hm, hadd⟩
  · rw [hadd]
    refine iff_of_true (fun t => rfl) ?_
    intro pre rule post hat
    refine absurd (hall rule ?_) hat.accepts
    rw [hat.split]
    simp
  · rw [hadd]
    constructor
    · intro h pre' rule' post' hat' t
      obtain ⟨merged', hm'⟩ := Option.ne_none_iff_exists'.mp hat'.accepts
      refine (blockTraffic_fold_iff hat' hm' t).mp ?_
      rw [← h t, ← hadd, hat'.split, addRule_of_foldsAt hat'.before hm']
    · intro h t
      exact (blockTraffic_fold_iff hat hm t).mpr (h pre rule post hat t)

/-- A port range that begins before a rule's single port and reaches past it: the fold
loses the ports behind. -/
theorem addRule_differs :
    let block : RangeMap Port → Rule := fun ports =>
      { allocRule 0 with actionBlock := true, portMap := ports, protocol := 6 }
    let list := [block ⟨[⟨5, 5⟩], by decide⟩]
    let new_rule := block ⟨[⟨1, 10⟩], by decide⟩
    let t : Traffic := ⟨1, 7, 6⟩
    blockTraffic (addRule list new_rule) t = false ∧ blockTraffic
      (list ++ [new_rule]) t = true := by
  decide

end Sandboxie.NetFw
