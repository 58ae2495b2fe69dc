import Mathlib.Data.Fin.Basic
import Mathlib.Order.Fin.Basic
import Mathlib.Data.Prod.Lex
import Sandboxie.Lib.RangeMap
import Sandboxie.Lib.KeepBest

/-!
# Network firewall rules

The rule list of `common/netfw.c`.  A rule carries a set of port ranges and a set
of address ranges, each a tree keyed by the beginning of the range
(`RangeMap`), a protocol, an action, and how exactly it names the program.

* `matchRule` says how well a rule fits a packet, `isBetterMatch` compares two
  such records and `blockTraffic` keeps the best rule of the list.
* `addRule` adds a rule; it folds the ranges of the new rule into the first rule
  that `foldInto` accepts, and appends the rule when there is none.

The port functions and the address functions of the source are one definition
over the ordered type of their keys (`matchTree`, `mergeTrees`, `sameTrees`),
which the source's names instantiate.
-/

namespace Sandboxie.NetFw

open RangeMap KeepBest List

/-- A `USHORT` port. -/
abbrev Port := Fin (2 ^ 16)

/-- The 16 bytes of an `IP_ADDRESS`, as the number they spell with the first byte
leading: `memcmp` orders the bytes as `<` orders these numbers. -/
abbrev IpAddress := Fin (2 ^ 128)

/-- `NETFW_MATCH_NONE` -/
abbrev matchNone : Nat := 0
/-- `NETFW_MATCH_GLOBAL` -/
abbrev matchGlobal : Nat := 1
/-- `NETFW_MATCH_NOT` -/
abbrev matchNot : Nat := 2
/-- `NETFW_MATCH_RANGE` -/
abbrev matchRange : Nat := 3
/-- `NETFW_MATCH_EXACT` -/
abbrev matchExact : Nat := 4

abbrev ipprotoAny : Int := 256

/-- `NETFW_RULE` -/
structure Rule where
  actionBlock : Bool
  procMatchLevel : Nat
  portMap : RangeMap Port
  ipMap : RangeMap IpAddress
  protocol : Int
deriving DecidableEq

/-- `NetFw_AllocRule`: the process match level of the setting becomes a level of
this file, and the rule allows all traffic. -/
def allocRule (matchLevel : Nat) : Rule where
  actionBlock := false
  procMatchLevel :=
    match matchLevel with
    | 0 => matchExact
    | 1 => matchNot
    | 2 => matchGlobal
    | _ => matchNone
  portMap := RangeMap.empty
  ipMap := RangeMap.empty
  protocol := ipprotoAny

/-- The parameters of `NetFw_BlockTraffic` besides the list. -/
structure Traffic where
  ip : IpAddress
  port : Port
  protocol : Int
deriving DecidableEq

/-! ### Range trees -/

section Trees

variable {α : Type*} [LinearOrder α]

/-- The common body of `NetFw_MatchPort` and `NetFw_MatchAddress`. -/
def matchTree (tree : RangeMap α) (x : α) : Nat :=
  if tree.count = 0 then matchGlobal
  else
    match tree.findLessEqual x with
    | none => matchNone
    | some node =>
      if x < node.first ∨ node.last < x then matchNone
      else if node.first = node.last then matchExact
      else matchRange

/-- The loop of `NetFw_MatchPortMaps` and `NetFw_MatchIPMaps`: both trees are walked
in order as long as the ranges agree. -/
def sameRanges : List (Range α) → List (Range α) → Bool
  | [], [] => true
  | l :: ls, r :: rs => if l.first = r.first ∧ l.last = r.last then sameRanges ls rs else false
  | _, _ => false

def sameTrees (l r : RangeMap α) : Bool := sameRanges l.ranges r.ranges

/-- The overlap test of the merge functions: a range of `src` against the range of
`dst` that begins next below it. -/
def overlaps (dst : RangeMap α) (src_node : Range α) : Bool :=
  match dst.findLessEqual src_node.first with
  | none => false
  | some dst_node => decide (src_node.last ≤ dst_node.last)

/-- The common body of `NetFw_MergePortMaps` and `NetFw_MergeIPMaps`. -/
def mergeTrees (dst src : RangeMap α) : Option (RangeMap α) :=
  if src.ranges.any (overlaps dst) then none else some (dst.merge src)

end Trees

/-- `NetFw_MatchPort` -/
def matchPort : RangeMap Port → Port → Nat := matchTree
/-- `NetFw_MatchAddress` -/
def matchAddress : RangeMap IpAddress → IpAddress → Nat := matchTree
/-- `NetFw_MatchPortMaps` -/
def matchPortMaps : RangeMap Port → RangeMap Port → Bool := sameTrees
/-- `NetFw_MatchIPMaps` -/
def matchIPMaps : RangeMap IpAddress → RangeMap IpAddress → Bool := sameTrees
/-- `NetFw_MergePortMaps` -/
def mergePortMaps : RangeMap Port → RangeMap Port → Option (RangeMap Port) := mergeTrees
/-- `NetFw_MergeIPMaps` -/
def mergeIPMaps : RangeMap IpAddress → RangeMap IpAddress → Option (RangeMap IpAddress) :=
  mergeTrees

/-- `NetFw_MatchProtocol` -/
def matchProtocol (protocol to_test : Int) : Nat :=
  if protocol = ipprotoAny then matchGlobal
  else if protocol = to_test then matchExact
  else matchNone

/-! ### Adding a rule -/

/-- The body of the loop of `NetFw_AddRule`: `rule` with the ranges of `new_rule`, or
`none` where the loop goes to the next rule. -/
def foldInto (rule new_rule : Rule) : Option Rule :=
  if rule.procMatchLevel ≠ new_rule.procMatchLevel ∨ rule.actionBlock ≠ new_rule.actionBlock then
    none
  else if decide (rule.portMap.count ≠ 0) ≠ decide (new_rule.portMap.count ≠ 0) then none
  else if decide (rule.ipMap.count ≠ 0) ≠ decide (new_rule.ipMap.count ≠ 0) then none
  else if rule.protocol ≠ new_rule.protocol then none
  else if rule.portMap.count ≠ 0 ∧ rule.ipMap.count ≠ 0 then
    let same_ports := matchPortMaps rule.portMap new_rule.portMap
    let same_ips := matchIPMaps rule.ipMap new_rule.ipMap
    if !same_ports && !same_ips then none
    else if !same_ports then
      (mergePortMaps rule.portMap new_rule.portMap).map fun m => { rule with portMap := m }
    else if !same_ips then
      (mergeIPMaps rule.ipMap new_rule.ipMap).map fun m => { rule with ipMap := m }
    else some rule
  else if rule.portMap.count ≠ 0 then
    (mergePortMaps rule.portMap new_rule.portMap).map fun m => { rule with portMap := m }
  else if rule.ipMap.count ≠ 0 then
    (mergeIPMaps rule.ipMap new_rule.ipMap).map fun m => { rule with ipMap := m }
  else some rule

/-- `NetFw_AddRule` -/
def addRule : List Rule → Rule → List Rule
  | [], new_rule => [new_rule]
  | rule :: rest, new_rule =>
    match foldInto rule new_rule with
    | some merged => merged :: rest
    | none => rule :: addRule rest new_rule

def addRules (rules : List Rule) : List Rule := rules.foldl addRule []

/-! ### Matching -/

structure RuleMatch where
  byProg : Nat
  byPort : Nat
  byAddress : Nat
  byEndPoint : Nat
  byProtocol : Nat
  blockAction : Bool
deriving DecidableEq, Repr

/-- `NetFw_MatchRule`: the record it fills when it returns `TRUE`. -/
def matchRule (rule : Rule) (t : Traffic) : Option RuleMatch :=
  let byPort := matchPort rule.portMap t.port
  if byPort = matchNone then none
  else
    let byAddress := matchAddress rule.ipMap t.ip
    if byAddress = matchNone then none
    else
      let byProtocol := matchProtocol rule.protocol t.protocol
      if byProtocol = matchNone then none
      else some {
        byProg := rule.procMatchLevel
        byPort := byPort
        byAddress := byAddress
        -- the record starts zeroed, so a rule without both keeps 0 here
        byEndPoint :=
          if matchGlobal < byAddress ∧ matchGlobal < byPort then max byAddress byPort else 0
        byProtocol := byProtocol
        blockAction := rule.actionBlock }

/-- `NetFw_IsBetterMatch` -/
def isBetterMatch (my other : RuleMatch) : Bool :=
  if my.byProg ≠ other.byProg then decide (other.byProg < my.byProg)
  else if my.byEndPoint ≠ other.byEndPoint then decide (other.byEndPoint < my.byEndPoint)
  else if my.byPort ≠ other.byPort then decide (other.byPort < my.byPort)
  else if my.byAddress ≠ other.byAddress then decide (other.byAddress < my.byAddress)
  else if my.blockAction = true ∧ other.blockAction ≠ true then true
  else if my.byProtocol ≠ other.byProtocol then decide (other.byProtocol < my.byProtocol)
  else false

/-- The loop of `NetFw_BlockTraffic`, with the best rule so far and its record. -/
def bestRule (t : Traffic) : Option (Rule × RuleMatch) → List Rule → Option (Rule × RuleMatch)
  | best, [] => best
  | best, rule :: rest =>
    match matchRule rule t with
    | none => bestRule t best rest
    | some m =>
      match best with
      | none => bestRule t (some (rule, m)) rest
      | some (best_rule, best_match) =>
        if isBetterMatch m best_match then bestRule t (some (rule, m)) rest
        else bestRule t (some (best_rule, best_match)) rest

/-- `NetFw_BlockTraffic` -/
def blockTraffic (list : List Rule) (t : Traffic) : Bool :=
  match bestRule t none list with
  | some (best_rule, _) => best_rule.actionBlock
  | none => false

/-! ### The records of a list -/

def records (list : List Rule) (t : Traffic) : List RuleMatch := list.filterMap (matchRule · t)

@[simp] theorem records_append (l l' : List Rule) (t : Traffic) :
    records (l ++ l') t = records l t ++ records l' t := filterMap_append

variable {t : Traffic} {m : RuleMatch}

theorem mem_records {l : List Rule} :
    m ∈ records l t ↔ ∃ rule ∈ l, matchRule rule t = some m := mem_filterMap

def decides (recs : List RuleMatch) : Bool := (keepBest isBetterMatch recs).any (·.blockAction)

theorem matchRule_blockAction {rule : Rule}
    (h : matchRule rule t = some m) : m.blockAction = rule.actionBlock := by
  simp only [matchRule] at h
  split at h
  · cases h
  · split at h
    · cases h
    · split at h
      · cases h
      · rw [← Option.some.inj h]

theorem bestRule_eq (t : Traffic) (list : List Rule) : ∀ best : Option (Rule × RuleMatch),
    (∀ p, best = some p → matchRule p.1 t = some p.2) →
      (bestRule t best list).map Prod.snd
          = (records list t).foldl (step isBetterMatch) (best.map Prod.snd) ∧
        ∀ p, bestRule t best list = some p → matchRule p.1 t = some p.2 := by
  induction list with
  | nil => intro best hb; exact ⟨rfl, hb⟩
  | cons rule rest ih =>
    intro best hb
    cases hm : matchRule rule t with
    | none =>
      have hrec : records (rule :: rest) t = records rest t := by simp [records, hm]
      rw [hrec]
      simpa only [bestRule, hm] using ih best hb
    | some m =>
      have hrec : records (rule :: rest) t = m :: records rest t := by simp [records, hm]
      have htake : ∀ p, some (rule, m) = some p → matchRule p.1 t = some p.2 := by
        rintro p hp
        rw [← Option.some.inj hp]
        exact hm
      rw [hrec, foldl_cons]
      cases best with
      | none => simpa only [bestRule, hm, Option.map_none, Option.map_some, step] using ih _ htake
      | some b =>
        obtain ⟨best_rule, best_match⟩ := b
        by_cases hbet : isBetterMatch m best_match
        · simpa only [bestRule, hm, Option.map_some, step, if_pos hbet] using ih _ htake
        · simpa only [bestRule, hm, Option.map_some, step, if_neg hbet] using ih _ hb

theorem blockTraffic_eq_decides (list : List Rule) (t : Traffic) :
    blockTraffic list t = decides (records list t) := by
  obtain ⟨hmap, hrec⟩ := bestRule_eq t list none (by simp)
  have hkeep : keepBest isBetterMatch (records list t) = (bestRule t none list).map Prod.snd :=
    hmap.symm
  rw [blockTraffic, decides, hkeep]
  cases hb : bestRule t none list with
  | none => rfl
  | some p =>
    obtain ⟨best_rule, best_match⟩ := p
    exact (matchRule_blockAction (hrec _ hb)).symm

/-! ### What decides between two records -/

/-- Program, endpoint, port and address, compared in this order. -/
def rank (m : RuleMatch) : Nat ×ₗ Nat ×ₗ Nat ×ₗ Nat :=
  toLex (m.byProg, toLex (m.byEndPoint, toLex (m.byPort, m.byAddress)))

theorem rank_lt_iff {o : RuleMatch} :
    rank m < rank o ↔ m.byProg < o.byProg ∨ m.byProg = o.byProg ∧
      (m.byEndPoint < o.byEndPoint ∨ m.byEndPoint = o.byEndPoint ∧
        (m.byPort < o.byPort ∨ m.byPort = o.byPort ∧ m.byAddress < o.byAddress)) := by
  simp only [rank, Prod.Lex.toLex_lt_toLex]

theorem rank_eq_iff {o : RuleMatch} :
    rank m = rank o ↔ m.byProg = o.byProg ∧ m.byEndPoint = o.byEndPoint ∧
      m.byPort = o.byPort ∧ m.byAddress = o.byAddress := by
  simp [rank]

theorem isBetterMatch_ranked : Ranked isBetterMatch rank where
  above := by
    intro a b h
    rw [rank_lt_iff] at h
    unfold isBetterMatch
    grind
  below := by
    intro a b h
    rw [rank_lt_iff] at h
    unfold isBetterMatch
    grind

theorem isBetterMatch_of_rank_eq {o : RuleMatch} (h : rank m = rank o) :
    isBetterMatch m o =
      ((m.blockAction && !o.blockAction) || decide (o.byProtocol < m.byProtocol)) := by
  rw [rank_eq_iff] at h
  unfold isBetterMatch
  grind

/-- An allowing record overtakes a blocking one of the same rank when it names the
protocol and the other does not.  The blocking one is better as well, by its
action: each of the two is better than the other. -/
def Overtakes (a b : RuleMatch) : Prop :=
  rank a = rank b ∧ a.blockAction = false ∧ b.blockAction = true ∧ b.byProtocol < a.byProtocol

instance (a b : RuleMatch) : Decidable (Overtakes a b) := inferInstanceAs (Decidable (_ ∧ _))

/-- Some record of the greatest rank blocks, and none after it overtakes it. -/
def Blocked (recs : List RuleMatch) : Prop :=
  ∃ xs b ys, recs = xs ++ b :: ys ∧ b.blockAction = true ∧
    (∀ m ∈ recs, rank m ≤ rank b) ∧ ∀ m ∈ ys, ¬ Overtakes m b

/-- `c` stands in for the blocking record `b`: it blocks, and what overtakes it
overtakes `b`. -/
def StandsFor (b c : RuleMatch) : Prop :=
  c.blockAction = true ∧ rank c = rank b ∧ b.byProtocol ≤ c.byProtocol

theorem step_standsFor {b c : RuleMatch} (hb : b.blockAction = true) (hc : StandsFor b c)
    (hm : rank m ≤ rank b) (hno : ¬ Overtakes m b) :
    ∃ d, step isBetterMatch (some c) m = some d ∧ StandsFor b d := by
  obtain ⟨hblock, hrank, hprot⟩ := hc
  by_cases hbet : isBetterMatch m c = true
  · refine ⟨m, by simp [step, hbet], ?_⟩
    have hmb : rank m = rank b := by
      refine le_antisymm hm (not_lt.mp fun hlt => ?_)
      rw [← hrank] at hlt
      rw [isBetterMatch_ranked.below hlt] at hbet
      exact absurd hbet (by simp)
    rw [isBetterMatch_of_rank_eq (hmb.trans hrank.symm), hblock] at hbet
    have hlt : c.byProtocol < m.byProtocol := by simpa using hbet
    have hmblock : m.blockAction = true := by
      by_contra hallow
      exact hno ⟨hmb, by simpa using hallow, hb, by omega⟩
    exact ⟨hmblock, hmb, by omega⟩
  · exact ⟨c, by simp [step, hbet], hblock, hrank, hprot⟩

theorem foldl_standsFor {b : RuleMatch} (hb : b.blockAction = true) {ys : List RuleMatch} :
    ∀ {c : RuleMatch}, StandsFor b c → (∀ m ∈ ys, rank m ≤ rank b) →
      (∀ m ∈ ys, ¬ Overtakes m b) →
      ∃ d, ys.foldl (step isBetterMatch) (some c) = some d ∧ StandsFor b d := by
  induction ys with
  | nil => intro c hc _ _; exact ⟨c, rfl, hc⟩
  | cons m ys ih =>
    intro c hc hle hno
    obtain ⟨d, hd, hbd⟩ := step_standsFor hb hc (hle m mem_cons_self)
      (hno m mem_cons_self)
    rw [foldl_cons, hd]
    exact ih hbd (fun x hx => hle x (mem_cons_of_mem m hx))
      (fun x hx => hno x (mem_cons_of_mem m hx))

theorem step_takes {b : RuleMatch} (hb : b.blockAction = true) {best : Option RuleMatch}
    (hle : ∀ c, best = some c → rank c ≤ rank b) :
    ∃ d, step isBetterMatch best b = some d ∧ StandsFor b d := by
  cases best with
  | none => exact ⟨b, rfl, hb, rfl, le_rfl⟩
  | some c =>
    by_cases hbet : isBetterMatch b c = true
    · exact ⟨b, by simp [step, hbet], hb, rfl, le_rfl⟩
    have hrank : rank c = rank b := by
      refine le_antisymm (hle c rfl) (not_lt.mp fun hlt => hbet ?_)
      exact isBetterMatch_ranked.above hlt
    refine ⟨c, by simp [step, hbet], ?_⟩
    rw [isBetterMatch_of_rank_eq hrank.symm, hb] at hbet
    simp only [Bool.true_and, Bool.or_eq_true, Bool.not_eq_true', decide_eq_true_eq,
      not_or, Bool.not_eq_false, not_lt] at hbet
    exact ⟨hbet.1, hrank, hbet.2⟩

theorem decides_iff {recs : List RuleMatch} : decides recs = true ↔ Blocked recs := by
  constructor
  · intro h
    rw [decides, Option.any_eq_true] at h
    obtain ⟨b, hb, hblock⟩ := h
    obtain ⟨xs, ys, hsplit, hys⟩ := exists_split_of_keepBest hb
    refine ⟨xs, b, ys, hsplit, hblock, isBetterMatch_ranked.rank_le hb, fun m hm hov => ?_⟩
    have hnot := hys m hm
    rw [isBetterMatch_of_rank_eq hov.1] at hnot
    simp only [Bool.or_eq_false_iff, decide_eq_false_iff_not] at hnot
    exact hnot.2 hov.2.2.2
  · rintro ⟨xs, b, ys, rfl, hblock, htop, hno⟩
    have hle : ∀ c, keepBest isBetterMatch xs = some c → rank c ≤ rank b :=
      fun c hc => htop c (mem_append_left _ (mem_of_keepBest hc))
    obtain ⟨c, hc, hbc⟩ := step_takes hblock hle
    obtain ⟨d, hd, hbd⟩ := foldl_standsFor hblock hbc
      (fun m hm => htop m (mem_append_right _ (mem_cons_of_mem b hm))) hno
    have hkeep : keepBest isBetterMatch (xs ++ b :: ys) = some d := by
      rw [keepBest, foldl_append, foldl_cons]
      exact (congrArg (fun s => ys.foldl (step isBetterMatch) s) hc).trans hd
    rw [decides, hkeep]
    exact hbd.1

theorem blockTraffic_iff {list : List Rule} :
    blockTraffic list t = true ↔ Blocked (records list t) := by
  rw [blockTraffic_eq_decides, decides_iff]

end Sandboxie.NetFw
