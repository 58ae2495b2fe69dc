import Sandboxie.Common.PatternList

/-!
# Path rules

`Process_MatchPathEx` of `core/drv/process_util.c`.  It asks the five rule lists of a
process one after the other and keeps the access flags of the list whose best pattern
overrules what it has.
-/

namespace Sandboxie.MatchPath

open Pattern

abbrev truePathClosedFlag : Nat := 0x00
abbrev truePathReadFlag : Nat := 0x10
abbrev truePathOpenFlag : Nat := 0x30
abbrev copyPathClosedFlag : Nat := 0x00
abbrev copyPathReadFlag : Nat := 0x01
abbrev copyPathOpenFlag : Nat := 0x03

/-- What `Process_MatchPathEx` reads of a `PROCESS`. -/
structure Process where
  useRuleSpecificity : Bool
  fileBlockNetworkFiles : Bool
deriving DecidableEq, Repr

structure PathLists where
  normal : List Pattern
  opened : List Pattern
  closed : List Pattern
  read : List Pattern
  write : List Pattern
deriving DecidableEq

/-- A list as `Process_MatchPathEx` asks it: the flags that it gives, and whether a match
ends the search where specificity is not used. -/
structure RuleList where
  list : List Pattern
  mpFlags : Nat
  finishes : Bool
deriving DecidableEq

/-- The lists in the order in which they are asked. -/
def PathLists.inOrder (lists : PathLists) : List RuleList :=
  [⟨lists.closed, truePathClosedFlag ||| copyPathClosedFlag, true⟩,
    ⟨lists.write, truePathClosedFlag ||| copyPathOpenFlag, true⟩,
    ⟨lists.read, truePathReadFlag ||| copyPathReadFlag, true⟩,
    ⟨lists.normal, truePathReadFlag ||| copyPathOpenFlag, false⟩,
    ⟨lists.opened, truePathOpenFlag, false⟩]

/-- The flags where no rule matches. -/
def defaultFlags (proc : Process) (pathCode : WChar) : Nat :=
  if pathCode = 'n'.toNat ∧ proc.fileBlockNetworkFiles = true then
    truePathClosedFlag ||| copyPathClosedFlag
  else truePathReadFlag ||| copyPathOpenFlag

/-- Level, flags, length and wildcards before the first list. -/
def noMatch : PathMatch where
  level := 3
  matchLen := 0
  flags := ⟨false, false⟩
  wildc := 2 ^ 16 - 1
  patsrc := none

/-- The five calls of `Pattern_MatchPathListEx`. -/
def matchLists (fuel : Nat) (specificity : Bool) (pathLwr : List WChar) :
    List RuleList → PathMatch → Nat → Option (Nat × PathMatch)
  | [], best, mpFlags => some (mpFlags, best)
  | rules :: rest, best, mpFlags =>
    match matchPathListEx fuel pathLwr rules.list best with
    | none => none
    | some none => matchLists fuel specificity pathLwr rest best mpFlags
    | some (some best') =>
      if rules.finishes && !specificity then some (rules.mpFlags, best')
      else matchLists fuel specificity pathLwr rest best' rules.mpFlags

def lowerPath (towlower : WChar → WChar) (path : List WChar) : List WChar :=
  (Text.cut path).map towlower

/-- `Process_MatchPathEx`: the flags it returns and the pattern it reports.  `path` is the
text of length `path_len`, and the copy of it was allocated. -/
def matchPathEx (fuel : Nat) (towlower : WChar → WChar) (proc : Process) (path : List WChar)
    (pathCode : WChar) (lists : PathLists) : Option (Nat × Option (List WChar)) :=
  let pathLwr := lowerPath towlower path
  if pathLwr = [] then some (0, none)
  else
    (matchLists fuel proc.useRuleSpecificity pathLwr lists.inOrder noMatch
      (defaultFlags proc pathCode)).map fun r => (r.1, r.2.patsrc)

/-! ### The lists as candidates -/

def PathLists.patterns (lists : PathLists) : List Pattern :=
  lists.inOrder.flatMap (·.list)

theorem mem_patterns {lists : PathLists} {rules : RuleList} {pat : Pattern}
    (hrules : rules ∈ lists.inOrder) (hpat : pat ∈ rules.list) : pat ∈ lists.patterns :=
  List.mem_flatMap.mpr ⟨rules, hrules, hpat⟩

/-- `Pattern_MatchPathListEx` on candidates. -/
def askList (cands : List Candidate) (best : PathMatch) : Option PathMatch :=
  let cur := scan cands ⟨0, best.level, best.flags, best.wildc, none⟩
  if overrules cur best then some (adopt cur) else none

theorem matchPathListEx_eq {fuel : Nat} {pathLwr : List WChar} (hpath : pathLwr ≠ [])
    {list : List Pattern} (hret : ∀ pat ∈ list, Returns fuel pathLwr pat) (best : PathMatch) :
    matchPathListEx fuel pathLwr list best =
      some (askList (list.map (candidate fuel pathLwr)) best) := by
  rw [matchPathListEx, if_neg hpath, matchPathList_eq_scan hret]
  rfl

structure CandidateList where
  cands : List Candidate
  mpFlags : Nat

/-- The calls with specificity on, on candidates. -/
def askLists : List CandidateList → PathMatch → Nat → Nat
  | [], _, mpFlags => mpFlags
  | l :: rest, best, mpFlags =>
    match askList l.cands best with
    | none => askLists rest best mpFlags
    | some best' => askLists rest best' l.mpFlags

def RuleList.candidates (fuel : Nat) (pathLwr : List WChar) (rules : RuleList) : CandidateList :=
  ⟨rules.list.map (candidate fuel pathLwr), rules.mpFlags⟩

theorem matchLists_eq {fuel : Nat} {pathLwr : List WChar} (hpath : pathLwr ≠ [])
    {order : List RuleList} :
    (∀ rules ∈ order, ∀ pat ∈ rules.list, Returns fuel pathLwr pat) →
      ∀ (best : PathMatch) (mpFlags : Nat),
        (matchLists fuel true pathLwr order best mpFlags).map Prod.fst =
          some (askLists (order.map (·.candidates fuel pathLwr)) best mpFlags) := by
  induction order with
  | nil => intro _ best mpFlags; rfl
  | cons rules rest ih =>
    intro hret best mpFlags
    have ih := ih fun r hr => hret r (List.mem_cons_of_mem rules hr)
    rw [matchLists, List.map_cons, askLists,
      matchPathListEx_eq hpath (hret rules List.mem_cons_self) best]
    simp only [RuleList.candidates]
    cases askList (rules.list.map (candidate fuel pathLwr)) best with
    | none => exact ih best mpFlags
    | some best' =>
      rw [Bool.not_true, Bool.and_false]
      exact ih best' rules.mpFlags

theorem matchPathEx_eq {fuel : Nat} {towlower : WChar → WChar} {proc : Process}
    (hspec : proc.useRuleSpecificity = true) {path : List WChar} {lists : PathLists}
    (hpath : lowerPath towlower path ≠ [])
    (hret : ∀ pat ∈ lists.patterns, Returns fuel (lowerPath towlower path) pat)
    (pathCode : WChar) :
    (matchPathEx fuel towlower proc path pathCode lists).map Prod.fst =
      some (askLists (lists.inOrder.map (·.candidates fuel (lowerPath towlower path))) noMatch
        (defaultFlags proc pathCode)) := by
  have h := matchLists_eq hpath (fun r hr pat hp => hret pat (mem_patterns hr hp)) noMatch
    (defaultFlags proc pathCode)
  rw [matchPathEx, if_neg hpath, hspec, Option.map_map]
  exact h

end Sandboxie.MatchPath
