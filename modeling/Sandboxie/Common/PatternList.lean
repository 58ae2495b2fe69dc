import Mathlib.Data.List.Perm.Basic
import Mathlib.Order.Nat
import Sandboxie.Common.Pattern

/-!
# The best pattern of a list

`Pattern_MatchPathList` and `Pattern_MatchPathListEx`.  Once every match has given its
answer a pattern is a `Candidate`, its two lengths beside it, and the loop is `scan`
(`matchPathLoop_eq_scan`).

`scan` keeps a length, a level and flags, and takes a candidate when its length is
greater and its level and its exactness are not worse.  That is not the maximum of an
order: `scan_orderFree_iff` says for which lists the result does not depend on the order
of the patterns.
-/

namespace Sandboxie.Pattern

open List

/-- `MATCH_FLAG_EXACT` and `MATCH_FLAG_AUX` -/
structure MatchFlags where
  exact : Bool
  aux : Bool
deriving DecidableEq, Repr

/-- The variables of `Pattern_MatchPathList`. -/
structure ListMatch where
  matchLen : Nat
  level : Nat
  flags : MatchFlags
  wildc : Nat
  found : Option Pattern
deriving DecidableEq

/-- The loop of `Pattern_MatchPathList`. -/
def matchPathLoop (fuel : Nat) (pathLwr : List WChar) :
    List Pattern → ListMatch → Option ListMatch
  | [], s => some s
  | pat :: rest, s =>
    if s.level < pat.level then matchPathLoop fuel pathLwr rest s
    else if !pat.exact && s.flags.exact then matchPathLoop fuel pathLwr rest s
    else
      match matchX pat pathLwr fuel with
      | none => none
      | some curLen =>
        if s.matchLen < curLen then
          let s' : ListMatch := ⟨curLen, pat.level, ⟨pat.exact, false⟩, pat.wildcards, some pat⟩
          if pat.exact then some s' else matchPathLoop fuel pathLwr rest s'
        else if pathLwr.getLast? ≠ some backslash then
          match matchX pat (pathLwr ++ [backslash]) fuel with
          | none => none
          | some curLen =>
            if s.matchLen < curLen then
              matchPathLoop fuel pathLwr rest
                ⟨curLen, pat.level, ⟨pat.exact, true⟩, pat.wildcards, some pat⟩
            else matchPathLoop fuel pathLwr rest s
        else matchPathLoop fuel pathLwr rest s

/-- `Pattern_MatchPathList`, with what the pointers hold before the call. -/
def matchPathList (fuel : Nat) (pathLwr : List WChar) (list : List Pattern) (level : Nat)
    (flags : MatchFlags) (wildc : Nat) : Option ListMatch :=
  matchPathLoop fuel pathLwr list ⟨0, level, flags, wildc, none⟩

/-- What `Pattern_MatchPathListEx` works on: its in-out parameters. -/
structure PathMatch where
  level : Nat
  matchLen : Nat
  flags : MatchFlags
  wildc : Nat
  patsrc : Option (List WChar)
deriving DecidableEq

/-- The condition under which `Pattern_MatchPathListEx` prefers the result of its list. -/
def overrules (cur : ListMatch) (best : PathMatch) : Bool :=
  decide (cur.level ≤ best.level) &&
    ((!best.flags.exact && cur.flags.exact) ||
      (best.flags.aux && !cur.flags.aux) ||
      decide (best.matchLen < cur.matchLen) ||
      (decide (cur.matchLen = best.matchLen ∧ 0 < cur.matchLen) && decide (cur.wildc < best.wildc)))

/-- The assignments of `Pattern_MatchPathListEx`. -/
def adopt (cur : ListMatch) : PathMatch where
  level := cur.level
  matchLen := cur.matchLen
  flags := cur.flags
  wildc := cur.wildc
  patsrc := cur.found.map Pattern.source

/-- `Pattern_MatchPathListEx`: the new values when it returns `TRUE`.  A list that is
absent is empty here: neither gives a match. -/
def matchPathListEx (fuel : Nat) (pathLwr : List WChar) (list : List Pattern)
    (best : PathMatch) : Option (Option PathMatch) :=
  if pathLwr = [] then some none
  else
    (matchPathList fuel pathLwr list best.level best.flags best.wildc).map fun cur =>
      if overrules cur best then some (adopt cur) else none

/-! ### Candidates -/

/-- A pattern with the length it matches of a path, and of the path with a separator
behind it. -/
structure Candidate where
  pat : Pattern
  primary : Nat
  auxiliary : Nat
deriving DecidableEq

namespace Candidate

def Fits (c : Candidate) : Prop := 0 < c.primary ∨ 0 < c.auxiliary

instance (c : Candidate) : Decidable c.Fits := inferInstanceAs (Decidable (_ ∨ _))

def len (c : Candidate) : Nat := if 0 < c.primary then c.primary else c.auxiliary

/-- The flags that go with `len`. -/
def flags (c : Candidate) : MatchFlags := ⟨c.pat.exact, decide (c.primary = 0)⟩

def Single (c : Candidate) : Prop := 0 < c.primary → c.auxiliary ≤ c.primary

instance (c : Candidate) : Decidable c.Single := inferInstanceAs (Decidable (_ → _))

def Stops (c : Candidate) : Prop := c.pat.exact = true ∧ 0 < c.primary

instance (c : Candidate) : Decidable c.Stops := inferInstanceAs (Decidable (_ ∧ _))

/-- The state after the candidate was taken for its `len`. -/
def taken (c : Candidate) : ListMatch := ⟨c.len, c.pat.level, c.flags, c.pat.wildcards, some c.pat⟩

theorem len_pos_iff {c : Candidate} : 0 < c.len ↔ c.Fits := by
  unfold len Fits
  split <;> omega

end Candidate

/-- The state has no better level, and is exact only if the candidate is. -/
def Visible (c : Candidate) (s : ListMatch) : Prop :=
  c.pat.level ≤ s.level ∧ (s.flags.exact = true → c.pat.exact = true)

instance (c : Candidate) (s : ListMatch) : Decidable (Visible c s) :=
  inferInstanceAs (Decidable (_ ∧ _))

/-- The loop over candidates. -/
def scan : List Candidate → ListMatch → ListMatch
  | [], s => s
  | c :: rest, s =>
    if ¬ Visible c s then scan rest s
    else if s.matchLen < c.primary then
      let s' : ListMatch :=
        ⟨c.primary, c.pat.level, ⟨c.pat.exact, false⟩, c.pat.wildcards, some c.pat⟩
      if c.pat.exact then s' else scan rest s'
    else if s.matchLen < c.auxiliary then
      scan rest ⟨c.auxiliary, c.pat.level, ⟨c.pat.exact, true⟩, c.pat.wildcards, some c.pat⟩
    else scan rest s

def Returns (fuel : Nat) (pathLwr : List WChar) (pat : Pattern) : Prop :=
  (matchX pat pathLwr fuel).isSome ∧ (matchX pat (pathLwr ++ [backslash]) fuel).isSome

instance (fuel : Nat) (pathLwr : List WChar) (pat : Pattern) :
    Decidable (Returns fuel pathLwr pat) := inferInstanceAs (Decidable (_ ∧ _))

def candidate (fuel : Nat) (pathLwr : List WChar) (pat : Pattern) : Candidate where
  pat := pat
  primary := (matchX pat pathLwr fuel).getD 0
  auxiliary :=
    if pathLwr.getLast? = some backslash then 0
    else (matchX pat (pathLwr ++ [backslash]) fuel).getD 0

theorem matchPathLoop_eq_scan {fuel : Nat} {pathLwr : List WChar} {list : List Pattern} :
    (∀ pat ∈ list, Returns fuel pathLwr pat) → ∀ s : ListMatch,
      matchPathLoop fuel pathLwr list s = some (scan (list.map (candidate fuel pathLwr)) s) := by
  induction list with
  | nil => intro _ s; rfl
  | cons pat rest ih =>
    intro hret s
    obtain ⟨hprim, haux⟩ := hret pat mem_cons_self
    have ih := ih fun p hp => hret p (mem_cons_of_mem pat hp)
    obtain ⟨curLen, hcur⟩ := Option.isSome_iff_exists.mp hprim
    obtain ⟨auxLen, hauxLen⟩ := Option.isSome_iff_exists.mp haux
    rw [matchPathLoop, map_cons, scan]
    have hpat : (candidate fuel pathLwr pat).pat = pat := rfl
    have hp : (candidate fuel pathLwr pat).primary = curLen := by simp [candidate, hcur]
    by_cases hlevel : s.level < pat.level
    · rw [if_pos hlevel, if_pos (fun hv : Visible _ _ => absurd hv.1 (not_le_of_gt hlevel)), ih]
    by_cases hexact : (!pat.exact && s.flags.exact) = true
    · have hnot : ¬ Visible (candidate fuel pathLwr pat) s := by
        rintro ⟨_, hv⟩
        simp only [Bool.and_eq_true, Bool.not_eq_true'] at hexact
        rw [hpat, hexact.1] at hv
        exact absurd (hv hexact.2) (by simp)
      rw [if_neg hlevel, if_pos hexact, if_pos hnot, ih]
    · have hvis : Visible (candidate fuel pathLwr pat) s := by
        refine ⟨not_lt.mp hlevel, fun hs => ?_⟩
        rw [hpat]
        simpa [hs] using hexact
      rw [if_neg hlevel, if_neg hexact, if_neg (not_not.mpr hvis), hcur, hp, hpat]
      by_cases hlen : s.matchLen < curLen
      · simp only [if_pos hlen]
        split
        · rfl
        · exact ih _
      · simp only [if_neg hlen]
        by_cases hlast : pathLwr.getLast? = some backslash
        · have ha : (candidate fuel pathLwr pat).auxiliary = 0 := by simp [candidate, hlast]
          rw [if_neg (not_not.mpr hlast), ha, if_neg (Nat.not_lt_zero _), ih]
        have ha : (candidate fuel pathLwr pat).auxiliary = auxLen := by
          simp [candidate, hlast, hauxLen]
        rw [if_pos hlast, hauxLen, ha]
        by_cases hlen' : s.matchLen < auxLen
        · simp only [if_pos hlen']
          exact ih _
        · simp only [if_neg hlen']
          exact ih _

theorem matchPathList_eq_scan {fuel : Nat} {pathLwr : List WChar} {list : List Pattern}
    (hret : ∀ pat ∈ list, Returns fuel pathLwr pat) (level : Nat) (flags : MatchFlags)
    (wildc : Nat) :
    matchPathList fuel pathLwr list level flags wildc =
      some (scan (list.map (candidate fuel pathLwr)) ⟨0, level, flags, wildc, none⟩) :=
  matchPathLoop_eq_scan hret _

/-! ### When the order does not matter -/

def outcome (s : ListMatch) : Nat × Nat × MatchFlags := (s.matchLen, s.level, s.flags)

variable {s : ListMatch} {c : Candidate}

theorem scan_cons_of_not_visible {rest : List Candidate}
    (h : ¬ Visible c s) : scan (c :: rest) s = scan rest s := by
  rw [scan, if_pos h]

theorem scan_cons_of_le (hsingle : c.Single) {rest : List Candidate}
    (h : c.len ≤ s.matchLen) : scan (c :: rest) s = scan rest s := by
  have hprim : ¬ s.matchLen < c.primary := by
    unfold Candidate.len at h
    split at h <;> omega
  have haux : ¬ s.matchLen < c.auxiliary := by
    unfold Candidate.len at h
    split at h
    · have := hsingle ‹_›
      omega
    · omega
  rw [scan, if_neg hprim, if_neg haux]
  split <;> rfl

theorem scan_cons_of_lt {rest : List Candidate} (hvis : Visible c s) (h : s.matchLen < c.len) :
    scan (c :: rest) s = if c.Stops then c.taken else scan rest c.taken := by
  rw [scan, if_neg (not_not.mpr hvis)]
  by_cases hpos : 0 < c.primary
  · have hlen : c.len = c.primary := if_pos hpos
    have hflags : c.flags = ⟨c.pat.exact, false⟩ := by
      simp [Candidate.flags, Nat.pos_iff_ne_zero.mp hpos]
    rw [hlen] at h
    simp only [if_pos h, Candidate.Stops, hpos, and_true, Candidate.taken, hlen, hflags]
  · have hlen : c.len = c.auxiliary := if_neg hpos
    have hflags : c.flags = ⟨c.pat.exact, true⟩ := by
      simp [Candidate.flags, Nat.eq_zero_of_not_pos hpos]
    have hprim : ¬ s.matchLen < c.primary := by omega
    have hstops : ¬ c.Stops := fun hst => hpos hst.2
    rw [hlen] at h
    rw [if_neg hprim, if_pos h, if_neg hstops]
    simp only [Candidate.taken, hlen, hflags]

/-- `c` gives way to `q`: they have the same outcome, or `q` is strictly longer, not
worse, and in view after `c` was taken. -/
def YieldsTo (c q : Candidate) : Prop :=
  outcome c.taken = outcome q.taken ∨
    (c.len < q.len ∧ q.pat.level ≤ c.pat.level ∧ (c.pat.exact = true → q.pat.exact = true) ∧
      ¬ c.Stops)

instance (c q : Candidate) : Decidable (YieldsTo c q) := inferInstanceAs (Decidable (_ ∨ _))

/-- One candidate of the list to which all others give way, or nothing fits. -/
def Dominated (list : List Candidate) : Prop :=
  (∀ c ∈ list, ¬ c.Fits) ∨ ∃ q ∈ list, q.Fits ∧ ∀ c ∈ list, c.Fits → YieldsTo c q

instance (list : List Candidate) : Decidable (Dominated list) :=
  inferInstanceAs (Decidable (_ ∨ _))

variable {c q : Candidate}

theorem YieldsTo.len_le (h : YieldsTo c q) : c.len ≤ q.len := by
  rcases h with h | h
  · exact (Prod.mk.inj h).1.le
  · exact h.1.le

theorem visible_congr (h : outcome c.taken = outcome q.taken) (s : ListMatch) :
    Visible c s ↔ Visible q s := by
  obtain ⟨_, h⟩ := Prod.mk.inj h
  obtain ⟨hlevel, hflags⟩ := Prod.mk.inj h
  have hexact : c.pat.exact = q.pat.exact := congrArg MatchFlags.exact hflags
  have hlevel : c.pat.level = q.pat.level := hlevel
  rw [Visible, Visible, hlevel, hexact]

variable {list : List Candidate}

theorem scan_source : (∀ c ∈ list, c.Single) → ∀ s : ListMatch,
    scan list s = s ∨ ∃ c ∈ list, c.Fits ∧ scan list s = c.taken := by
  induction list with
  | nil => intro _ s; exact .inl rfl
  | cons c rest ih =>
    intro hsingle s
    have ih := ih fun d hd => hsingle d (mem_cons_of_mem c hd)
    have hc := hsingle c mem_cons_self
    have hpass : scan (c :: rest) s = scan rest s →
        scan (c :: rest) s = s ∨ ∃ d ∈ c :: rest, d.Fits ∧ scan (c :: rest) s = d.taken := by
      intro heq
      rw [heq]
      rcases ih s with h | ⟨d, hd, h⟩
      · exact .inl h
      · exact .inr ⟨d, mem_cons_of_mem c hd, h⟩
    by_cases hvis : Visible c s
    · by_cases hlt : s.matchLen < c.len
      · right
        have hfits : c.Fits := Candidate.len_pos_iff.mp (by omega)
        rw [scan_cons_of_lt hvis hlt]
        split
        · exact ⟨c, mem_cons_self, hfits, rfl⟩
        · rcases ih c.taken with h | ⟨d, hd, h⟩
          · exact ⟨c, mem_cons_self, hfits, h⟩
          · exact ⟨d, mem_cons_of_mem c hd, h⟩
      · exact hpass (scan_cons_of_le hc (not_lt.mp hlt))
    · exact hpass (scan_cons_of_not_visible hvis)

theorem scan_eq_self_of_len_le :
    (∀ c ∈ list, c.Single) → (∀ c ∈ list, Visible c s → c.len ≤ s.matchLen) →
      scan list s = s := by
  induction list with
  | nil => intro _ _; rfl
  | cons c rest ih =>
    intro hsingle hle
    have ih := ih (fun d hd => hsingle d (mem_cons_of_mem c hd))
      (fun d hd => hle d (mem_cons_of_mem c hd))
    by_cases hvis : Visible c s
    · rw [scan_cons_of_le (hsingle c mem_cons_self) (hle c mem_cons_self hvis), ih]
    · rw [scan_cons_of_not_visible hvis, ih]

/-- **A candidate to which all others give way decides**, from any state that it beats. -/
theorem outcome_scan_of_yields :
    (∀ c ∈ list, c.Single) → (∀ c ∈ list, c.Fits → YieldsTo c q) →
      (∃ p ∈ list, outcome p.taken = outcome q.taken) →
      ∀ s : ListMatch, Visible q s → s.matchLen < q.len →
        outcome (scan list s) = outcome q.taken := by
  induction list with
  | nil => rintro _ _ ⟨p, hp, _⟩; simp at hp
  | cons c rest ih =>
    intro hsingle hyields ⟨p, hp, hpq⟩ s hvis hlt
    have hc := hsingle c mem_cons_self
    have hsingle' : ∀ d ∈ rest, d.Single := fun d hd => hsingle d (mem_cons_of_mem c hd)
    have hyields' : ∀ d ∈ rest, d.Fits → YieldsTo d q :=
      fun d hd => hyields d (mem_cons_of_mem c hd)
    have hlater : outcome c.taken ≠ outcome q.taken →
        ∃ p ∈ rest, outcome p.taken = outcome q.taken := by
      intro hne
      rcases mem_cons.mp hp with rfl | hp
      · exact absurd hpq hne
      · exact ⟨p, hp, hpq⟩
    by_cases hcq : outcome c.taken = outcome q.taken
    · -- from here on nothing is longer
      have hlen : c.len = q.len := (Prod.mk.inj hcq).1
      rw [scan_cons_of_lt ((visible_congr hcq s).mpr hvis) (hlen ▸ hlt)]
      split
      · exact hcq
      · rw [scan_eq_self_of_len_le hsingle' (fun d hd _ => ?_), hcq]
        by_cases hd' : d.Fits
        · exact (hyields' d hd hd').len_le.trans hlen.ge
        · exact (Nat.eq_zero_of_not_pos (mt Candidate.len_pos_iff.mp hd')).le.trans (Nat.zero_le _)
    · have ih := ih hsingle' hyields' (hlater hcq)
      by_cases hcvis : Visible c s
      · by_cases hclt : s.matchLen < c.len
        · have hfits : c.Fits := Candidate.len_pos_iff.mp (by omega)
          obtain ⟨hcl, hlevel, hexact, hstop⟩ :=
            (hyields c mem_cons_self hfits).resolve_left hcq
          rw [scan_cons_of_lt hcvis hclt, if_neg hstop]
          exact ih c.taken ⟨hlevel, hexact⟩ hcl
        · rw [scan_cons_of_le hc (not_lt.mp hclt)]
          exact ih s hvis hlt
      · rw [scan_cons_of_not_visible hcvis]
        exact ih s hvis hlt

theorem outcome_scan_of_not_visible (hsingle : ∀ c ∈ list, c.Single)
    (hyields : ∀ c ∈ list, c.Fits → YieldsTo c q)
    (hvis : ¬ Visible q s) : scan list s = s := by
  refine scan_eq_self_of_len_le hsingle fun c hc hcvis => ?_
  by_cases hfits : c.Fits
  · exfalso
    rcases hyields c hc hfits with heq | ⟨_, hlevel, hexact, _⟩
    · exact hvis ((visible_congr heq s).mp hcvis)
    · exact hvis ⟨hlevel.trans hcvis.1, fun hs => hexact (hcvis.2 hs)⟩
  · rw [Nat.eq_zero_of_not_pos (mt Candidate.len_pos_iff.mp hfits)]
    exact Nat.zero_le _

/-- The result does not depend on the order of the candidates, whatever level and flags
the scan starts with. -/
def ScanOrderFree (list : List Candidate) : Prop :=
  ∀ list', list'.Perm list → ∀ s : ListMatch, s.matchLen = 0 → s.found = none →
    outcome (scan list' s) = outcome (scan list s)

def openState (list : List Candidate) : ListMatch :=
  ⟨0, (list.map (·.pat.level)).foldr max 0, ⟨false, false⟩, 0, none⟩

theorem visible_openState (hc : c ∈ list) :
    Visible c (openState list) := by
  refine ⟨?_, fun h => absurd h (by simp [openState])⟩
  induction list with
  | nil => simp at hc
  | cons d rest ih =>
    rcases mem_cons.mp hc with rfl | hc
    · exact le_max_left _ _
    · exact (ih hc).trans (le_max_right _ _)

theorem matchLen_le_scan : (∀ c ∈ list, c.Single) → ∀ s : ListMatch,
    s.matchLen ≤ (scan list s).matchLen := by
  induction list with
  | nil => intro _ s; exact le_rfl
  | cons d rest ih =>
    intro hsingle s
    have ih := ih fun e he => hsingle e (mem_cons_of_mem d he)
    by_cases hvis : Visible d s
    · by_cases hlt : s.matchLen < d.len
      · rw [scan_cons_of_lt hvis hlt]
        split
        · exact hlt.le
        · exact hlt.le.trans (ih d.taken)
      · rw [scan_cons_of_le (hsingle d mem_cons_self) (not_lt.mp hlt)]
        exact ih s
    · rw [scan_cons_of_not_visible hvis]
      exact ih s

theorem scan_pos (hfits : c.Fits) :
    (∀ d ∈ list, d.Single) → c ∈ list → ∀ s : ListMatch, Visible c s →
      0 < (scan list s).matchLen := by
  induction list with
  | nil => intro _ hc; simp at hc
  | cons d rest ih =>
    intro hsingle hc s hcvis
    have hsingle' : ∀ e ∈ rest, e.Single := fun e he => hsingle e (mem_cons_of_mem d he)
    have hd := hsingle d mem_cons_self
    have hpos := Candidate.len_pos_iff.mpr hfits
    by_cases hvis : Visible d s
    · by_cases hlt : s.matchLen < d.len
      · have hdpos : 0 < d.len := by omega
        rw [scan_cons_of_lt hvis hlt]
        split
        · exact hdpos
        · exact hdpos.trans_le (matchLen_le_scan hsingle' d.taken)
      · rw [scan_cons_of_le hd (not_lt.mp hlt)]
        rcases mem_cons.mp hc with rfl | hc
        · exact (hpos.trans_le (not_lt.mp hlt)).trans_le (matchLen_le_scan hsingle' s)
        · exact ih hsingle' hc s hcvis
    · rw [scan_cons_of_not_visible hvis]
      rcases mem_cons.mp hc with rfl | hc
      · exact absurd hcvis hvis
      · exact ih hsingle' hc s hcvis

theorem scan_openState {list list' : List Candidate} (hsingle : ∀ c ∈ list, c.Single)
    (hperm : list'.Perm list) (hfits : ∃ c ∈ list, c.Fits) :
    ∃ q ∈ list, q.Fits ∧ scan list' (openState list) = q.taken := by
  have hsingle' : ∀ c ∈ list', c.Single := fun c hc => hsingle c (hperm.mem_iff.mp hc)
  rcases scan_source hsingle' (openState list) with h | ⟨q, hq, hqf, h⟩
  · obtain ⟨c, hc, hcf⟩ := hfits
    have hpos := scan_pos hcf hsingle' (hperm.mem_iff.mpr hc) _ (visible_openState hc)
    rw [h] at hpos
    exact absurd hpos (Nat.lt_irrefl 0)
  · exact ⟨q, hperm.mem_iff.mp hq, hqf, h⟩

theorem scan_append_of_same (hq : Visible q s → q.len ≤ s.matchLen) {zs : List Candidate} :
    (∀ d ∈ zs, d.Single ∧ outcome d.taken = outcome q.taken) → ∀ rest : List Candidate,
      scan (zs ++ rest) s = scan rest s := by
  induction zs with
  | nil => intro _ rest; rfl
  | cons d zs ih =>
    intro hz rest
    have ih := ih (fun e he => hz e (mem_cons_of_mem d he)) rest
    obtain ⟨hd, hsame⟩ := hz d mem_cons_self
    have hlen : d.len = q.len := (Prod.mk.inj hsame).1
    by_cases hvis : Visible d s
    · have hle : d.len ≤ s.matchLen := hlen.le.trans (hq ((visible_congr hsame s).mp hvis))
      rw [cons_append, scan_cons_of_le hd hle, ih]
    · rw [cons_append, scan_cons_of_not_visible hvis, ih]

theorem yieldsTo_of_orderFree (hsingle : ∀ c ∈ list, c.Single)
    (hfree : ScanOrderFree list) (hc : c ∈ list) (hcf : c.Fits)
    (hq : scan list (openState list) = q.taken) : YieldsTo c q := by
  by_contra hnot
  rw [YieldsTo, not_or] at hnot
  obtain ⟨hne, hnot⟩ := hnot
  obtain ⟨xs, ys, rfl⟩ := append_of_mem hc
  let same : Candidate → Bool := fun d => decide (outcome d.taken = outcome q.taken)
  let others := xs ++ ys
  let list' := c :: (others.filter same ++ others.filter fun d => !same d)
  have hperm : list'.Perm (xs ++ c :: ys) :=
    ((filter_append_perm same others).cons c).trans perm_middle.symm
  have hothers : ∀ d ∈ others, d.Single := by
    intro d hd
    refine hsingle d ?_
    rcases mem_append.mp hd with hd | hd <;> simp [hd]
  have hvis : Visible c (openState (xs ++ c :: ys)) := visible_openState hc
  have hpos : (openState (xs ++ c :: ys)).matchLen < c.len := Candidate.len_pos_iff.mpr hcf
  have hresult : outcome (scan list' (openState (xs ++ c :: ys))) = outcome q.taken := by
    rw [hfree list' hperm _ rfl rfl, hq]
  rw [scan_cons_of_lt hvis hpos] at hresult
  split at hresult
  · exact hne hresult
  rename_i hstop
  have hqle : Visible q c.taken → q.len ≤ c.taken.matchLen :=
    fun hqvis => not_lt.mp fun hlt => hnot ⟨hlt, hqvis.1, hqvis.2, hstop⟩
  rw [scan_append_of_same hqle] at hresult
  · rcases scan_source (fun d hd => hothers d (mem_filter.mp hd).1) c.taken with
      h | ⟨d, hd, _, h⟩
    · exact hne (h ▸ hresult)
    · have hdq : same d = false := by simpa using (mem_filter.mp hd).2
      rw [h] at hresult
      simp [same, hresult] at hdq
  · intro d hd
    exact ⟨hothers d (mem_filter.mp hd).1, by simpa [same] using (mem_filter.mp hd).2⟩

/-- **When the order of a list does not matter**: exactly when all its candidates give
way to one. -/
theorem scan_orderFree_iff (hsingle : ∀ c ∈ list, c.Single) :
    ScanOrderFree list ↔ Dominated list := by
  constructor
  · intro hfree
    by_cases hfits : ∃ c ∈ list, c.Fits
    · obtain ⟨q, hq, hqf, hscan⟩ := scan_openState hsingle (List.Perm.refl _) hfits
      exact .inr ⟨q, hq, hqf, fun c hc hcf => yieldsTo_of_orderFree hsingle hfree hc hcf hscan⟩
    · exact .inl fun c hc hcf => hfits ⟨c, hc, hcf⟩
  · intro hdom list' hperm s hs _
    have hsingle' : ∀ c ∈ list', c.Single := fun c hc => hsingle c (hperm.mem_iff.mp hc)
    rcases hdom with hnone | ⟨q, hq, hqf, hyields⟩
    · have hself : ∀ zs : List Candidate, (∀ c ∈ zs, c.Single ∧ ¬ c.Fits) → scan zs s = s := by
        intro zs hz
        refine scan_eq_self_of_len_le (fun c hc => (hz c hc).1) fun c hc _ => ?_
        rw [Nat.eq_zero_of_not_pos (mt Candidate.len_pos_iff.mp (hz c hc).2)]
        exact Nat.zero_le _
      rw [hself list' fun c hc => ⟨hsingle' c hc, hnone c (hperm.mem_iff.mp hc)⟩,
        hself list fun c hc => ⟨hsingle c hc, hnone c hc⟩]
    · have hyields' : ∀ c ∈ list', c.Fits → YieldsTo c q :=
        fun c hc => hyields c (hperm.mem_iff.mp hc)
      by_cases hvis : Visible q s
      · have hlt : s.matchLen < q.len := hs ▸ Candidate.len_pos_iff.mpr hqf
        rw [outcome_scan_of_yields hsingle' hyields' ⟨q, hperm.mem_iff.mpr hq, rfl⟩ s hvis hlt,
          outcome_scan_of_yields hsingle hyields ⟨q, hq, rfl⟩ s hvis hlt]
      · rw [outcome_scan_of_not_visible hsingle' hyields' hvis,
          outcome_scan_of_not_visible hsingle hyields hvis]

end Sandboxie.Pattern
