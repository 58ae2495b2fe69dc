import Mathlib.Data.Prod.Lex
import Mathlib.Order.OrderDual
import Sandboxie.Lib.KeepBest
import Sandboxie.Drv.MatchPath

/-!
# Rule specificity

The comment in `Process_MatchPathEx` ranks the rules: the process match level overrules
everything, then an exact pattern overrules one that ends in a star, then the longer
match, then fewer wildcards.  `rank` is that order and `documented` the search that
follows it.

The code compares in another way: a rule of a better level is only taken when it also
matches more, and the scan of a list stops at the first exact rule.  `StepsAgree` says
that no such comparison goes wrong on the way, and `matchPathEx_specific` that then the
best rule decides.
-/

namespace Sandboxie.MatchPath

open Pattern KeepBest List

/-- The rank that the comment gives to a match: level, exactness, length, wildcards. -/
def rank (c : Candidate) : ℕᵒᵈ ×ₗ Bool ×ₗ ℕ ×ₗ ℕᵒᵈ :=
  toLex (OrderDual.toDual c.pat.level, toLex (c.pat.exact,
    toLex (c.len, OrderDual.toDual c.pat.wildcards)))

def above (c d : Candidate) : Bool := decide (rank d < rank c)

theorem above_ranked : Ranked above rank where
  above := fun h => decide_eq_true h
  below := fun h => decide_eq_false h.not_gt

/-- The best match of a list, the first at a tie. -/
def bestFit (cands : List Candidate) : Option Candidate :=
  keepBest above (cands.filter fun c => decide c.Fits)

/-- The best match so far after the best match of one more list: the earlier list wins a
tie. -/
def advance (b : Option Candidate) : Option Candidate → Option Candidate
  | none => b
  | some r => if ∀ d ∈ b, rank d < rank r then some r else b

/-- The search that the comment describes. -/
def documented : List CandidateList → Option Candidate → Nat → Nat
  | [], _, mpFlags => mpFlags
  | l :: rest, b, mpFlags =>
    match bestFit l.cands with
    | none => documented rest b mpFlags
    | some r =>
      if ∀ d ∈ b, rank d < rank r then documented rest (some r) l.mpFlags
      else documented rest b mpFlags

/-- `c` in the list `l` is the best match, and in the first of the lists with such. -/
structure IsBest (pre : List CandidateList) (l : CandidateList) (post : List CandidateList)
    (c : Candidate) : Prop where
  mem : c ∈ l.cands
  fits : c.Fits
  before : ∀ m ∈ pre, ∀ d ∈ m.cands, d.Fits → rank d < rank c
  here : ∀ d ∈ l.cands, d.Fits → rank d ≤ rank c
  after : ∀ m ∈ post, ∀ d ∈ m.cands, d.Fits → rank d ≤ rank c

/-- The flags are those of the best match, by the documented rank. -/
structure Specific (ls : List CandidateList) (mpFlags result : Nat) : Prop where
  best : ∀ pre l post c, ls = pre ++ l :: post → IsBest pre l post c → result = l.mpFlags
  default : (∀ l ∈ ls, ∀ c ∈ l.cands, ¬ c.Fits) → result = mpFlags

/-! ### The documented search -/

variable {cands : List Candidate}

theorem bestFit_eq_none_iff :
    bestFit cands = none ↔ ∀ c ∈ cands, ¬ c.Fits := by
  rw [bestFit, keepBest_eq_none_iff, filter_eq_nil_iff]
  simp

theorem mem_of_bestFit {r : Candidate} (h : bestFit cands = some r) :
    r ∈ cands ∧ r.Fits := by
  have := mem_of_keepBest h
  simpa using this

theorem rank_le_bestFit {r : Candidate} (h : bestFit cands = some r) :
    ∀ c ∈ cands, c.Fits → rank c ≤ rank r := by
  intro c hc hf
  exact above_ranked.rank_le h c (by simp [hc, hf])

theorem documented_of_le {ls : List CandidateList} {b : Candidate} :
    (∀ l ∈ ls, ∀ c ∈ l.cands, c.Fits → rank c ≤ rank b) → ∀ mpFlags,
      documented ls (some b) mpFlags = mpFlags := by
  induction ls with
  | nil => intro _ _; rfl
  | cons l rest ih =>
    intro hle mpFlags
    have ih := ih fun m hm => hle m (mem_cons_of_mem l hm)
    rw [documented]
    cases hr : bestFit l.cands with
    | none => exact ih mpFlags
    | some r =>
      obtain ⟨hmem, hfits⟩ := mem_of_bestFit hr
      have hnot : ¬ ∀ d ∈ some b, rank d < rank r := by
        intro h
        exact absurd (h b rfl) (not_lt_of_ge (hle l mem_cons_self r hmem hfits))
      simp only [if_neg hnot]
      exact ih mpFlags

theorem documented_of_isBest {pre : List CandidateList} {l : CandidateList}
    {post : List CandidateList} {c : Candidate} (hc : IsBest pre l post c) :
    ∀ (b : Option Candidate) (mpFlags : Nat), (∀ d ∈ b, rank d < rank c) →
      documented (pre ++ l :: post) b mpFlags = l.mpFlags := by
  obtain ⟨hmem, hfits, hbefore, hhere, hafter⟩ := hc
  induction pre with
  | nil =>
    intro b mpFlags hb
    rw [nil_append, documented]
    cases hr : bestFit l.cands with
    | none => exact absurd hfits (bestFit_eq_none_iff.mp hr c hmem)
    | some r =>
      have hcr := rank_le_bestFit hr c hmem hfits
      simp only [if_pos fun d hd => (hb d hd).trans_le hcr]
      exact documented_of_le (fun m hm d hd hf => (hafter m hm d hd hf).trans hcr) l.mpFlags
  | cons m pre ih =>
    intro b mpFlags hb
    have ih := ih fun m' hm' => hbefore m' (mem_cons_of_mem m hm')
    rw [cons_append, documented]
    cases hr : bestFit m.cands with
    | none => exact ih b mpFlags hb
    | some r =>
      obtain ⟨hrm, hrf⟩ := mem_of_bestFit hr
      have hrc := hbefore m mem_cons_self r hrm hrf
      simp only
      split
      · refine ih (some r) m.mpFlags fun d hd => ?_
        rw [← Option.mem_some_iff.mp hd]
        exact hrc
      · exact ih b mpFlags hb

theorem documented_of_none {ls : List CandidateList} (b : Option Candidate) (mpFlags : Nat) :
    (∀ l ∈ ls, ∀ c ∈ l.cands, ¬ c.Fits) → documented ls b mpFlags = mpFlags := by
  induction ls with
  | nil => intro _; rfl
  | cons l rest ih =>
    intro hno
    rw [documented, bestFit_eq_none_iff.mpr (hno l mem_cons_self)]
    exact ih fun m hm => hno m (mem_cons_of_mem l hm)

theorem documented_specific (ls : List CandidateList) (mpFlags : Nat) :
    Specific ls mpFlags (documented ls none mpFlags) where
  best := by
    rintro pre l post c rfl hc
    exact documented_of_isBest hc none mpFlags (by simp)
  default := documented_of_none none mpFlags

/-! ### Where the code follows the rank -/

/-- What a list is asked with when `b` is the best so far. -/
def holding : Option Candidate → PathMatch
  | none => noMatch
  | some b => adopt b.taken

def startOf (best : PathMatch) : ListMatch := ⟨0, best.level, best.flags, best.wildc, none⟩

/-- The best of the matches that a scan from `s` can see. -/
def bestSeen (s : ListMatch) (cands : List Candidate) : Option Candidate :=
  keepBest above (cands.filter fun c => decide (c.Fits ∧ Visible c s))

/-- In the scan of a list, after `pre`, each comparison goes by the rank, and where the
scan stops nothing better follows. -/
def ListAgrees (s : ListMatch) : List Candidate → List Candidate → Prop
  | _, [] => True
  | pre, c :: post =>
    (c.Fits → Visible c s →
      (∀ d ∈ bestSeen s pre, (Visible c d.taken ∧ d.len < c.len) ↔ rank d < rank c) ∧
      (c.Stops → bestSeen s (pre ++ [c]) = some c → bestSeen s (pre ++ c :: post) = some c)) ∧
    ListAgrees s (pre ++ [c]) post

/-- Every list shows what is better than the best so far, its scan goes by the rank, and so
does the comparison of its result. -/
def StepsAgree : List CandidateList → Option Candidate → Prop
  | [], _ => True
  | l :: rest, b =>
    (∀ c ∈ l.cands, c.Fits → (∀ d ∈ b, rank d < rank c) → Visible c (startOf (holding b))) ∧
    ListAgrees (startOf (holding b)) [] l.cands ∧
    (∀ r ∈ bestSeen (startOf (holding b)) l.cands,
      overrules r.taken (holding b) = true ↔ ∀ d ∈ b, rank d < rank r) ∧
    StepsAgree rest (advance b (bestFit l.cands))

instance decidableListAgrees (s : ListMatch) :
    ∀ pre post : List Candidate, Decidable (ListAgrees s pre post)
  | _, [] => isTrue trivial
  | pre, c :: post =>
    have := decidableListAgrees s (pre ++ [c]) post
    inferInstanceAs (Decidable ((_ → _ → (∀ d ∈ bestSeen s pre, _) ∧ (_ → _ → _)) ∧ _))

instance decidableStepsAgree : ∀ (ls : List CandidateList) (b : Option Candidate),
    Decidable (StepsAgree ls b)
  | [], _ => isTrue trivial
  | l :: rest, b =>
    have := decidableStepsAgree rest (advance b (bestFit l.cands))
    inferInstanceAs (Decidable ((∀ c ∈ l.cands, _) ∧ _ ∧ (∀ r ∈ bestSeen _ l.cands, _) ∧ _))

variable {s : ListMatch}

theorem mem_of_bestSeen {r : Candidate}
    (h : bestSeen s cands = some r) : r ∈ cands ∧ r.Fits ∧ Visible r s := by
  have := mem_of_keepBest h
  simpa using this

theorem bestSeen_concat {pre : List Candidate} {c : Candidate}
    (hfits : c.Fits) (hvis : Visible c s) :
    bestSeen s (pre ++ [c]) = step above (bestSeen s pre) c := by
  rw [bestSeen, filter_append, bestSeen]
  have : [c].filter (fun c => decide (c.Fits ∧ Visible c s)) = [c] := by simp [hfits, hvis]
  rw [this, keepBest_concat]

theorem bestSeen_concat_of_not {pre : List Candidate} {c : Candidate}
    (h : ¬ (c.Fits ∧ Visible c s)) : bestSeen s (pre ++ [c]) = bestSeen s pre := by
  rw [bestSeen, filter_append, bestSeen]
  have : [c].filter (fun c => decide (c.Fits ∧ Visible c s)) = [] := by simpa using h
  rw [this, append_nil]

/-- The state of the scan when `o` is the best it has seen. -/
def stateOf (s : ListMatch) : Option Candidate → ListMatch
  | none => s
  | some d => d.taken

theorem not_visible_stateOf {c : Candidate} {o : Option Candidate}
    (ho : ∀ d ∈ o, Visible d s) (hc : ¬ Visible c s) : ¬ Visible c (stateOf s o) := by
  cases o with
  | none => exact hc
  | some d =>
    obtain ⟨hlevel, hexact⟩ := ho d rfl
    rintro ⟨hl, he⟩
    exact hc ⟨hl.trans hlevel, fun h => he (hexact h)⟩

/-- **A scan whose comparisons go by the rank ends with the best match it can see.** -/
theorem scan_of_agrees (hs : s.matchLen = 0) {post : List Candidate} :
    ∀ pre : List Candidate, (∀ c ∈ post, c.Single) → ListAgrees s pre post →
      scan post (stateOf s (bestSeen s pre)) = stateOf s (bestSeen s (pre ++ post)) := by
  induction post with
  | nil => intro pre _ _; rw [append_nil, scan]
  | cons c post ih =>
    intro pre hsingle hagree
    obtain ⟨hstep, hrest⟩ := hagree
    have hc := hsingle c mem_cons_self
    have ih := ih (pre ++ [c]) (fun d hd => hsingle d (mem_cons_of_mem c hd)) hrest
    rw [append_assoc, singleton_append] at ih
    have hseen : ∀ d ∈ bestSeen s pre, Visible d s := fun d hd => (mem_of_bestSeen hd).2.2
    by_cases hvis : Visible c s
    · by_cases hfits : c.Fits
      · obtain ⟨hcmp, hstop⟩ := hstep hfits hvis
        have hconcat : bestSeen s (pre ++ [c]) = step above (bestSeen s pre) c :=
          bestSeen_concat hfits hvis
        -- the scan takes `c` when it is the best seen so far
        have htake : Visible c (stateOf s (bestSeen s pre)) →
            (stateOf s (bestSeen s pre)).matchLen < c.len → bestSeen s (pre ++ [c]) = some c →
            scan (c :: post) (stateOf s (bestSeen s pre)) =
              stateOf s (bestSeen s (pre ++ c :: post)) := by
          intro hv hl hbest
          rw [scan_cons_of_lt hv hl]
          split
          · rename_i hst
            rw [hstop hst hbest, stateOf]
          · rw [hbest, stateOf] at ih
            exact ih
        cases hb : bestSeen s pre with
        | none =>
          rw [hb] at htake hconcat
          exact htake hvis (hs ▸ Candidate.len_pos_iff.mpr hfits) hconcat
        | some d =>
          rw [hb] at htake hconcat
          have hcmp := hcmp d hb
          by_cases hlt : rank d < rank c
          · obtain ⟨hv, hl⟩ := hcmp.mpr hlt
            rw [step, above_ranked.above hlt, if_pos rfl] at hconcat
            exact htake hv hl hconcat
          have hkeep : bestSeen s (pre ++ [c]) = some d := by
            rw [hconcat, step, above, decide_eq_false hlt]
            rfl
          rw [hkeep] at ih
          by_cases hv : Visible c d.taken
          · have hle : c.len ≤ d.taken.matchLen :=
              not_lt.mp fun hl => hlt (hcmp.mp ⟨hv, hl⟩)
            rw [stateOf, scan_cons_of_le hc hle]
            exact ih
          · rw [stateOf, scan_cons_of_not_visible hv]
            exact ih
      · have hle : c.len ≤ (stateOf s (bestSeen s pre)).matchLen := by
          rw [Nat.eq_zero_of_not_pos (mt Candidate.len_pos_iff.mp hfits)]
          exact Nat.zero_le _
        rw [scan_cons_of_le hc hle, ← ih, bestSeen_concat_of_not (fun h => hfits h.1)]
    · rw [scan_cons_of_not_visible (not_visible_stateOf hseen hvis), ← ih,
        bestSeen_concat_of_not (fun h => hvis h.2)]

theorem bestSeen_of_bestFit {r : Candidate}
    (hr : bestFit cands = some r) (hvis : Visible r s) : bestSeen s cands = some r := by
  have h := above_ranked.keepBest_filter_of_keepBest (fun hab => of_decide_eq_true hab)
    (fun c => decide (Visible c s)) hr (decide_eq_true hvis)
  rw [filter_filter] at h
  rw [bestSeen, ← h]
  congr 2
  funext c
  simp [Bool.and_comm]

theorem not_overrules_startOf (best : PathMatch) : overrules (startOf best) best = false := by
  unfold overrules startOf
  cases best.flags.exact <;> cases best.flags.aux <;> simp

theorem askLists_eq_documented {ls : List CandidateList} :
    ∀ (b : Option Candidate) (mpFlags : Nat), (∀ l ∈ ls, ∀ c ∈ l.cands, c.Single) →
      StepsAgree ls b → askLists ls (holding b) mpFlags = documented ls b mpFlags := by
  induction ls with
  | nil => intro _ _ _ _; rfl
  | cons l rest ih =>
    intro b mpFlags hsingle ⟨hshown, hagree, hcross, hrest⟩
    have ih := fun b mpFlags => ih b mpFlags fun m hm => hsingle m (mem_cons_of_mem l hm)
    have hscan : scan l.cands (startOf (holding b)) =
        stateOf (startOf (holding b)) (bestSeen (startOf (holding b)) l.cands) :=
      scan_of_agrees rfl [] (hsingle l mem_cons_self) hagree
    have hask : askList l.cands (holding b) =
        if overrules (scan l.cands (startOf (holding b))) (holding b) = true then
          some (adopt (scan l.cands (startOf (holding b)))) else none := rfl
    rw [askLists, hask, documented, hscan]
    -- the best match of the list is shown if it is ranked above what is held
    have hseen : ∀ r, bestFit l.cands = some r → (∀ d ∈ b, rank d < rank r) →
        bestSeen (startOf (holding b)) l.cands = some r := by
      intro r hr hab
      obtain ⟨hmem, hfits⟩ := mem_of_bestFit hr
      exact bestSeen_of_bestFit hr (hshown r hmem hfits hab)
    by_cases hover : ∃ r, bestFit l.cands = some r ∧ ∀ d ∈ b, rank d < rank r
    · obtain ⟨r, hr, hab⟩ := hover
      have hs := hseen r hr hab
      rw [hs, hr]
      simp only [stateOf, (hcross r hs).mpr hab, if_true, if_pos hab]
      rw [hr, advance, if_pos hab] at hrest
      exact ih (some r) l.mpFlags hrest
    · have hadvance : advance b (bestFit l.cands) = b := by
        cases hr : bestFit l.cands with
        | none => rfl
        | some r => rw [advance, if_neg fun hab => hover ⟨r, hr, hab⟩]
      rw [hadvance] at hrest
      have hnot : overrules (stateOf (startOf (holding b))
          (bestSeen (startOf (holding b)) l.cands)) (holding b) = false := by
        cases hs : bestSeen (startOf (holding b)) l.cands with
        | none => exact not_overrules_startOf _
        | some r' =>
          rw [stateOf, ← Bool.not_eq_true, hcross r' hs]
          intro hab
          obtain ⟨hmem, hfits, _⟩ := mem_of_bestSeen hs
          cases hr : bestFit l.cands with
          | none => exact bestFit_eq_none_iff.mp hr r' hmem hfits
          | some r =>
            refine hover ⟨r, hr, fun d hd => ?_⟩
            exact (hab d hd).trans_le (rank_le_bestFit hr r' hmem hfits)
      simp only [hnot, Bool.false_eq_true, if_false]
      rw [ih b mpFlags hrest]
      cases hr : bestFit l.cands with
      | none => rfl
      | some r => simp only [if_neg fun hab => hover ⟨r, hr, hab⟩]

def closedAndOpen (closed opened : List WChar) : PathLists where
  normal := []
  opened := [create id opened false 0]
  closed := [create id closed false 3]
  read := []
  write := []

end Sandboxie.MatchPath
