import Sandboxie.Plus.SettingsHistory

/-!
# The history follows the store

`Ordered` says that the mutex of the history keeps the commits in the order of their
snapshots, whatever the threads do.  `Fresh` says that a change of the settings is committed
or about to be, in a run whose calls all go on to a commit when they change something.
-/

namespace Sandboxie.History

open List

variable {V : Type} {encodedSize : Store V → Nat} {s s' : State V} {t : Nat}

/-! ### Calls that are recorded -/

/-- The key goes when the text is removed. -/
def Removes (key : QString) (k : Key) : Prop := ∀ k', keyOf key = some k' → k.isUnder k' = true

/-- What looks like a hidden key is one, and a key that is removed has a value of its own when
anything that can be seen goes with it. -/
def Call.Recorded (s : Store V) : Call V → Prop
  | setValue key _ =>
    (text "History/").isPrefixOf key = true → ∀ k, keyOf key = some k → k.isHidden = true
  | delValue key =>
    (∃ k, k.isHidden = false ∧ s.value k ≠ none ∧ Removes key k) →
      (text "History/").isPrefixOf key = false ∧ ∃ k, keyOf key = some k ∧ s.value k ≠ none

theorem exists_value_ne {a b : Store V} (h : a.snapshotValues ≠ b.snapshotValues) :
    ∃ k, k.isHidden = false ∧ a.value k ≠ b.value k := by
  by_contra hnone
  push Not at hnone
  refine h (SortedMap.ext fun k => ?_)
  rw [Store.value_snapshotValues, Store.value_snapshotValues]
  by_cases hhidden : k.isHidden = true
  · rw [if_pos hhidden, if_pos hhidden]
  · rw [if_neg hhidden, if_neg hhidden, hnone k (Bool.not_eq_true _ ▸ hhidden)]

theorem records_of_change [DecidableEq V] {c : Call V} {store : Store V}
    (hrecorded : c.Recorded store)
    (hchange : (c.write store).snapshotValues ≠ store.snapshotValues) :
    c.records store = true := by
  obtain ⟨k, hvisible, hne⟩ := exists_value_ne hchange
  unfold Call.records
  cases c with
  | setValue key value =>
    rw [Call.write] at hne
    cases hkey : keyOf key with
    | none =>
      rw [hkey] at hne
      exact absurd rfl hne
    | some k' =>
      rw [hkey] at hne
      simp only [SortedMap.value_insert] at hne
      split_ifs at hne with hsame
      · subst hsame
        have hnil : key ≠ [] := by
          rintro rfl
          cases hkey
        have hshown : (text "History/").isPrefixOf key = false := by
          by_contra hpart
          rw [Bool.not_eq_false] at hpart
          have hhidden := hrecorded hpart k hkey
          rw [hvisible] at hhidden
          exact Bool.noConfusion hhidden
        have hbefore : (Call.setValue key value).before store ≠
            (Call.setValue key value).after := by
          show (keyOf key).bind store.value ≠ some value
          rw [hkey]
          exact fun heq => hne heq.symm
        simp only [Call.key, hnil, hshown, hbefore, ne_eq, not_false_eq_true, decide_true,
          Bool.not_false, Bool.and_self]
      · exact absurd rfl hne
  | delValue key =>
    have hgone : store.value k ≠ none ∧ Removes key k := by
      rw [Call.write] at hne
      cases hkey : keyOf key with
      | none =>
        rw [hkey] at hne
        exact ⟨Ne.symm hne, fun k' hk' => by rw [hkey] at hk'; cases hk'⟩
      | some k' =>
        rw [hkey] at hne
        simp only [Store.value_remove] at hne
        split_ifs at hne with hunder
        · refine ⟨Ne.symm hne, fun k'' hk'' => ?_⟩
          obtain rfl := Option.some.inj (hkey.symm.trans hk'')
          exact hunder
        · exact absurd rfl hne
    obtain ⟨hshown, k', hkey, hvalue⟩ := hrecorded ⟨k, hvisible, hgone.1, hgone.2⟩
    have hnil : key ≠ [] := by
      rintro rfl
      cases hkey
    have hbefore : (Call.delValue key : Call V).before store ≠ (Call.delValue key).after := by
      show (keyOf key).bind store.value ≠ none
      rw [hkey]
      exact hvalue
    simp only [Call.key, hnil, hshown, hbefore, ne_eq, not_false_eq_true, decide_true,
      Bool.not_false, Bool.and_self]

/-! ### Phases after a step -/

@[simp] theorem phase_setPhase_self (s : State V) (t : Nat) (p : Phase V) :
    (s.setPhase t p).phase t = p := by
  show Function.update s.phase t p t = p
  exact Function.update_self ..

theorem phase_setPhase_of_ne (s : State V) {t t' : Nat} (p : Phase V) (h : t' ≠ t) :
    (s.setPhase t p).phase t' = s.phase t' := by
  show Function.update s.phase t p t' = s.phase t'
  exact Function.update_of_ne h ..

def Phase.Holds : Phase V → Prop
  | holding _ => True
  | snapped _ _ _ => True
  | _ => False

theorem phase_commitStep_self (t : Nat) (why : Why V) (commit : Option (Commit V)) (ok : Bool)
    (s : State V) : (commitStep t why commit ok s).phase t =
      match why, ok with
      | .checkpoint r target, true => .applying r target
      | _, _ => .idle := by
  cases why <;> cases ok <;> exact phase_setPhase_self _ t _

theorem commitStep_fields (t : Nat) (why : Why V) (commit : Option (Commit V)) (ok : Bool)
    (s : State V) :
    (commitStep t why commit ok s).store = s.store ∧
    (commitStep t why commit ok s).owner = none ∧
    (commitStep t why commit ok s).commits = s.commits ++ commit.toList ∧
    (commitStep t why commit ok s).now = s.now ∧
    (commitStep t why commit ok s).lastChange = s.lastChange ∧
    (∀ t', t' ≠ t → (commitStep t why commit ok s).phase t' = s.phase t') ∧
    ¬ ((commitStep t why commit ok s).phase t).Holds := by
  rw [phase_commitStep_self]
  cases why <;> cases ok <;>
    exact ⟨rfl, rfl, rfl, rfl, rfl, fun t' h => phase_setPhase_of_ne _ _ h, by simp [Phase.Holds]⟩

/-! ### The order of the commits -/

/-- The mutex has one thread, and commits are in the order of their snapshots. -/
structure Ordered (s : State V) : Prop where
  owner : ∀ t, (s.phase t).Holds → s.owner = some t
  commit_le : ∀ c ∈ s.commits, c.time ≤ s.now
  sorted : s.commits.Pairwise fun c c' => c.time ≤ c'.time
  snapped : ∀ t why time values, s.phase t = .snapped why time values →
    time ≤ s.now ∧ ∀ c ∈ s.commits, c.time ≤ time

theorem Ordered.congr (h : Ordered s) (howner : s'.owner = s.owner)
    (hcommits : s'.commits = s.commits) (hnow : s.now ≤ s'.now)
    (hphase : ∀ t', s'.phase t' = s.phase t' ∨ ¬ (s'.phase t').Holds) : Ordered s' := by
  have hsame : ∀ {t'}, (s'.phase t').Holds → s'.phase t' = s.phase t' :=
    fun {t'} hholds => (hphase t').resolve_right (not_not.mpr hholds)
  refine ⟨?_, ?_, ?_, ?_⟩
  · intro t' hholds
    rw [howner]
    exact h.owner t' (hsame hholds ▸ hholds)
  · intro c hc
    rw [hcommits] at hc
    exact (h.commit_le c hc).trans hnow
  · rw [hcommits]
    exact h.sorted
  · intro t' why time values hsnapped
    rw [hcommits]
    have hholds : (s'.phase t').Holds := by rw [hsnapped]; trivial
    have hfacts := h.snapped t' why time values (hsame hholds ▸ hsnapped)
    exact ⟨hfacts.1.trans hnow, hfacts.2⟩

theorem phase_or {p : Phase V} (hp : ¬ p.Holds) (t' : Nat) :
    (s.setPhase t p).phase t' = s.phase t' ∨ ¬ ((s.setPhase t p).phase t').Holds := by
  by_cases heq : t' = t
  · subst heq
    rw [phase_setPhase_self]
    exact .inr hp
  · exact .inl (phase_setPhase_of_ne s p heq)

theorem ordered_step [DecidableEq V] {a : Action V} (h : Ordered s)
    (hstep : Step encodedSize s t a s') :
    Ordered s' := by
  cases hstep with
  | call c hphase => exact h.congr rfl rfl le_rfl (phase_or not_false)
  | restore id hphase => exact h.congr rfl rfl le_rfl (phase_or not_false)
  | store c hphase =>
    refine h.congr rfl rfl (Nat.le_succ _) fun t' => ?_
    refine @phase_or V (s.write (c.write s.store)) t _ ?_ t'
    split_ifs <;> exact not_false
  | read r commit hphase howner hcommit hfits => exact h.congr rfl rfl le_rfl (phase_or not_false)
  | unread r available hphase howner =>
    exact h.congr rfl rfl le_rfl (@phase_or V s t .idle not_false)
  | lock why hphase howner =>
    have hnone : ∀ t', ¬ (s.phase t').Holds := fun t' hholds => by
      have hsome := h.owner t' hholds
      rw [howner] at hsome
      cases hsome
    refine ⟨?_, h.commit_le, h.sorted, ?_⟩
    · intro t' hholds
      by_cases heq : t' = t
      · rw [heq]
      · have hsame : (s.setPhase t (.holding why)).phase t' = s.phase t' :=
          phase_setPhase_of_ne s _ heq
        exact absurd (hsame ▸ hholds) (hnone t')
    · intro t' why' time values hsnapped
      by_cases heq : t' = t
      · subst heq
        have hself : (s.setPhase t' (.holding why)).phase t' = .holding why :=
          phase_setPhase_self s t' _
        cases hself.symm.trans hsnapped
      · have hsame : (s.setPhase t (.holding why)).phase t' = s.phase t' :=
          phase_setPhase_of_ne s _ heq
        have hholds : (s.phase t').Holds := by
          rw [hsame.symm.trans hsnapped]
          trivial
        exact absurd hholds (hnone t')
  | snapshot why hphase =>
    have howner : s.owner = some t := h.owner t (by rw [hphase]; trivial)
    refine ⟨?_, h.commit_le, h.sorted, ?_⟩
    · intro t' hholds
      by_cases heq : t' = t
      · rw [heq]
        exact howner
      · rw [phase_setPhase_of_ne s _ heq] at hholds
        exact h.owner t' hholds
    · intro t' why' time values hsnapped
      by_cases heq : t' = t
      · subst heq
        rw [phase_setPhase_self] at hsnapped
        injection hsnapped with _ htime _
        rw [← htime]
        exact ⟨le_rfl, h.commit_le⟩
      · rw [phase_setPhase_of_ne s _ heq] at hsnapped
        exact h.snapped t' why' time values hsnapped
  | commit why time values git hphase =>
    obtain ⟨-, howner, hcommits, hnow, -, hothers, hself⟩ := commitStep_fields t why
      (if fits encodedSize values = true ∧ git ≠ .failed then
        some { time := time, values := values } else none)
      (fits encodedSize values && git = .ok) s
    have hmutex : s.owner = some t := h.owner t (by rw [hphase]; trivial)
    have htime := h.snapped t why time values hphase
    have hnone : ∀ t', t' ≠ t → ¬ (s.phase t').Holds := by
      intro t' hne hholds
      exact hne (Option.some.inj ((h.owner t' hholds).symm.trans hmutex))
    have hfree : ∀ t', ¬ ((commitStep t why
        (if fits encodedSize values = true ∧ git ≠ .failed then
          some { time := time, values := values } else none)
        (fits encodedSize values && git = .ok) s).phase t').Holds := by
      intro t' hholds
      by_cases heq : t' = t
      · exact hself (heq ▸ hholds)
      · rw [hothers t' heq] at hholds
        exact hnone t' heq hholds
    refine ⟨fun t' hholds => absurd hholds (hfree t'), ?_, ?_, ?_⟩
    · intro c hc
      rw [hcommits] at hc
      rw [hnow]
      rcases mem_append.mp hc with hc | hc
      · exact h.commit_le c hc
      · split_ifs at hc with hwritten
        · rw [mem_singleton.mp hc]
          exact htime.1
        · exact absurd hc not_mem_nil
    · rw [hcommits]
      split_ifs with hwritten
      · refine pairwise_append.mpr ⟨h.sorted, pairwise_singleton _ _, ?_⟩
        intro c hc c' hc'
        rw [mem_singleton.mp hc']
        exact htime.2 c hc
      · show (s.commits ++ []).Pairwise _
        rw [append_nil]
        exact h.sorted
    · intro t' why' time' values' hsnapped
      exact absurd (by rw [hsnapped]; trivial) (hfree t')
  | apply r target noError hphase =>
    simp only
    split_ifs
    · refine h.congr rfl rfl (Nat.le_succ _) fun t' => ?_
      exact @phase_or V (s.write (Store.applySnapshot target s.store)) t
        (.waiting (.followUp { r with writes := r.writes + 1 } target)) not_false t'
    · refine h.congr rfl rfl (Nat.le_succ _) fun t' => ?_
      exact @phase_or V (s.write (Store.applySnapshot target s.store)) t .idle not_false t'

/-! ### Every change is committed -/

/-- The thread is about to commit what it changed. -/
inductive Phase.Pending (since : Nat) : Phase V → Prop
  | waiting : Pending since (.waiting .record)
  | holding : Pending since (.holding .record)
  | snapped (time : Nat) (values : Store V) (h : since ≤ time) :
      Pending since (.snapped .record time values)

/-- What was snapped since the last change is what can be seen, and if anything was changed
then it is committed or a thread is about to. -/
structure Fresh (s : State V) : Prop where
  change_le : s.lastChange ≤ s.now
  commits : 0 < s.lastChange → ∀ c ∈ s.commits, s.lastChange ≤ c.time → c.values = s.visible
  snapped : 0 < s.lastChange → ∀ t why time values, s.phase t = .snapped why time values →
    s.lastChange ≤ time → values = s.visible
  pending : 0 < s.lastChange →
    (∃ c ∈ s.commits, s.lastChange ≤ c.time) ∨ ∃ t, (s.phase t).Pending s.lastChange

/-- A call that changes what can be seen is recorded, the settings fit a snapshot and Git
succeeds, and no revision is applied. -/
def Meets [DecidableEq V] (encodedSize : Store V → Nat) (s : State V) (t : Nat) :
    Action V → Prop
  | .store => ∀ c, s.phase t = .storing c → c.Recorded s.store
  | .commit git => git = .ok ∧
      ∀ why time values, s.phase t = .snapped why time values → fits encodedSize values = true
  | .apply _ => False
  | _ => True

theorem Fresh.congr (h : Fresh s) (hstore : s'.store = s.store)
    (hchange : s'.lastChange = s.lastChange) (hnow : s'.now = s.now)
    (hcommits : s'.commits = s.commits) (hphase : ∀ t', t' ≠ t → s'.phase t' = s.phase t')
    (hsnapped : ∀ why time values, s'.phase t = .snapped why time values → values = s.visible)
    (hpending : (s.phase t).Pending s.lastChange → (s'.phase t).Pending s.lastChange) :
    Fresh s' := by
  have hvisible : s'.visible = s.visible := by rw [State.visible, hstore]
  refine ⟨?_, ?_, ?_, ?_⟩
  · rw [hchange, hnow]
    exact h.change_le
  · rw [hchange, hcommits, hvisible]
    exact h.commits
  · rw [hchange, hvisible]
    intro hpos t' why time values hphase' htime
    by_cases heq : t' = t
    · exact hsnapped why time values (heq ▸ hphase')
    · exact h.snapped hpos t' why time values (hphase t' heq ▸ hphase') htime
  · rw [hchange, hcommits]
    intro hpos
    refine (h.pending hpos).imp_right ?_
    rintro ⟨t', ht'⟩
    by_cases heq : t' = t
    · exact ⟨t, hpending (heq ▸ ht')⟩
    · exact ⟨t', (hphase t' heq).symm ▸ ht'⟩

theorem Fresh.setPhase (h : Fresh s) {phase : Phase V}
    (hsnapped : ∀ why time values, phase ≠ .snapped why time values)
    (hpending : ¬ (s.phase t).Pending s.lastChange) : Fresh (s.setPhase t phase) := by
  refine h.congr rfl rfl rfl rfl (fun t' => phase_setPhase_of_ne s _) ?_ fun h => absurd h hpending
  intro why time values heq
  rw [phase_setPhase_self] at heq
  exact absurd heq (hsnapped why time values)

theorem Fresh.write_same [DecidableEq V] (h : Fresh s) {store : Store V}
    (hsame : store.snapshotValues = s.visible) : Fresh (s.write store) := by
  have hchange : (s.write store).lastChange = s.lastChange := if_pos hsame
  have hvisible : (s.write store).visible = s.visible := hsame
  refine ⟨?_, ?_, ?_, ?_⟩
  · rw [hchange]
    exact h.change_le.trans (Nat.le_succ _)
  · rw [hchange, hvisible]
    exact h.commits
  · rw [hchange, hvisible]
    exact h.snapped
  · rw [hchange]
    exact h.pending

theorem Fresh.write_change [DecidableEq V] (hordered : Ordered s) {store : Store V}
    (hdiffer : store.snapshotValues ≠ s.visible) :
    Fresh ((s.write store).setPhase t (.waiting .record)) := by
  have hchange : (s.write store).lastChange = s.now + 1 := if_neg hdiffer
  refine ⟨?_, ?_, ?_, ?_⟩
  · show (s.write store).lastChange ≤ s.now + 1
    rw [hchange]
  · intro _ c hc htime
    have htime : (s.write store).lastChange ≤ c.time := htime
    have hle := hordered.commit_le c hc
    omega
  · intro _ t' why time values hphase htime
    have htime : (s.write store).lastChange ≤ time := htime
    by_cases heq : t' = t
    · subst heq
      rw [phase_setPhase_self] at hphase
      exact nomatch hphase
    · have hsame : ((s.write store).setPhase t (.waiting .record)).phase t' = s.phase t' :=
        phase_setPhase_of_ne (s.write store) _ heq
      have hle := (hordered.snapped t' why time values (hsame ▸ hphase)).1
      omega
  · intro _
    refine .inr ⟨t, ?_⟩
    rw [phase_setPhase_self]
    exact .waiting

theorem fresh_step [DecidableEq V] {a : Action V} (h : Fresh s) (hordered : Ordered s)
    (hmeets : Meets encodedSize s t a) (hstep : Step encodedSize s t a s') : Fresh s' := by
  cases hstep with
  | call c hphase =>
    refine h.setPhase (fun _ _ _ h => by cases h) fun hpending => ?_
    rw [hphase] at hpending
    cases hpending
  | restore id hphase =>
    refine h.setPhase (fun _ _ _ h => by cases h) fun hpending => ?_
    rw [hphase] at hpending
    cases hpending
  | store c hphase =>
    by_cases hsame : (c.write s.store).snapshotValues = s.visible
    · refine (h.write_same hsame).congr rfl rfl rfl rfl
        (fun t' => phase_setPhase_of_ne (s.write (c.write s.store)) _) ?_ ?_
      · intro why time values hsnapped
        rw [phase_setPhase_self] at hsnapped
        split_ifs at hsnapped
      · intro hpending
        have hpending : (s.phase t).Pending _ := hpending
        rw [hphase] at hpending
        cases hpending
    · rw [if_pos (records_of_change (hmeets c hphase) hsame)]
      exact Fresh.write_change hordered hsame
  | read r commit hphase howner hcommit hfits =>
    refine h.setPhase (fun _ _ _ h => by cases h) fun hpending => ?_
    rw [hphase] at hpending
    cases hpending
  | unread r available hphase howner =>
    refine h.congr rfl rfl rfl rfl (fun t' => phase_setPhase_of_ne s .idle) ?_ ?_
    · intro why time values hsnapped
      have hself : (s.return' t false r).phase t = .idle := phase_setPhase_self s t .idle
      cases hself.symm.trans hsnapped
    · intro hpending
      rw [hphase] at hpending
      cases hpending
  | lock why hphase howner =>
    have hself : (s.setPhase t (.holding why)).phase t = .holding why := phase_setPhase_self s t _
    refine h.congr rfl rfl rfl rfl (fun t' => phase_setPhase_of_ne s (.holding why)) ?_ ?_
    · intro why' time values hsnapped
      cases hself.symm.trans hsnapped
    · intro hpending
      show ((s.setPhase t (.holding why)).phase t).Pending _
      rw [hself]
      rw [hphase] at hpending
      cases hpending
      exact .holding
  | snapshot why hphase =>
    refine h.congr rfl rfl rfl rfl (fun t' => phase_setPhase_of_ne s _) ?_ ?_
    · intro why' time values hsnapped
      rw [phase_setPhase_self] at hsnapped
      injection hsnapped with _ _ hvalues
      exact hvalues.symm
    · intro hpending
      rw [phase_setPhase_self]
      rw [hphase] at hpending
      cases hpending
      exact .snapped _ _ h.change_le
  | commit why time values git hphase =>
    obtain ⟨rfl, hfits⟩ := hmeets
    have hfits := hfits why time values hphase
    rw [if_pos ⟨hfits, by decide⟩]
    obtain ⟨hstore, -, hcommits, hnow, hchange, hothers, hself⟩ := commitStep_fields t why
      (some { time := time, values := values }) (fits encodedSize values && Git.ok = .ok) s
    have hmutex : s.owner = some t := hordered.owner t (by rw [hphase]; trivial)
    have hsnap := hordered.snapped t why time values hphase
    generalize commitStep t why (some { time := time, values := values })
      (fits encodedSize values && Git.ok = .ok) s = s' at *
    have hvisible : s'.visible = s.visible := by rw [State.visible, hstore]
    have hcommits : s'.commits = s.commits ++ [{ time := time, values := values }] := hcommits
    refine ⟨?_, ?_, ?_, ?_⟩
    · rw [hchange, hnow]
      exact h.change_le
    · rw [hchange, hcommits, hvisible]
      intro hpos c hc htime
      rcases mem_append.mp hc with hc | hc
      · exact h.commits hpos c hc htime
      · rw [mem_singleton.mp hc] at htime ⊢
        exact h.snapped hpos t why time values hphase htime
    · rw [hchange, hvisible]
      intro hpos t' why' time' values' hsnapped htime
      by_cases heq : t' = t
      · subst heq
        rw [hsnapped] at hself
        exact absurd trivial hself
      · exact h.snapped hpos t' why' time' values' (hothers t' heq ▸ hsnapped) htime
    · rw [hchange, hcommits]
      intro hpos
      rcases h.pending hpos with ⟨c, hc, htime⟩ | ⟨t', hpending⟩
      · exact .inl ⟨c, mem_append_left _ hc, htime⟩
      · by_cases heq : t' = t
        · subst heq
          rw [hphase] at hpending
          cases hpending with
          | snapped _ _ htime =>
            exact .inl ⟨_, mem_append_right _ (mem_singleton_self _), htime⟩
        · exact .inr ⟨t', (hothers t' heq).symm ▸ hpending⟩
  | apply r target noError hphase => exact False.elim hmeets

/-! ### Runs -/

def State.initial (store : Store V) (revisions : List (Store V)) : State V :=
  { store := store, commits := revisions.map fun values => { time := 0, values := values } }

theorem ordered_initial (store : Store V) (revisions : List (Store V)) :
    Ordered (State.initial store revisions) := by
  have htime : ∀ c ∈ (State.initial store revisions).commits, c.time = 0 := by
    intro c hc
    obtain ⟨values, -, rfl⟩ := mem_map.mp hc
    rfl
  refine ⟨fun t h => h.elim, fun c hc => (htime c hc).le, ?_, fun t why time values h => nomatch h⟩
  refine pairwise_iff_forall_sublist.mpr fun {c c'} hsub => ?_
  rw [htime c (hsub.subset mem_cons_self)]
  exact Nat.zero_le _

theorem fresh_initial (store : Store V) (revisions : List (Store V)) :
    Fresh (State.initial store revisions) :=
  ⟨le_rfl, fun h => absurd h (lt_irrefl 0), fun h => absurd h (lt_irrefl 0),
    fun h => absurd h (lt_irrefl 0)⟩

def RunMeets [DecidableEq V] (encodedSize : Store V → Nat)
    (meets : State V → Nat → Action V → Prop) : State V → List (Nat × Action V) → Prop
  | _, [] => True
  | s, (t, a) :: rest =>
    meets s t a ∧ ∀ s', step encodedSize s t a = some s' → RunMeets encodedSize meets s' rest

theorem ordered_run [DecidableEq V] : ∀ (events : List (Nat × Action V)) {s s' : State V},
    Ordered s → run encodedSize s events = some s' → Ordered s' := by
  intro events
  induction events with
  | nil =>
    intro s s' h hrun
    exact Option.some.inj hrun ▸ h
  | cons e events ih =>
    intro s s' h hrun
    rw [run] at hrun
    cases hstep : step encodedSize s e.1 e.2 with
    | none =>
      rw [hstep] at hrun
      exact nomatch hrun
    | some s₁ =>
      rw [hstep] at hrun
      exact ih (ordered_step h (step_cases hstep)) hrun

theorem run_invariant [DecidableEq V] {I : State V → Prop}
    {meets : State V → Nat → Action V → Prop}
    (hkeeps : ∀ {s s' : State V} {t : Nat} {a : Action V}, I s → meets s t a →
      Step encodedSize s t a s' → I s') :
    ∀ (events : List (Nat × Action V)) {s s' : State V}, I s →
      RunMeets encodedSize meets s events → run encodedSize s events = some s' → I s' := by
  intro events
  induction events with
  | nil =>
    intro s s' h _ hrun
    exact Option.some.inj hrun ▸ h
  | cons e events ih =>
    intro s s' h hmeets hrun
    rw [run] at hrun
    cases hstep : step encodedSize s e.1 e.2 with
    | none =>
      rw [hstep] at hrun
      exact nomatch hrun
    | some s₁ =>
      rw [hstep] at hrun
      exact ih (hkeeps h hmeets.1 (step_cases hstep)) (hmeets.2 s₁ hstep) hrun

theorem newest_of_idle (hordered : Ordered s) (h : Fresh s) (hidle : ∀ t, s.phase t = .idle)
    (hchange : s.lastChange ≠ 0) : s.commits.getLast?.map Commit.values = some s.visible := by
  have hpos := Nat.pos_of_ne_zero hchange
  obtain ⟨c, hc, htime⟩ : ∃ c ∈ s.commits, s.lastChange ≤ c.time := by
    refine (h.pending hpos).resolve_right ?_
    rintro ⟨t, hpending⟩
    rw [hidle t] at hpending
    exact nomatch hpending
  obtain ⟨front, last, hlast⟩ := (eq_nil_or_concat' s.commits).resolve_left
    (ne_nil_of_mem hc)
  have hnewest : s.lastChange ≤ last.time := by
    rw [hlast] at hc
    rcases mem_append.mp hc with hfront | hself
    · have hsorted := hordered.sorted
      rw [hlast] at hsorted
      exact htime.trans ((pairwise_append.mp hsorted).2.2 c hfront last
        (mem_singleton_self _))
    · rw [mem_singleton.mp hself] at htime
      exact htime
  have hvalues := h.commits hpos last (by rw [hlast]; simp) hnewest
  rw [hlast, getLast?_concat, Option.map_some, hvalues]

/-- **The history follows the store.**  The snapshots are never committed out of their order;
and in a run whose steps meet the condition, once all calls have returned the newest commit
has what can be seen, if a call changed any of it. -/
theorem history_follows [DecidableEq V] (encodedSize : Store V → Nat) (store : Store V)
    (revisions : List (Store V)) (events : List (Nat × Action V)) (s : State V)
    (hrun : run encodedSize (State.initial store revisions) events = some s) :
    s.commits.Pairwise (fun c c' => c.time ≤ c'.time) ∧
    (RunMeets encodedSize (Meets encodedSize) (State.initial store revisions) events →
      (∀ t, s.phase t = .idle) → s.lastChange ≠ 0 →
        s.commits.getLast?.map Commit.values = some s.visible) := by
  have hordered := ordered_run events (ordered_initial store revisions) hrun
  refine ⟨hordered.sorted, fun hmeets hidle hchange => ?_⟩
  have hboth := run_invariant (I := fun s => Ordered s ∧ Fresh s)
    (fun h hmeets hstep => ⟨ordered_step h.1 hstep, fresh_step h.2 h.1 hmeets hstep⟩) events
    ⟨ordered_initial store revisions, fresh_initial store revisions⟩ hmeets hrun
  exact newest_of_idle hordered hboth.2 hidle hchange

def setAndRecord (t : Nat) (key : QString) (value : Nat) : List (Nat × Action Nat) :=
  [(t, .call (.setValue key value)), (t, .store), (t, .lock), (t, .snapshot), (t, .commit .ok)]

def noSize (_ : Store Nat) : Nat := 0

def recorded : State Nat :=
  (run noSize (State.initial SortedMap.empty []) (setAndRecord 0 (text "a") 1)).get rfl

theorem recorded_idle : ∀ t, recorded.phase t = .idle
  | 0 => rfl
  | _ + 1 => rfl

theorem meets_set : RunMeets noSize (Meets noSize) (State.initial SortedMap.empty [])
    (setAndRecord 0 (text "a") 1) := by
  refine ⟨trivial, fun s₁ h₁ => ?_⟩
  cases h₁
  refine ⟨?_, fun s₂ h₂ => ?_⟩
  · intro c hc
    obtain rfl : Call.setValue (text "a") 1 = c := by injection hc
    exact fun hpart => absurd hpart (by decide)
  cases h₂
  refine ⟨trivial, fun s₃ h₃ => ?_⟩
  cases h₃
  refine ⟨trivial, fun s₄ h₄ => ?_⟩
  cases h₄
  refine ⟨⟨rfl, ?_⟩, fun s₅ h₅ => trivial⟩
  intro why time values hphase
  injection hphase with _ _ hvalues
  rw [← hvalues]
  decide

theorem history_follows_set :
    run noSize (State.initial SortedMap.empty []) (setAndRecord 0 (text "a") 1) = some recorded ∧
    recorded.commits.getLast?.map Commit.values = some recorded.visible :=
  ⟨rfl, (history_follows noSize SortedMap.empty [] _ recorded rfl).2 meets_set recorded_idle
    (by decide)⟩

def grouped : State Nat :=
  State.initial (SortedMap.empty.insert ⟨[text "a", text "b"], List.cons_ne_nil _ _⟩ 1)
    [SortedMap.empty.insert ⟨[text "a", text "b"], List.cons_ne_nil _ _⟩ 1]

/-- The group is deleted, and no revision says so. -/
theorem deleted_group_unrecorded : ∃ s,
    run noSize grouped [(0, .call (.delValue (text "a"))), (0, .store)] = some s ∧
      (∀ t, s.phase t = .idle) ∧ s.lastChange ≠ 0 ∧
      s.commits.getLast?.map Commit.values ≠ some s.visible := by
  refine ⟨_, rfl, ?_, ?_, ?_⟩
  · rintro (_ | t)
    · rfl
    · rfl
  · decide
  · decide

end Sandboxie.History
