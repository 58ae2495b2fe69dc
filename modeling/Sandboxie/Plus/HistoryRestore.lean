import Sandboxie.Plus.HistoryFresh

/-!
# Restoring a revision

`CLocalSettingsHistory::restore` among calls that write the settings.  `Law` says that what
the settings were before a revision was applied is committed, that a restore that returned
true left the revision, and that one that returned false left what it found.

`Covered` says that what can be seen is committed or about to be.  It holds from the snapshot
of the checkpoint to `ApplySnapshot`, as far as calls that come between them are recorded.
-/

namespace Sandboxie.History

open List

variable {V : Type} {encodedSize : Store V → Nat} {s s' : State V} {t : Nat}

/-! ### What is kept -/

def State.Committed (s : State V) (values : Store V) : Prop := ∃ c ∈ s.commits, c.values = values

/-- Some revision has the values, or a thread has them in its snapshot. -/
def State.Kept (s : State V) (values : Store V) : Prop :=
  s.Committed values ∨ ∃ t why time, s.phase t = .snapped why time values

/-- The thread changed something and has no snapshot yet. -/
def Phase.Recording : Phase V → Prop
  | waiting .record => True
  | holding .record => True
  | _ => False

/-- The thread relies on its checkpoint. -/
def Phase.Guards : Phase V → Prop
  | snapped (.checkpoint _ _) _ _ => True
  | applying _ _ => True
  | _ => False

/-- What can be seen is committed or about to be. -/
def Covered (s : State V) : Prop := s.Kept s.visible ∨ ∃ t, (s.phase t).Recording

/-- No restore that was applied needs the values. -/
def State.Spare (s : State V) (t : Nat) (values : Store V) : Prop :=
  values = s.visible ∧ (∀ n ∈ s.applied, values ∉ s.seen.take n) ∧
    ∀ t', t' ≠ t → ¬ (s.phase t').Guards

/-- A call that changes what can be seen finds it kept, and is recorded if it comes between a
checkpoint and its revision.  A snapshot that nothing else keeps is committed.  A revision is
applied without an error, when no change waits for its snapshot, and where it does not remove
the key `History`. -/
def Restores [DecidableEq V] (encodedSize : Store V → Nat) (s : State V) (t : Nat) :
    Action V → Prop
  | .store => ∀ c, s.phase t = .storing c → (c.write s.store).snapshotValues ≠ s.visible →
      s.Kept s.visible ∧ (c.Recorded s.store ∨ ∀ t', ¬ (s.phase t').Guards)
  | .commit git => ∀ why time values, s.phase t = .snapped why time values →
      (fits encodedSize values = true ∧ git ≠ .failed) ∨ s.Committed values ∨ s.Spare t values
  | .apply noError => noError = true ∧
      (s.Kept s.visible ∨ ∀ t', ¬ (s.phase t').Recording) ∧
      ∀ r target, s.phase t = .applying r target →
        s.store.value Key.history = none ∨ target.value Key.history ≠ none
  | _ => True

/-- The law of `restore`. -/
structure Law (s : State V) : Prop where
  recoverable : ∀ n ∈ s.applied, ∀ values ∈ s.seen.take n, s.Kept values
  restored : ∀ r ∈ s.returned, r.ok = true → r.writes = r.call.writes →
    ∃ c, s.commits[r.call.id]? = some c ∧ r.after.snapshotValues = c.values ∧
      ∀ k, k.isHidden = true → r.after.value k = r.call.before.value k
  unchanged : ∀ r ∈ s.returned, r.ok = false → r.writes = r.call.writes →
    r.after = r.call.before

variable {values : Store V}

theorem State.Kept.committed (h : s.Kept values)
    (hidle : ∀ t, s.phase t = .idle) : s.Committed values := by
  refine h.resolve_right ?_
  rintro ⟨t, why, time, hphase⟩
  exact nomatch (hidle t).symm.trans hphase

theorem State.Kept.congr (h : s.Kept values) (hcommits : ∀ c ∈ s.commits, c ∈ s'.commits)
    (hothers : ∀ t', t' ≠ t → s'.phase t' = s.phase t')
    (hself : ∀ why time, s.phase t ≠ .snapped why time values) : s'.Kept values := by
  rcases h with ⟨c, hc, hvalues⟩ | ⟨t', why, time, hphase⟩
  · exact .inl ⟨c, hcommits c hc, hvalues⟩
  · have hne : t' ≠ t := by
      rintro rfl
      exact hself why time hphase
    exact .inr ⟨t', why, time, (hothers t' hne).trans hphase⟩

/-! ### What every step keeps -/

theorem phase_commitStep (t : Nat) (why : Why V) (commit : Option (Commit V)) (ok : Bool)
    (s : State V) : ((commitStep t why commit ok s).phase t).Guards →
      ∃ r target, why = .checkpoint r target ∧ ok = true := by
  rw [phase_commitStep_self]
  intro hguards
  cases why with
  | record => exact hguards.elim
  | checkpoint r target =>
    cases ok with
    | true => exact ⟨r, target, rfl, rfl⟩
    | false => exact hguards.elim
  | followUp r target => exact hguards.elim

theorem commitStep_ghosts (t : Nat) (why : Why V) (commit : Option (Commit V)) (ok : Bool)
    (s : State V) :
    (commitStep t why commit ok s).seen = s.seen ∧
    (commitStep t why commit ok s).applied = s.applied := by
  cases why with
  | record => exact ⟨rfl, rfl⟩
  | checkpoint r target => cases ok <;> exact ⟨rfl, rfl⟩
  | followUp r target => exact ⟨rfl, rfl⟩

variable {a : Action V}

theorem Step.others [DecidableEq V] (h : Step encodedSize s t a s') {t' : Nat}
    (hne : t' ≠ t) : s'.phase t' = s.phase t' := by
  cases h with
  | store c hphase => exact phase_setPhase_of_ne (s.write (c.write s.store)) _ hne
  | unread r available hphase howner => exact phase_setPhase_of_ne s .idle hne
  | lock why hphase howner => exact phase_setPhase_of_ne s (.holding why) hne
  | commit why time values git hphase => exact (commitStep_fields ..).2.2.2.2.2.1 t' hne
  | apply r target noError hphase =>
    cases noError with
    | true => exact phase_setPhase_of_ne (s.write (Store.applySnapshot target s.store)) _ hne
    | false => exact phase_setPhase_of_ne (s.write (Store.applySnapshot target s.store)) .idle hne
  | _ => exact phase_setPhase_of_ne s _ hne

theorem Step.commits_prefix [DecidableEq V] (h : Step encodedSize s t a s') :
    s.commits <+: s'.commits := by
  cases h with
  | commit why time values git hphase =>
    rw [(commitStep_fields ..).2.2.1]
    exact prefix_append ..
  | apply r target noError hphase => cases noError <;> exact prefix_rfl
  | _ => exact prefix_rfl

theorem Step.still [DecidableEq V] (h : Step encodedSize s t a s')
    (hstore : a ≠ .store) (happly : ∀ noError, a ≠ .apply noError) :
    s'.store = s.store ∧ s'.now = s.now ∧ s'.seen = s.seen ∧ s'.applied = s.applied := by
  cases h with
  | store c hphase => exact absurd rfl hstore
  | commit why time values git hphase =>
    have hfields := commitStep_fields t why
      (if fits encodedSize values = true ∧ git ≠ .failed then
        some { time := time, values := values } else none)
      (fits encodedSize values && git = .ok) s
    exact ⟨hfields.1, hfields.2.2.2.1, commitStep_ghosts ..⟩
  | apply r target noError hphase => exact absurd rfl (happly noError)
  | _ => exact ⟨rfl, rfl, rfl, rfl⟩

theorem kept_step [DecidableEq V]
    (hmeets : Restores encodedSize s t a) (hstep : Step encodedSize s t a s')
    (h : s.Kept values) :
    s'.Kept values ∨ values = s'.visible ∧ (∀ n ∈ s'.applied, values ∉ s'.seen.take n) ∧
      ∀ t', ¬ (s'.phase t').Guards := by
  by_cases hsnapped : ∃ why time, s.phase t = .snapped why time values
  · obtain ⟨why, time, hsnapped⟩ := hsnapped
    cases hstep with
    | commit why' time' values' git hphase =>
      obtain ⟨rfl, rfl, rfl⟩ : why' = why ∧ time' = time ∧ values' = values := by
        injection hphase.symm.trans hsnapped with h₁ h₂ h₃
        exact ⟨h₁, h₂, h₃⟩
      rcases hmeets why' time' values' hphase with hwritten | ⟨c, hc, hvalues⟩ | hspare
      · refine .inl (.inl ⟨{ time := time', values := values' }, ?_, rfl⟩)
        rw [(commitStep_fields ..).2.2.1, if_pos hwritten]
        exact mem_append_right _ (mem_singleton_self _)
      · refine .inl (.inl ⟨c, ?_, hvalues⟩)
        rw [(commitStep_fields ..).2.2.1]
        exact mem_append_left _ hc
      by_cases hwritten : fits encodedSize values' = true ∧ git ≠ .failed
      · refine .inl (.inl ⟨{ time := time', values := values' }, ?_, rfl⟩)
        rw [(commitStep_fields ..).2.2.1, if_pos hwritten]
        exact mem_append_right _ (mem_singleton_self _)
      · refine .inr ⟨?_, ?_, ?_⟩
        · rw [State.visible, (commitStep_fields ..).1]
          exact hspare.1
        · rw [(commitStep_ghosts ..).1, (commitStep_ghosts ..).2]
          exact hspare.2.1
        · intro t' hguards
          by_cases heq : t' = t
          · subst heq
            obtain ⟨-, -, -, hok⟩ := phase_commitStep _ _ _ _ _ hguards
            obtain ⟨hfits, hgit⟩ := Bool.and_eq_true_iff.mp hok
            refine hwritten ⟨hfits, ?_⟩
            rw [of_decide_eq_true hgit]
            decide
          · rw [(commitStep_fields ..).2.2.2.2.2.1 t' heq] at hguards
            exact hspare.2.2 t' heq hguards
    | call c hphase => cases hphase.symm.trans hsnapped
    | restore id hphase => cases hphase.symm.trans hsnapped
    | store c hphase => cases hphase.symm.trans hsnapped
    | read r commit hphase => cases hphase.symm.trans hsnapped
    | unread r available hphase => cases hphase.symm.trans hsnapped
    | lock why' hphase => cases hphase.symm.trans hsnapped
    | snapshot why' hphase => cases hphase.symm.trans hsnapped
    | apply r target noError hphase => cases hphase.symm.trans hsnapped
  · exact .inl (h.congr (fun c hc => hstep.commits_prefix.subset hc) (fun t' => hstep.others)
      (fun why time hphase => hsnapped ⟨why, time, hphase⟩))

/-! ### Checkpoints cover what can be seen -/

theorem guards_before [DecidableEq V] {t' : Nat}
    (hstep : Step encodedSize s t a s') (h : (s'.phase t').Guards) :
    (∃ t'', (s.phase t'').Guards) ∨ s'.Kept s'.visible := by
  by_cases heq : t' = t
  · subst heq
    cases hstep with
    | snapshot why hphase =>
      exact .inr (.inr ⟨t', why, s.now, phase_setPhase_self s t' _⟩)
    | commit why time values git hphase =>
      obtain ⟨r, target, rfl, -⟩ := phase_commitStep _ _ _ _ _ h
      refine .inl ⟨t', ?_⟩
      rw [hphase]
      trivial
    | call c hphase =>
      rw [phase_setPhase_self] at h
      exact h.elim
    | restore id hphase =>
      rw [phase_setPhase_self] at h
      exact h.elim
    | store c hphase =>
      rw [phase_setPhase_self] at h
      split_ifs at h <;> exact h.elim
    | read r commit hphase howner hcommit hfits =>
      rw [phase_setPhase_self] at h
      exact h.elim
    | unread r available hphase howner =>
      have hself : (s.return' t' false r).phase t' = .idle := phase_setPhase_self s t' .idle
      rw [hself] at h
      exact h.elim
    | lock why hphase howner =>
      have hself : (s.setPhase t' (.holding why)).phase t' = .holding why :=
        phase_setPhase_self s t' _
      exact (hself ▸ h : (Phase.holding why).Guards).elim
    | apply r target noError hphase =>
      refine .inl ⟨t', ?_⟩
      rw [hphase]
      trivial
  · rw [hstep.others heq] at h
    exact .inl ⟨t', h⟩

theorem recording_step [DecidableEq V] (hstep : Step encodedSize s t a s')
    (h : (s.phase t).Recording) : Covered s' := by
  cases hstep with
  | lock why hphase howner =>
    refine .inr ⟨t, ?_⟩
    have hself : (s.setPhase t (.holding why)).phase t = .holding why := phase_setPhase_self s t _
    show ((s.setPhase t (.holding why)).phase t).Recording
    rw [hself]
    rw [hphase] at h
    cases why with
    | record => trivial
    | _ => exact h.elim
  | snapshot why hphase => exact .inl (.inr ⟨t, why, s.now, phase_setPhase_self s t _⟩)
  | call c hphase => exact (hphase ▸ h : (Phase.idle : Phase V).Recording).elim
  | restore id hphase => exact (hphase ▸ h : (Phase.idle : Phase V).Recording).elim
  | store c hphase => exact (hphase ▸ h : (Phase.storing c).Recording).elim
  | read r commit hphase => exact (hphase ▸ h : (Phase.reading r).Recording).elim
  | unread r available hphase => exact (hphase ▸ h : (Phase.reading r).Recording).elim
  | commit why time values git hphase => exact (hphase ▸ h : (Phase.snapped _ _ _).Recording).elim
  | apply r target noError hphase => exact (hphase ▸ h : (Phase.applying _ _).Recording).elim

theorem covered_still [DecidableEq V] (hmeets : Restores encodedSize s t a)
    (hstep : Step encodedSize s t a s') (hvisible : s'.visible = s.visible) (h : Covered s)
    (hguards : ∃ t', (s'.phase t').Guards) : Covered s' := by
  rcases h with hkept | ⟨t', hrecording⟩
  · rcases kept_step hmeets hstep hkept with hkept | ⟨-, -, hnone⟩
    · rw [← hvisible] at hkept
      exact .inl hkept
    · obtain ⟨t', hguards⟩ := hguards
      exact absurd hguards (hnone t')
  · by_cases heq : t' = t
    · subst heq
      exact recording_step hstep hrecording
    · refine .inr ⟨t', ?_⟩
      rw [hstep.others heq]
      exact hrecording

/-! ### Calls of `restore` on their way -/

/-- The store is what it was when the call began, if only the call wrote it. -/
def Before (s : State V) (r : Restore V) : Prop :=
  r.writes ≤ s.now ∧ (s.now = r.writes → s.store = r.before)

/-- The revision is the one that the call asks for, and no hidden key has a value in it. -/
def Target (s : State V) (r : Restore V) (target : Store V) : Prop :=
  (∃ c, s.commits[r.id]? = some c ∧ c.values = target) ∧
    ∀ k, k.isHidden = true → target.value k = none

/-- The store is the revision, if only the call wrote it. -/
def After (s : State V) (r : Restore V) (target : Store V) : Prop :=
  r.writes ≤ s.now ∧ (s.now = r.writes → s.visible = target ∧
    ∀ k, k.isHidden = true → s.store.value k = r.before.value k)

def Why.Inv (s : State V) : Why V → Prop
  | record => True
  | checkpoint r target => Before s r ∧ Target s r target
  | followUp r target => After s r target ∧ Target s r target

def Phase.Inv (s : State V) : Phase V → Prop
  | idle => True
  | storing _ => True
  | reading r => Before s r
  | waiting why => why.Inv s
  | holding why => why.Inv s
  | snapped why _ _ => why.Inv s
  | applying r target => Before s r ∧ Target s r target

/-- What the call that returned did, if nothing else wrote the store. -/
def Returned.Right (commits : List (Commit V)) (r : Returned V) : Prop :=
  r.writes = r.call.writes →
    match r.ok with
    | true => ∃ c, commits[r.call.id]? = some c ∧ r.after.snapshotValues = c.values ∧
        ∀ k, k.isHidden = true → r.after.value k = r.call.before.value k
    | false => r.after = r.call.before

/-- More was written or committed. -/
structure Later (s s' : State V) : Prop where
  store : (s'.now = s.now ∧ s'.store = s.store) ∨ s.now < s'.now
  commits : s.commits <+: s'.commits

theorem getElem?_of_prefix {commits commits' : List (Commit V)} {i : Nat} {c : Commit V}
    (h : commits <+: commits') (hc : commits[i]? = some c) : commits'[i]? = some c := by
  obtain ⟨more, rfl⟩ := h
  exact (List.getElem?_append_left (List.getElem?_eq_some_iff.mp hc).1).trans hc

theorem value_of_fits (h : fits encodedSize values = true) {k : Key}
    (hk : k.isHidden = true) : values.value k = none := by
  by_contra hsome
  obtain ⟨v, hv⟩ := Option.ne_none_iff_exists'.mp hsome
  have hmem := (SortedMap.valueOf_eq_some values.sorted).mp hv
  unfold fits at h
  simp only [Bool.and_eq_true, all_eq_true, decide_eq_true_eq] at h
  have hall := (h.1.2 _ hmem).2
  rw [hk] at hall
  exact Bool.noConfusion hall

theorem Before.later {r : Restore V} (hlater : Later s s') (h : Before s r) : Before s' r := by
  obtain ⟨hle, heq⟩ := h
  rcases hlater.store with ⟨hnow, hstore⟩ | hlt
  · rw [Before, hnow, hstore]
    exact ⟨hle, heq⟩
  · exact ⟨by omega, fun hsame => absurd hsame (by omega)⟩

theorem Target.later {r : Restore V} {target : Store V} (hlater : Later s s')
    (h : Target s r target) : Target s' r target := by
  obtain ⟨⟨c, hc, hvalues⟩, hhidden⟩ := h
  exact ⟨⟨c, getElem?_of_prefix hlater.commits hc, hvalues⟩, hhidden⟩

theorem After.later {r : Restore V} {target : Store V} (hlater : Later s s')
    (h : After s r target) : After s' r target := by
  obtain ⟨hle, heq⟩ := h
  rcases hlater.store with ⟨hnow, hstore⟩ | hlt
  · rw [After, State.visible, hnow, hstore]
    exact ⟨hle, heq⟩
  · exact ⟨by omega, fun hsame => absurd hsame (by omega)⟩

theorem Why.Inv.later {why : Why V} (hlater : Later s s') (h : why.Inv s) : why.Inv s' := by
  cases why with
  | record => trivial
  | checkpoint r target => exact ⟨h.1.later hlater, h.2.later hlater⟩
  | followUp r target => exact ⟨h.1.later hlater, h.2.later hlater⟩

theorem Phase.Inv.later {p : Phase V} (hlater : Later s s') (h : p.Inv s) : p.Inv s' := by
  cases p with
  | idle => trivial
  | storing c => trivial
  | reading r => exact Before.later hlater h
  | waiting why => exact Why.Inv.later hlater h
  | holding why => exact Why.Inv.later hlater h
  | snapped why time values => exact Why.Inv.later hlater h
  | applying r target => exact ⟨h.1.later hlater, h.2.later hlater⟩

theorem Returned.Right.later {r : Returned V} {commits commits' : List (Commit V)}
    (hpre : commits <+: commits') (h : r.Right commits) : r.Right commits' := by
  intro hwrites
  have h := h hwrites
  cases hok : r.ok with
  | false =>
    rw [hok] at h
    exact h
  | true =>
    rw [hok] at h
    obtain ⟨c, hc, hfacts⟩ := h
    exact ⟨c, getElem?_of_prefix hpre hc, hfacts⟩

theorem Step.later [DecidableEq V] (h : Step encodedSize s t a s') :
    Later s s' := by
  refine ⟨?_, h.commits_prefix⟩
  cases h with
  | store c hphase => exact .inr (Nat.lt_succ_self s.now)
  | apply r target noError hphase => cases noError <;> exact .inr (Nat.lt_succ_self s.now)
  | commit why time values git hphase =>
    exact .inl ⟨(commitStep_fields ..).2.2.2.1, (commitStep_fields ..).1⟩
  | _ => exact .inl ⟨rfl, rfl⟩

/-! ### The invariant -/

structure RestoreInv (s : State V) : Prop where
  covered : (∃ t, (s.phase t).Guards) → Covered s
  seen : ∀ values ∈ s.seen, values = s.visible ∨ s.Kept values
  applied_le : ∀ n ∈ s.applied, n ≤ s.seen.length
  recoverable : ∀ n ∈ s.applied, ∀ values ∈ s.seen.take n, s.Kept values
  phases : ∀ t, (s.phase t).Inv s
  returned : ∀ r ∈ s.returned, r.Right s.commits

theorem RestoreInv.toLaw (h : RestoreInv s) : Law s := by
  refine ⟨h.recoverable, ?_, ?_⟩
  · intro r hr hok hwrites
    have hright := h.returned r hr hwrites
    rw [hok] at hright
    exact hright
  · intro r hr hok hwrites
    have hright := h.returned r hr hwrites
    rw [hok] at hright
    exact hright

theorem RestoreInv.of_step [DecidableEq V] (h : RestoreInv s)
    (hmeets : Restores encodedSize s t a) (hstep : Step encodedSize s t a s')
    (hcovered : (∃ t', (s'.phase t').Guards) → Covered s')
    (hseen : ∀ values ∈ s'.seen, values = s'.visible ∨ s.Kept values)
    (happlied : ∀ n ∈ s'.applied, n ≤ s'.seen.length ∧ ∀ values ∈ s'.seen.take n, s.Kept values)
    (hphase : (s'.phase t).Inv s')
    (hreturned : ∀ r ∈ s'.returned, r ∈ s.returned ∨ r.Right s'.commits) : RestoreInv s' := by
  refine ⟨hcovered, ?_, fun n hn => (happlied n hn).1, ?_, ?_, ?_⟩
  · intro values hvalues
    rcases hseen values hvalues with heq | hkept
    · exact .inl heq
    · exact (kept_step hmeets hstep hkept).symm.imp_left And.left
  · intro n hn values hvalues
    refine (kept_step hmeets hstep ((happlied n hn).2 values hvalues)).resolve_right ?_
    rintro ⟨-, hnot, -⟩
    exact hnot n hn hvalues
  · intro t'
    by_cases heq : t' = t
    · rw [heq]
      exact hphase
    · rw [hstep.others heq]
      exact (h.phases t').later hstep.later
  · intro r hr
    rcases hreturned r hr with hold | hright
    · exact (h.returned r hold).later hstep.commits_prefix
    · exact hright

theorem RestoreInv.of_still [DecidableEq V] (h : RestoreInv s)
    (hmeets : Restores encodedSize s t a) (hstep : Step encodedSize s t a s')
    (hstore : a ≠ .store) (happly : ∀ noError, a ≠ .apply noError)
    (hphase : (s'.phase t).Inv s')
    (hreturned : ∀ r ∈ s'.returned, r ∈ s.returned ∨ r.Right s'.commits) : RestoreInv s' := by
  obtain ⟨hsame, -, hseen, happlied⟩ := hstep.still hstore happly
  have hvisible : s'.visible = s.visible := by rw [State.visible, hsame]
  refine h.of_step hmeets hstep ?_ ?_ ?_ hphase hreturned
  · rintro ⟨t', hguards⟩
    rcases guards_before hstep hguards with hbefore | hkept
    · exact covered_still hmeets hstep hvisible (h.covered hbefore) ⟨t', hguards⟩
    · exact .inl hkept
  · rw [hseen, hvisible]
    exact h.seen
  · rw [hseen, happlied]
    exact fun n hn => ⟨h.applied_le n hn, h.recoverable n hn⟩

theorem commitStep_inv {why : Why V} (commit : Option (Commit V)) (ok : Bool)
    (h : why.Inv s) :
    ((commitStep t why commit ok s).phase t).Inv (commitStep t why commit ok s) ∧
    ∀ r ∈ (commitStep t why commit ok s).returned,
      r ∈ s.returned ∨ r.Right (commitStep t why commit ok s).commits := by
  have hlater : Later s (commitStep t why commit ok s) := by
    refine ⟨.inl ⟨(commitStep_fields ..).2.2.2.1, (commitStep_fields ..).1⟩, ?_⟩
    rw [(commitStep_fields ..).2.2.1]
    exact prefix_append ..
  have h := h.later hlater
  rw [phase_commitStep_self]
  cases why with
  | record => exact ⟨trivial, fun r hr => .inl hr⟩
  | checkpoint r target =>
    cases ok with
    | true => exact ⟨h, fun r hr => .inl hr⟩
    | false =>
      refine ⟨trivial, fun r' hr' => ?_⟩
      rcases mem_append.mp hr' with hold | hnew
      · exact .inl hold
      · rw [mem_singleton.mp hnew]
        exact .inr h.1.2
  | followUp r target =>
    refine ⟨trivial, fun r' hr' => ?_⟩
    rcases mem_append.mp hr' with hold | hnew
    · exact .inl hold
    · rw [mem_singleton.mp hnew]
      obtain ⟨c, hc, hvalues⟩ := h.2.1
      refine .inr fun hwrites => ⟨c, hc, ?_, (h.1.2 hwrites).2⟩
      exact (h.1.2 hwrites).1.trans hvalues.symm

theorem restoreInv_store [DecidableEq V] {c : Call V} (h : RestoreInv s)
    (hmeets : Restores encodedSize s t .store) (hphase : s.phase t = .storing c) :
    RestoreInv ((s.write (c.write s.store)).setPhase t
      (if c.records s.store then .waiting .record else .idle)) := by
  have hstep : Step encodedSize s t .store _ := .store c hphase
  have hself := phase_setPhase_self (s.write (c.write s.store)) t
    (if c.records s.store then .waiting .record else .idle)
  have hmeets' := hmeets c hphase
  have hnew : ∀ values ∈ s.seen, values = (c.write s.store).snapshotValues ∨ s.Kept values := by
    intro values hvalues
    rcases h.seen values hvalues with heq | hkept
    · by_cases hsame : (c.write s.store).snapshotValues = s.visible
      · exact .inl (heq.trans hsame.symm)
      · rw [heq]
        exact .inr (hmeets' hsame).1
    · exact .inr hkept
  refine h.of_step hmeets hstep ?_ ?_ ?_ ?_ (fun r hr => .inl hr)
  · rintro ⟨t', hguards⟩
    by_cases heq : t' = t
    · rw [heq, hself] at hguards
      split_ifs at hguards <;> exact hguards.elim
    have hbefore : ∃ t', (s.phase t').Guards := ⟨t', hstep.others heq ▸ hguards⟩
    by_cases hsame : (c.write s.store).snapshotValues = s.visible
    · exact covered_still hmeets hstep hsame (h.covered hbefore) ⟨t', hguards⟩
    · rcases (hmeets' hsame).2 with hrecorded | hnone
      · refine .inr ⟨t, ?_⟩
        rw [hself, if_pos (records_of_change hrecorded hsame)]
        trivial
      · exact absurd (hstep.others heq ▸ hguards) (hnone t')
  · intro values hvalues
    rcases mem_append.mp hvalues with hold | hlast
    · exact hnew values hold
    · exact .inl (mem_singleton.mp hlast)
  · intro n hn
    have hle := h.applied_le n hn
    refine ⟨?_, fun values hvalues => ?_⟩
    · show n ≤ (s.seen ++ [_]).length
      rw [length_append]
      exact Nat.le_add_right_of_le hle
    · have htake : (s.seen ++ [(c.write s.store).snapshotValues]).take n = s.seen.take n :=
        take_append_of_le_length hle
      exact h.recoverable n hn values (htake ▸ hvalues)
  · rw [hself]
    split_ifs <;> trivial

theorem restoreInv_apply [DecidableEq V] {r : Restore V} {target : Store V} (h : RestoreInv s)
    (hmeets : Restores encodedSize s t (.apply true)) (hphase : s.phase t = .applying r target)
    (hstep : Step encodedSize s t (.apply true) s')
    (hs' : s' = { s.write (Store.applySnapshot target s.store) with
      applied := s.applied ++ [s.seen.length] }.setPhase t
        (.waiting (.followUp { r with writes := r.writes + 1 } target))) : RestoreInv s' := by
  have hself : s'.phase t = .waiting (.followUp { r with writes := r.writes + 1 } target) := by
    rw [hs']
    exact phase_setPhase_self _ t _
  have hinv : Before s r ∧ Target s r target := by
    have hinv := h.phases t
    rw [hphase] at hinv
    exact hinv
  obtain ⟨⟨hle, hbefore⟩, htarget⟩ := hinv
  have hvisible : s'.visible = target := by
    rw [hs']
    exact Store.snapshotValues_applySnapshot htarget.2
  have hkept : s.Kept s.visible := by
    rcases hmeets.2.1 with hkept | hnone
    · exact hkept
    · have hguards : ∃ t, (s.phase t).Guards := ⟨t, by rw [hphase]; trivial⟩
      refine (h.covered hguards).resolve_right ?_
      rintro ⟨t', hrecording⟩
      exact hnone t' hrecording
  have hold : ∀ values ∈ s.seen, s.Kept values := by
    intro values hvalues
    rcases h.seen values hvalues with heq | hvalues
    · rw [heq]
      exact hkept
    · exact hvalues
  refine h.of_step hmeets hstep (fun _ => ?_) ?_ ?_ ?_ ?_
  · obtain ⟨⟨c, hc, hvalues⟩, -⟩ := htarget.later hstep.later
    exact .inl (.inl ⟨c, mem_of_getElem? hc, hvalues.trans hvisible.symm⟩)
  · intro values hvalues
    rw [hs'] at hvalues
    rcases mem_append.mp hvalues with hvalues | hlast
    · exact .inr (hold values hvalues)
    · rw [hvisible, mem_singleton.mp hlast]
      exact .inl (Store.snapshotValues_applySnapshot htarget.2)
  · intro n hn
    have hseen : s'.seen = s.seen ++ [(Store.applySnapshot target s.store).snapshotValues] := by
      rw [hs']
      rfl
    have hle : n ≤ s.seen.length := by
      rw [hs'] at hn
      rcases mem_append.mp hn with hn | hn
      · exact h.applied_le n hn
      · exact (mem_singleton.mp hn).le
    rw [hseen]
    refine ⟨?_, fun values hvalues => ?_⟩
    · rw [length_append]
      exact Nat.le_add_right_of_le hle
    · rw [take_append_of_le_length hle] at hvalues
      exact hold values (mem_of_mem_take hvalues)
  · rw [hself]
    refine ⟨?_, htarget.later hstep.later⟩
    rw [hs']
    refine ⟨Nat.succ_le_succ hle, fun hnow => ?_⟩
    have hnow : s.now + 1 = r.writes + 1 := hnow
    have hstore := hbefore (Nat.succ.inj hnow)
    refine ⟨Store.snapshotValues_applySnapshot htarget.2, fun k hk => ?_⟩
    show (Store.applySnapshot target s.store).value k = r.before.value k
    rw [Store.value_applySnapshot_hidden htarget.2 (hmeets.2.2 r target hphase) hk, hstore]
  · intro r' hr'
    rw [hs'] at hr'
    exact .inl hr'

theorem restoreInv_step [DecidableEq V] (h : RestoreInv s)
    (hmeets : Restores encodedSize s t a) (hstep : Step encodedSize s t a s') :
    RestoreInv s' := by
  have hlater := hstep.later
  have hphase := h.phases t
  have hstep' := hstep
  cases hstep with
  | call c hidle =>
    refine h.of_still hmeets hstep' nofun nofun ?_ (fun r hr => .inl hr)
    rw [phase_setPhase_self]
    trivial
  | restore id hidle =>
    refine h.of_still hmeets hstep' nofun nofun ?_ (fun r hr => .inl hr)
    rw [phase_setPhase_self]
    exact ⟨le_rfl, fun _ => rfl⟩
  | store c hstoring => exact restoreInv_store h hmeets hstoring
  | read r commit hreading howner hcommit hfits =>
    refine h.of_still hmeets hstep' nofun nofun ?_ (fun r hr => .inl hr)
    rw [phase_setPhase_self]
    rw [hreading] at hphase
    refine ⟨Before.later hlater hphase, ⟨commit, hcommit, rfl⟩, fun k hk => ?_⟩
    exact value_of_fits hfits hk
  | unread r available hreading howner =>
    rw [hreading] at hphase
    refine h.of_still hmeets hstep' nofun nofun ?_ ?_
    · have hself : (s.return' t false r).phase t = .idle := phase_setPhase_self s t .idle
      rw [hself]
      trivial
    · intro r' hr'
      rcases mem_append.mp hr' with hold | hnew
      · exact .inl hold
      · rw [mem_singleton.mp hnew]
        exact .inr hphase.2
  | lock why hwaiting howner =>
    refine h.of_still hmeets hstep' nofun nofun ?_ (fun r hr => .inl hr)
    have hself : (s.setPhase t (.holding why)).phase t = .holding why := phase_setPhase_self s t _
    show ((s.setPhase t (.holding why)).phase t).Inv _
    rw [hself]
    rw [hwaiting] at hphase
    exact Why.Inv.later hlater hphase
  | snapshot why hholding =>
    refine h.of_still hmeets hstep' nofun nofun ?_ (fun r hr => .inl hr)
    rw [phase_setPhase_self]
    rw [hholding] at hphase
    exact Why.Inv.later hlater hphase
  | commit why time values git hsnapped =>
    rw [hsnapped] at hphase
    obtain ⟨hself, hreturned⟩ := commitStep_inv _ _ hphase
    exact h.of_still hmeets hstep' nofun nofun hself hreturned
  | apply r target noError happlying =>
    obtain rfl := hmeets.1
    exact restoreInv_apply h hmeets happlying hstep' rfl

/-! ### Runs -/

theorem restoreInv_initial (store : Store V) (revisions : List (Store V)) :
    RestoreInv (State.initial store revisions) := by
  refine ⟨?_, ?_, ?_, ?_, fun t => trivial, ?_⟩
  · rintro ⟨t, hguards⟩
    exact hguards.elim
  · intro values hvalues
    exact .inl (mem_singleton.mp hvalues)
  · intro n hn
    exact absurd hn not_mem_nil
  · intro n hn
    exact absurd hn not_mem_nil
  · intro r hr
    exact absurd hr not_mem_nil

/-- **Restoring is atomic and can be undone**, in a run whose steps meet the condition: the law
holds in every state that is reached, and once all calls have returned, all that could be seen
before a revision was applied is committed. -/
theorem restore_atomic [DecidableEq V] (encodedSize : Store V → Nat) (store : Store V)
    (revisions : List (Store V)) (events : List (Nat × Action V)) (s : State V)
    (hrun : run encodedSize (State.initial store revisions) events = some s)
    (hmeets : RunMeets encodedSize (Restores encodedSize) (State.initial store revisions)
      events) :
    Law s ∧ ((∀ t, s.phase t = .idle) →
      ∀ n ∈ s.applied, ∀ values ∈ s.seen.take n, s.Committed values) := by
  have hinv := run_invariant (I := RestoreInv)
    (fun h hmeets hstep => restoreInv_step h hmeets hstep) events
    (restoreInv_initial store revisions) hmeets hrun
  refine ⟨hinv.toLaw, fun hidle n hn values hvalues => ?_⟩
  exact (hinv.recoverable n hn values hvalues).committed hidle

def restoreFirst : List (Nat × Action Nat) :=
  [(0, .restore 0), (0, .read true), (0, .lock), (0, .snapshot), (0, .commit .ok),
    (0, .apply true), (0, .lock), (0, .snapshot), (0, .commit .ok)]

/-- One value under the key `a`. -/
def single (n : Nat) : Store Nat :=
  SortedMap.empty.insert ⟨[text "a"], List.cons_ne_nil _ _⟩ n

def restored : State Nat := (run noSize (State.initial (single 1) [single 2]) restoreFirst).get rfl

theorem meets_restoreFirst :
    RunMeets noSize (Restores noSize) (State.initial (single 1) [single 2]) restoreFirst := by
  refine ⟨trivial, fun s₁ h₁ => ?_⟩
  cases h₁
  refine ⟨trivial, fun s₂ h₂ => ?_⟩
  cases h₂
  refine ⟨trivial, fun s₃ h₃ => ?_⟩
  cases h₃
  refine ⟨trivial, fun s₄ h₄ => ?_⟩
  cases h₄
  refine ⟨fun why time values hphase => ?_, fun s₅ h₅ => ?_⟩
  · injection hphase with _ _ hvalues
    rw [← hvalues]
    exact .inl (by decide)
  cases h₅
  refine ⟨⟨rfl, .inl (.inl ?_), fun r target _ => .inl ?_⟩, fun s₆ h₆ => ?_⟩
  · exact ⟨_, mem_cons_of_mem _ mem_cons_self, by decide⟩
  · decide
  cases h₆
  refine ⟨trivial, fun s₇ h₇ => ?_⟩
  cases h₇
  refine ⟨trivial, fun s₈ h₈ => ?_⟩
  cases h₈
  refine ⟨fun why time values hphase => ?_, fun s₉ h₉ => trivial⟩
  injection hphase with _ _ hvalues
  rw [← hvalues]
  exact .inl (by decide)

theorem restored_idle : ∀ t, restored.phase t = .idle
  | 0 => rfl
  | _ + 1 => rfl

theorem restore_atomic_first :
    run noSize (State.initial (single 1) [single 2]) restoreFirst = some restored ∧
    restored.applied = [1] ∧ restored.visible = single 2 ∧
    Law restored ∧ ∀ n ∈ restored.applied, ∀ values ∈ restored.seen.take n,
      restored.Committed values :=
  have hlaw := restore_atomic noSize (single 1) [single 2] restoreFirst restored rfl
    meets_restoreFirst
  ⟨rfl, rfl, by decide, hlaw.1, hlaw.2 restored_idle⟩

/-- A value is set between the checkpoint and the revision, and no revision has it; and a
revision that meets an error is applied all the same. -/
theorem restore_loses :
    (∃ s, run noSize (State.initial (single 1) [single 2])
        [(0, .restore 0), (0, .read true), (0, .lock), (0, .snapshot), (0, .commit .ok),
          (1, .call (.setValue (text "a") 3)), (1, .store), (0, .apply true),
          (0, .lock), (0, .snapshot), (0, .commit .ok),
          (1, .lock), (1, .snapshot), (1, .commit .ok)] = some s ∧
      (∀ t, s.phase t = .idle) ∧
      ∃ n ∈ s.applied, ∃ values ∈ s.seen.take n, ¬ s.Committed values) ∧
    ∃ s, run noSize (State.initial (single 1) [single 2])
        [(0, .restore 0), (0, .read true), (0, .lock), (0, .snapshot), (0, .commit .ok),
          (0, .apply false)] = some s ∧
      ∃ r ∈ s.returned, r.ok = false ∧ r.writes = r.call.writes ∧ r.after ≠ r.call.before := by
  refine ⟨⟨_, rfl, ?_, 2, ?_, single 3, ?_, ?_⟩, _, rfl, ?_⟩
  · rintro (_ | _ | t) <;> rfl
  · decide
  · decide
  · rintro ⟨c, hc, hvalues⟩
    have hnone : ∀ c ∈ [single 2, single 1, single 2, single 2], c ≠ single 3 := by decide
    refine hnone c.values ?_ hvalues
    have hmap := mem_map_of_mem (f := Commit.values) hc
    exact hmap
  · refine ⟨_, mem_singleton_self _, rfl, rfl, ?_⟩
    decide

end Sandboxie.History
