import Sandboxie.Svc.ComThreads

/-!
# Runs of the COM proxy server

In a run whose notifications are answered, and whose slaves are created alone, each request is
seen as it was written, and each reply is the answer to its request.
-/

namespace Sandboxie.ComServer

open State Option

section Runs

variable {T : Type} [DecidableEq T] {t : T} {s s' : State T} {slave : SlaveId} {a : Answers}

/-! ### The log -/

theorem lockSlave_log (key : Key) (msgid : Nat) : (s.lockSlave t key msgid a).log = s.log := by
  rw [State.lockSlave]
  cases s.search t key s.m_SlavesList with
  | none => rfl
  | delete slave lock => rfl
  | slave slave =>
    dsimp only
    split
    · split <;> rfl
    · split <;> rfl

theorem createSlave_log (key : Key) (msgid : Nat) :
    (s.createSlave t key msgid a).log = s.log := by
  rw [State.createSlave]
  split
  · rfl
  · split <;> rfl

theorem write_log (msgid tag : Nat) : (s.write t slave msgid tag a).log = s.log := by
  rw [State.write]
  cases callid msgid with
  | none => rfl
  | some callid =>
    cases a.valid with
    | false => rfl
    | true =>
      dsimp only
      by_cases hcom : 0x80 < callid
      · rw [if_pos hcom]
        rfl
      · rw [if_neg hcom]
        rfl

theorem wait_log {callid tag : Nat} (h : s.wait t slave callid tag a = some s') :
    s'.log = s.log := by
  simp only [State.wait] at h
  split at h
  · cases h
    rfl
  · split at h
    · cases h
      rfl
    · split at h
      · cases h
        rfl
      · cases h

theorem deleted_log (next : Then) : (s.deleted t slave next).log = s.log := by
  cases next <;> rfl

theorem notifyNext_log (rest : List SlaveId) (skipped : Bool) (retry : Nat) :
    (s.notifyNext t rest skipped retry).log = s.log := by
  cases rest with
  | nil => rfl
  | cons slave rest =>
    rw [State.notifyNext]
    cases CriticalSection.enter t (s.slaves slave).lock <;> rfl

theorem notifyWait_log {rest : List SlaveId} {skipped : Bool} {retry : Nat}
    (h : s.notifyWait t slave rest skipped retry a = some s') : s'.log = s.log := by
  simp only [State.notifyWait] at h
  split at h
  · split at h
    all_goals
      cases h
      by_cases hdead : (s.slaves slave).process = .dead
      · rw [if_pos hdead]
        rfl
      · rw [if_neg hdead]
        rfl
  · cases h

/-! ### Runs -/

/-- **What a thread does keeps the invariant**, and its replies are the answers. -/
theorem Inv.go (h : Inv s) (hmeets : MeetsCom s (.inl (t, .go a))) (hstep : s.go t a = some s') :
    Inv s' ∧ Logs s s' := by
  cases hplace : s.threads t with
  | idle =>
    simp only [State.go, hplace] at hstep
    exact nomatch hstep
  | lockSlave key msgid =>
    simp only [State.go, hplace] at hstep
    obtain ⟨s₀, hentered, rfl⟩ := map_eq_some_iff.mp hstep
    obtain ⟨lock, henter, rfl⟩ := enterSlaves_eq hentered
    exact ⟨h.lockSlave hplace henter, Logs.of_eq (lockSlave_log key msgid)⟩
  | create key msgid =>
    simp only [State.go, hplace] at hstep
    simp only [MeetsCom, hplace] at hmeets
    cases hstep
    exact ⟨h.createSlave hplace hmeets, Logs.of_eq (createSlave_log key msgid)⟩
  | write slave msgid tag =>
    simp only [State.go, hplace] at hstep
    cases hstep
    exact ⟨h.write hplace, Logs.of_eq (write_log msgid tag)⟩
  | wait slave callid tag =>
    simp only [State.go, hplace] at hstep
    exact ⟨h.wait hplace hstep, Logs.of_eq (wait_log hstep)⟩
  | answered slave tag exc0 =>
    simp only [State.go, hplace] at hstep
    cases hstep
    exact h.reply hplace
  | fail slave tag =>
    simp only [State.go, hplace] at hstep
    obtain ⟨s₀, hentered, rfl⟩ := map_eq_some_iff.mp hstep
    obtain ⟨lock, henter, rfl⟩ := enterSlaves_eq hentered
    exact ⟨h.fail hplace henter, Logs.of_eq rfl⟩
  | deleting slave next =>
    simp only [State.go, hplace] at hstep
    cases hstep
    exact ⟨h.deleted hplace, Logs.of_eq (deleted_log next)⟩
  | notify retry =>
    simp only [State.go, hplace] at hstep
    obtain ⟨s₀, hentered, rfl⟩ := map_eq_some_iff.mp hstep
    obtain ⟨lock, henter, rfl⟩ := enterSlaves_eq hentered
    have hnone : (s.threads t).owns = none := by
      rw [hplace]
      rfl
    exact ⟨h.plain hnone rfl (h.held_taken henter (by rw [hplace]; rfl) rfl)
      ⟨h.nodup, fun _ hin => hin⟩, Logs.of_eq rfl⟩
  | notifyNext rest skipped retry =>
    simp only [State.go, hplace] at hstep
    cases hstep
    exact ⟨h.notifyNext hplace, Logs.of_eq (notifyNext_log rest skipped retry)⟩
  | notifyWait slave rest skipped retry tag =>
    simp only [State.go, hplace] at hstep
    simp only [MeetsCom, hplace] at hmeets
    exact ⟨h.notifyWait hplace hmeets hstep, Logs.of_eq (notifyWait_log hstep)⟩

theorem Inv.step (h : Inv s) {e : (T × Action) ⊕ (SlaveId × SlaveAction)}
    (hmeets : MeetsCom s e) (hstep : s.step e = some s') : Inv s' ∧ Logs s s' := by
  cases e with
  | inl e =>
    obtain ⟨t, action⟩ := e
    cases action with
    | request key msgid =>
      simp only [State.step] at hstep
      split at hstep
      next hidle =>
        cases hstep
        exact ⟨h.plain (by rw [hidle.1]; rfl) rfl (h.held_kept (by rw [hidle.1]; rfl))
          ⟨List.nodup_nil, nofun⟩, Logs.of_eq rfl⟩
      next => exact nomatch hstep
    | notification =>
      simp only [State.step] at hstep
      split at hstep
      next hidle =>
        cases hstep
        exact ⟨h.plain (by rw [hidle]; rfl) rfl (h.held_kept (by rw [hidle]; rfl))
          ⟨List.nodup_nil, nofun⟩, Logs.of_eq rfl⟩
      next => exact nomatch hstep
    | go a => exact h.go hmeets hstep
  | inr e =>
    obtain ⟨slave, action⟩ := e
    simp only [State.step] at hstep
    split at hstep
    next hlt => exact h.runSlave hlt hstep
    next => exact nomatch hstep

theorem Inv.init : Inv ({} : State T) where
  slavesLock _ := rfl
  lock _ _ := rfl
  nodup := List.nodup_nil
  listed := nofun
  unlisted _ hlt := absurd hlt (Nat.not_lt_zero _)
  owned := nofun
  gone := nofun
  keys _ _ hlt := absurd hlt (Nat.not_lt_zero _)
  ready := nofun
  fits := nofun
  rest _ := ⟨List.nodup_nil, nofun⟩

/-- Who has a slave uses the map of its key: one thread at a time. -/
def OneUser (s : State T) : Prop :=
  ∀ t t' slave slave', (s.threads t).owns = some slave → (s.threads t').owns = some slave' →
    (s.slaves slave).key = (s.slaves slave').key → t = t'

/-- What a thread can come to, through the list, as its own slave or as the next one to notify,
is not freed. -/
def NoFreed (s : State T) : Prop :=
  (∀ slave ∈ s.m_SlavesList, (s.slaves slave).freed = false) ∧
    ∀ t slave, ((s.threads t).owns = some slave ∨ slave ∈ (s.threads t).rest) →
      (s.slaves slave).freed = false

theorem Inv.oneUser (h : Inv s) : OneUser s := by
  intro t t' slave slave' hown hown' hkey
  obtain ⟨hlt, hfreed, -⟩ := h.owned t slave hown
  obtain ⟨hlt', hfreed', -⟩ := h.owned t' slave' hown'
  obtain rfl := h.keys slave slave' hlt hlt' hfreed hfreed' hkey
  exact h.owner_unique hown' hown

theorem Inv.noFreed (h : Inv s) : NoFreed s := by
  refine ⟨fun slave hin => (h.listed slave hin).2, fun t slave hreach => ?_⟩
  rcases hreach with hown | hin
  · exact (h.owned t slave hown).2.1
  · exact (h.listed slave ((h.rest t).2 slave hin).1).2

/-- **COM proxy calls stay in step**, in every run whose notifications are answered and whose
slaves are created alone. -/
theorem com_in_step {es : List ((T × Action) ⊕ (SlaveId × SlaveAction))}
    (h : Run (fun s e s' => s.step e = some s') MeetsCom ({} : State T) es s) :
    OneUser s ∧ NoFreed s ∧ ∀ e ∈ s.log, e.Fine := by
  have hinv : Inv s ∧ ∀ e ∈ s.log, e.Fine := by
    refine h.invariant (I := fun s => Inv s ∧ ∀ e ∈ s.log, e.Fine) ⟨Inv.init, nofun⟩ ?_
    intro s₁ e s₂ ⟨hinv, hlog⟩ hstep hmeets
    obtain ⟨hinv', hlogs⟩ := hinv.step hmeets hstep
    exact ⟨hinv', fun e he => (hlogs e he).elim (hlog e) id⟩
  exact ⟨hinv.1.oneUser, hinv.1.noFreed, hinv.2⟩

/-- **Nothing is left behind**: once no thread has anything to do, no lock is held, and a slave
has been deleted, or it is in the list and ready, the only one of its key. -/
theorem com_at_rest {es : List ((T × Action) ⊕ (SlaveId × SlaveAction))}
    (h : Run (fun s e s' => s.step e = some s') MeetsCom ({} : State T) es s)
    (hidle : ∀ t, s.threads t = .idle) :
    (∀ t, CriticalSection.held s.m_SlavesLock t = 0) ∧
    ∀ slave, slave < s.nextSlave → (∀ t, CriticalSection.held (s.slaves slave).lock t = 0) ∧
      ((s.slaves slave).freed = true ∧ (s.slaves slave).process = .dead ∨
        slave ∈ s.m_SlavesList ∧ Ready (s.slaves slave).process (s.chan slave) ∧
          ∀ slave' ∈ s.m_SlavesList, (s.slaves slave').key = (s.slaves slave).key →
            slave' = slave) := by
  have hinv : Inv s := h.invariant Inv.init fun hs hstep hmeets => (hs.step hmeets hstep).1
  have howns : ∀ t slave, (s.threads t).owns ≠ some slave := by
    intro t slave
    rw [hidle t]
    exact Option.some_ne_none slave ∘ Eq.symm
  refine ⟨fun t => ?_, fun slave hlt => ⟨fun t => ?_, ?_⟩⟩
  · rw [hinv.slavesLock, hidle t]
    rfl
  · rw [hinv.lock, if_neg (howns t slave)]
  cases hfreed : (s.slaves slave).freed with
  | true => exact .inl ⟨rfl, hinv.gone slave hfreed⟩
  | false =>
    have hin : slave ∈ s.m_SlavesList := by
      by_contra hout
      obtain ⟨t, hdeletes⟩ := hinv.unlisted slave hlt hfreed hout
      exact howns t slave (Place.owns_of_deletes hdeletes)
    refine .inr ⟨hin, hinv.ready slave hin fun t => howns t slave, fun slave' hin' hkey => ?_⟩
    obtain ⟨hlt', hfreed'⟩ := hinv.listed slave' hin'
    exact hinv.keys slave' slave hlt' hlt hfreed' hfreed hkey

end Runs

section Decidable

variable {T : Type} [DecidableEq T]

instance (s : State T) (slave : SlaveId) (a : Answers) : Decidable (Answered s slave a) :=
  inferInstanceAs (Decidable (_ ∨ _ ∨ _))

instance (s : State T) (key : Key) (msgid : Nat) (a : Answers) :
    Decidable (CreatesAlone s key msgid a) :=
  inferInstanceAs (Decidable (_ → _))

instance (s : State T) (e : (T × Action) ⊕ (SlaveId × SlaveAction)) :
    Decidable (MeetsCom s e) := by
  unfold MeetsCom
  split
  · split <;> infer_instance
  · infer_instance

end Decidable

def callSlave (t : Bool) (key : Key) : List ((Bool × Action) ⊕ (SlaveId × SlaveAction)) :=
  [.inl (t, .request key MSGID_COM_GET_CLASS_OBJECT), .inl (t, .go {}), .inl (t, .go {})]

/-- A slave is created, answers a request, and is notified. -/
def notified : List ((Bool × Action) ⊕ (SlaveId × SlaveAction)) :=
  callSlave false {} ++
    [.inl (false, .go {}), .inr (0, .wake), .inr (0, .finish true false), .inl (false, .go {}),
      .inl (false, .go {}), .inl (true, .notification), .inl (true, .go {}), .inl (true, .go {}),
      .inr (0, .wake)]

def answeredInTime : List ((Bool × Action) ⊕ (SlaveId × SlaveAction)) :=
  notified ++ [.inr (0, .finish true false), .inl (true, .go {}), .inl (true, .go {})]

theorem com_in_step_notified : ∃ s : State Bool,
    Run.checked State.step MeetsCom {} answeredInTime = some s ∧
      OneUser s ∧ NoFreed s ∧ ∀ e ∈ s.log, e.Fine := by
  obtain ⟨s, hs⟩ := isSome_iff_exists.mp
    (show (Run.checked State.step MeetsCom ({} : State Bool) answeredInTime).isSome by
      decide +kernel)
  exact ⟨s, hs, com_in_step (Run.of_checked hs)⟩

theorem com_at_rest_notified : ∃ s : State Bool,
    Run.checked State.step MeetsCom {} answeredInTime = some s ∧
      ∀ t, CriticalSection.held s.m_SlavesLock t = 0 := by
  obtain ⟨s, hs, hidle⟩ := map_eq_some_iff.mp
    (show (Run.checked State.step MeetsCom ({} : State Bool) answeredInTime).map
      (fun s => decide (∀ t, s.threads t = .idle)) = some true by decide +kernel)
  exact ⟨s, hs, (com_at_rest (Run.of_checked hs) (of_decide_eq_true hidle)).1⟩

def lateAnswer : List ((Bool × Action) ⊕ (SlaveId × SlaveAction)) :=
  notified ++ [.inl (true, .go { timeout := true }), .inl (true, .go {})] ++
    callSlave false {} ++ [.inr (0, .finish true false), .inl (false, .go {}), .inl (false, .go {})]

/-- The slave of a handler is marked after its wait, before the handler deletes it: a second slave
uses the same map. -/
def markedSlave : List ((Bool × Action) ⊕ (SlaveId × SlaveAction)) :=
  callSlave false {} ++ [.inl (false, .go {}), .inl (false, .go { timeout := true }),
    .inl (true, .request {} MSGID_COM_GET_CLASS_OBJECT), .inl (true, .go { tooLong := true }),
    .inl (true, .go {})]

def lostSlaves : List ((Bool × Action) ⊕ (SlaveId × SlaveAction)) :=
  callSlave false {} ++ [.inl (true, .request { SessionId := 1 } MSGID_COM_GET_CLASS_OBJECT),
    .inl (true, .go {}), .inl (true, .go { created := false })] ++ callSlave true {}

def Shares (s : State Bool) (t t' : Bool) (slave slave' : SlaveId) : Prop :=
  (s.threads t).owns = some slave ∧ (s.threads t').owns = some slave' ∧
    (s.slaves slave).key = (s.slaves slave').key

instance (s : State Bool) (t t' : Bool) (slave slave' : SlaveId) :
    Decidable (Shares s t t' slave slave') :=
  inferInstanceAs (Decidable (_ ∧ _ ∧ _))

theorem Shares.not_oneUser {s : State Bool} {t t' : Bool} {slave slave' : SlaveId}
    (h : Shares s t t' slave slave') (hne : t ≠ t') : ¬ OneUser s :=
  fun hone => hne (hone t t' slave slave' h.1 h.2.1 h.2.2)

/-- Not every run stays in step. -/
theorem com_out_of_step :
    (∃ s : State Bool, Run (fun s e s' => s.step e = some s') (fun _ _ => True) {} lateAnswer s ∧
      ¬ ∀ e ∈ s.log, e.Fine) ∧
    (∃ s : State Bool, Run (fun s e s' => s.step e = some s') (fun _ _ => True) {} markedSlave s ∧
      ¬ OneUser s) ∧
    ∃ s : State Bool, Run (fun s e s' => s.step e = some s') (fun _ _ => True) {} lostSlaves s ∧
      ¬ OneUser s := by
  refine ⟨?_, ?_, ?_⟩
  · obtain ⟨s, hs, hlog⟩ := map_eq_some_iff.mp
      (show (Run.checked State.step (fun _ _ => True) ({} : State Bool) lateAnswer).map
        (·.log.head?) = some (some (.replied (.answer (some 1) true false) 2)) by decide +kernel)
    refine ⟨s, Run.of_checked hs, fun h => ?_⟩
    obtain ⟨procNum1, hmap⟩ := h _ (List.mem_of_mem_head? hlog)
    exact absurd (Content.answer.inj hmap).1 (by decide)
  · obtain ⟨s, hs, hown⟩ := map_eq_some_iff.mp
      (show (Run.checked State.step (fun _ _ => True) ({} : State Bool) markedSlave).map
        (fun s => decide (Shares s false true 0 1)) = some true by decide +kernel)
    exact ⟨s, Run.of_checked hs, (of_decide_eq_true hown).not_oneUser nofun⟩
  · obtain ⟨s, hs, hown⟩ := map_eq_some_iff.mp
      (show (Run.checked State.step (fun _ _ => True) ({} : State Bool) lostSlaves).map
        (fun s => decide (Shares s false true 0 1)) = some true by decide +kernel)
    exact ⟨s, Run.of_checked hs, (of_decide_eq_true hown).not_oneUser nofun⟩

end Sandboxie.ComServer
