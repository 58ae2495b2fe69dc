import Sandboxie.Svc.ComSlaves

/-!
# The steps of a thread of the COM proxy server

Every step of a thread keeps the invariant, where no wait for the answer to a notification runs
into its timeout, and where no slave is created next to one with the same objects.
-/

namespace Sandboxie.ComServer

open State List

section Steps

variable {T : Type} [DecidableEq T] {t t' : T} {s s' s₁ : State T} {slave : SlaveId}
  {place : Place} {record : Slave T} {c : Channel} {lock : CriticalSection T} {a : Answers}

theorem Turn.marked (ht : Turn t slave place record c s s₁) (non_com_request : Bool) :
    Turn t slave place { record with non_com_request := non_com_request } c s
      (s₁.setSlave slave { s₁.slaves slave with non_com_request := non_com_request }) := by
  rw [ht.record_eq]
  exact ht.setSlave rfl

theorem enterSlaves_eq (h : s.enterSlaves t = some s₁) :
    ∃ lock, CriticalSection.enter t s.m_SlavesLock = some lock ∧
      s₁ = { s with m_SlavesLock := lock } := by
  obtain ⟨lock, henter, heq⟩ := Option.map_eq_some_iff.mp h
  exact ⟨lock, henter, heq.symm⟩

theorem Inv.alone_of_enter (h : Inv s)
    (henter : CriticalSection.enter t s.m_SlavesLock = some lock) (hne : t' ≠ t) :
    (s.threads t').locks = false := by
  have hheld := h.slavesLock t'
  rw [CriticalSection.alone_of_enter henter hne] at hheld
  cases hlocks : (s.threads t').locks with
  | false => rfl
  | true =>
    rw [if_pos hlocks] at hheld
    exact nomatch hheld

theorem Inv.alone_of_locks (h : Inv s) (hlocks : (s.threads t).locks = true) (hne : t' ≠ t) :
    (s.threads t').locks = false :=
  Bool.eq_false_iff.mpr fun hlocks' => hne (h.locks_unique hlocks hlocks')

/-! ### `LockSlave` -/

theorem search_mem (t : T) (key : Key) (s : State T) (slaves : List SlaveId) :
    match s.search t key slaves with
    | .slave slave => slave ∈ slaves
    | .delete slave lock =>
      slave ∈ slaves ∧ CriticalSection.enter t (s.slaves slave).lock = some lock
    | _ => True := by
  induction slaves with
  | nil => trivial
  | cons first rest ih =>
    have hrest : match s.search t key rest with
        | .slave slave => slave ∈ first :: rest
        | .delete slave lock =>
          slave ∈ first :: rest ∧ CriticalSection.enter t (s.slaves slave).lock = some lock
        | _ => True := by
      split at ih
      · exact mem_cons_of_mem _ ih
      · exact ⟨mem_cons_of_mem _ ih.1, ih.2⟩
      · trivial
    rw [State.search]
    by_cases hmark : (s.slaves first).not_responding = true
    · rw [if_pos hmark]
      cases henter : CriticalSection.enter t (s.slaves first).lock with
      | some lock => exact ⟨mem_cons_self, henter⟩
      | none => exact hrest
    · rw [if_neg hmark]
      by_cases hkey : (s.slaves first).key = key
      · rw [if_pos hkey]
        exact mem_cons_self
      · rw [if_neg hkey]
        exact hrest

theorem Inv.take_delete (h : Inv s) {lock₀ : CriticalSection T} {next : Then}
    (ht : Turn t slave (s.threads t) record c s s₁) (hnone : (s.threads t).owns = none)
    (hout : (s.threads t).locks = false) (hin : slave ∈ s.m_SlavesList)
    (henter : CriticalSection.enter t s.m_SlavesLock = some lock)
    (hlock : s₁.m_SlavesLock = lock) (hlist : s₁.m_SlavesList = s.m_SlavesList)
    (henter₀ : CriticalSection.enter t (s.slaves slave).lock = some lock₀)
    (hlock₀ : record.lock = lock₀) (hfreed : record.freed = (s.slaves slave).freed)
    (hnext : (Place.deleting slave next).rest = []) : Inv (s₁.deleteSlave t slave next) := by
  have hne : (s.threads t).owns ≠ some slave := by
    rw [hnone]
    exact nofun
  refine h.erase (ht.deleteSlave next) hin ?_ (fun t' => h.alone henter₀)
    (fun slave' hown => nomatch hnone.symm.trans hown) rfl rfl (fun t' => ?_)
    (fun t' => h.alone_of_enter henter) (fun t' => ?_) hfreed ?_ rfl
  · exact congrArg (·.erase slave) hlist
  · have hheld := h.held_taken henter hout
      (show (Place.deleting slave next).locks = true from rfl) t'
    rw [← hlock] at hheld
    exact hheld
  · exact hlock₀ ▸ h.lock_taken henter₀ hne rfl t'
  · rw [hnext]
    exact ⟨nodup_nil, nofun⟩

theorem Inv.lockSlave (h : Inv s) {key : Key} {msgid : Nat}
    (hplace : s.threads t = .lockSlave key msgid)
    (henter : CriticalSection.enter t s.m_SlavesLock = some lock) :
    Inv (({ s with m_SlavesLock := lock } : State T).lockSlave t key msgid a) := by
  have hnone : (s.threads t).owns = none := by
    rw [hplace]
    rfl
  have hout : (s.threads t).locks = false := by
    rw [hplace]
    rfl
  have hcreate : Inv (({ s with m_SlavesLock := lock } : State T).goto t (.create key msgid)) :=
    h.plain hnone rfl (h.held_taken henter hout rfl) ⟨nodup_nil, nofun⟩
  have hleave : CriticalSection.leave t lock = s.m_SlavesLock := CriticalSection.leave_enter henter
  have hbase : ∀ slave, Turn t slave (s.threads t) (s.slaves slave) (s.chan slave) s
      { s with m_SlavesLock := lock } := fun slave => (Turn.refl t slave s).same rfl rfl rfl rfl
  rw [State.lockSlave]
  have hfound := search_mem t key { s with m_SlavesLock := lock } s.m_SlavesList
  cases hsearch : State.search t key { s with m_SlavesLock := lock } s.m_SlavesList with
  | none =>
    exact hcreate
  | delete slave lock₀ =>
    rw [hsearch] at hfound
    obtain ⟨hin, henter₀⟩ := hfound
    exact h.take_delete ((hbase slave).setSlave rfl) hnone hout hin henter rfl rfl
      henter₀ rfl rfl rfl
  | slave slave =>
    rw [hsearch] at hfound
    have hin : slave ∈ s.m_SlavesList := hfound
    cases henter₀ : CriticalSection.enter t (s.slaves slave).lock with
    | some lock₀ =>
      simp only [henter₀]
      have ht := (hbase slave).setSlave
        (show ({ s.slaves slave with lock := lock₀, not_responding := false } : Slave T).key =
          (s.slaves slave).key from rfl)
      by_cases hdead : (s.slaves slave).process = .dead
      · rw [if_pos (by rw [ht.record_eq]; exact hdead)]
        exact h.take_delete ht hnone hout hin henter rfl rfl henter₀ rfl rfl rfl
      · rw [if_neg (by rw [ht.record_eq]; exact hdead)]
        refine h.acquire (ht.locked msgid) hnone hin henter₀ rfl hleave ?_ rfl rfl rfl rfl
          ⟨nodup_nil, nofun⟩ fun hready => ⟨hready, rfl⟩
        rw [hout]
        rfl
    | none =>
      simp only [henter₀]
      split
      · exact (h.mark slave true).plain hnone rfl (h.held_taken henter hout rfl)
          ⟨nodup_nil, nofun⟩
      · refine h.plain hnone rfl ?_ ⟨nodup_nil, nofun⟩
        rw [hleave]
        exact h.held_kept (by rw [hout]; rfl)

/-! ### A handler with its slave -/

section Place

variable {before : Place}

theorem Inv.fits_at (h : Inv s) (hbefore : s.threads t = before)
    (hown : before.owns = some slave) :
    Fits before (s.slaves slave).process (s.chan slave) (s.slaves slave).posted := by
  subst hbefore
  exact h.fits t slave hown

theorem Inv.release (h : Inv s) (hbefore : s.threads t = before)
    (ht : Turn t slave (s.threads t) (s.slaves slave) c s s₁)
    (hown : before.owns = some slave) (hdel : before.deletes = none)
    (hlist : s₁.m_SlavesList = s.m_SlavesList) (hslaves : s₁.m_SlavesLock = s.m_SlavesLock)
    (hnone : place.owns = none) (hlocks : place.locks = before.locks)
    (hrest : place.rest = [] ∨ place.rest = before.rest)
    (hready : Ready (s.slaves slave).process c) :
    Inv ((s₁.leaveSlave t slave).goto t place) := by
  subst hbefore
  have hne : place.owns ≠ some slave := by
    rw [hnone]
    exact nofun
  exact h.own (ht.leaveSlave.goto place) hown hlist hslaves hlocks hdel
    (Place.deletes_of_owns hnone) (fun _ hown' => nomatch hnone.symm.trans hown') rfl
    (h.lock_left hown hne) hrest (fun hown' => absurd hown' hne) fun _ => hready

theorem Inv.keep (h : Inv s) (hbefore : s.threads t = before)
    (ht : Turn t slave place record c s s')
    (hown : before.owns = some slave) (hdel : before.deletes = none)
    (hlist : s'.m_SlavesList = s.m_SlavesList) (hslaves : s'.m_SlavesLock = s.m_SlavesLock)
    (hown' : place.owns = some slave) (hdel' : place.deletes = none)
    (hlocks : place.locks = before.locks) (hrest : place.rest = [])
    (hfreed : record.freed = (s.slaves slave).freed)
    (hlock : record.lock = (s.slaves slave).lock)
    (hfits : Fits place record.process c record.posted) : Inv s' := by
  subst hbefore
  exact h.own ht hown hlist hslaves hlocks hdel hdel'
    (fun slave' hslave => Option.some.inj (hslave.symm.trans hown')) hfreed
    (fun t' => hlock ▸ h.lock_kept hown hown' t') (.inl hrest) (fun _ => hfits)
    fun hne => absurd hown' hne

end Place

variable {tag : Nat}

theorem Inv.write (h : Inv s) {msgid : Nat} (hplace : s.threads t = .write slave msgid tag) :
    Inv (s.write t slave msgid tag a) := by
  obtain ⟨hready, hmap⟩ := h.fits_at hplace rfl
  have hleave : Inv ((s.leaveSlave t slave).goto t .idle) :=
    h.release hplace (Turn.refl t slave s) rfl rfl rfl rfl rfl rfl (.inl rfl) hready
  have hpost := (Turn.refl t slave s).post tag (.request tag)
  have hcalled : Called tag (s.slaves slave).process
      { s.chan slave with map := .request tag, hEvent1 := true } := by
    rcases hready with hdead | ⟨hwaiting, -, hoff⟩
    · exact .inl hdead
    · exact .inr (.inl ⟨hwaiting, rfl, hoff, rfl⟩)
  rw [State.write]
  cases hcallid : callid msgid with
  | none => exact hleave
  | some callid =>
    cases hvalid : a.valid with
    | false => exact hleave
    | true =>
      simp only [hmap, if_true]
      by_cases hcom : 0x80 < callid
      · rw [if_pos hcom]
        exact h.keep hplace ((hpost.marked true).goto (.wait slave callid tag)) rfl rfl rfl rfl rfl
          rfl rfl rfl rfl rfl ⟨hcalled, rfl⟩
      · rw [if_neg hcom]
        exact h.keep hplace (hpost.goto (.wait slave callid tag)) rfl rfl rfl rfl rfl rfl rfl rfl
          rfl rfl ⟨hcalled, rfl⟩

theorem Called.answered {process : Process} (h : Called tag process c)
    (halive : process ≠ .dead) (hon : c.hEvent2 = true) :
    process = .waiting ∧ c.hEvent1 = false ∧
      ∃ exc0 procNum1, c.map = .answer (some tag) exc0 procNum1 := by
  rcases h with hdead | ⟨-, -, hoff, -⟩ | ⟨-, -, hoff⟩ | ⟨hwaiting, hoff, -, hmap⟩
  · exact absurd hdead halive
  · exact nomatch hon.symm.trans hoff
  · exact nomatch hon.symm.trans hoff
  · exact ⟨hwaiting, hoff, hmap⟩

theorem Inv.wait (h : Inv s) {callid : Nat} (hplace : s.threads t = .wait slave callid tag)
    (hstep : s.wait t slave callid tag a = some s') : Inv s' := by
  obtain ⟨hcalled, hposted⟩ := h.fits_at hplace rfl
  have hfail : Inv (s.goto t (.fail slave tag)) :=
    h.keep hplace ((Turn.refl t slave s).goto (.fail slave tag)) rfl rfl rfl rfl rfl rfl rfl rfl
      rfl rfl ⟨hcalled, hposted⟩
  simp only [State.wait] at hstep
  by_cases hdead : (s.slaves slave).process = .dead
  · rw [if_pos hdead] at hstep
    exact Option.some.inj hstep ▸ hfail
  rw [if_neg hdead] at hstep
  by_cases hon : (s.chan slave).hEvent2 = true
  · rw [if_pos hon] at hstep
    cases hstep
    obtain ⟨hwaiting, hoff, exc0, procNum1, hmap⟩ := hcalled.answered hdead hon
    refine h.keep hplace ((((Turn.refl t slave s).setChan
      { s.chan slave with hEvent2 := false }).marked false).goto _) rfl rfl rfl rfl rfl rfl rfl
      rfl rfl rfl ⟨.inr ⟨hwaiting, hoff, rfl⟩, procNum1, ?_⟩
    rw [hmap]
    rfl
  · rw [if_neg hon] at hstep
    split at hstep
    · exact Option.some.inj hstep ▸ hfail
    · exact nomatch hstep

theorem Inv.reply (h : Inv s) {exc0 : Bool}
    (hplace : s.threads t = .answered slave tag exc0) :
    Inv (s.reply t slave tag exc0) ∧ Logs s (s.reply t slave tag exc0) := by
  obtain ⟨hready, procNum1, hmap⟩ := h.fits_at hplace rfl
  cases exc0 with
  | false =>
    exact ⟨h.release hplace (Turn.refl t slave s) rfl rfl rfl rfl rfl rfl (.inl rfl) hready,
      Logs.of_eq rfl⟩
  | true =>
    refine ⟨h.release hplace ((Turn.refl t slave s).same rfl rfl rfl rfl) rfl rfl rfl rfl rfl rfl
      (.inl rfl) hready, fun e he => ?_⟩
    rcases mem_cons.mp he with rfl | hold
    · exact .inr ⟨procNum1, hmap⟩
    · exact .inl hold

/-! ### `DeleteSlave` -/

theorem Inv.own_delete (h : Inv s) {before : Place} {next : Then} (hbefore : s.threads t = before)
    (ht : Turn t slave before record c s s₁) (hown : before.owns = some slave)
    (hdel : before.deletes = none) (hlist : s₁.m_SlavesList = s.m_SlavesList)
    (hslaves : ∀ t', CriticalSection.held s₁.m_SlavesLock t' =
      if t' = t then 1 else CriticalSection.held s.m_SlavesLock t')
    (halone : ∀ t', t' ≠ t → (s.threads t').locks = false)
    (hfreed : record.freed = (s.slaves slave).freed)
    (hlock : record.lock = (s.slaves slave).lock)
    (hrest : (Place.deleting slave next).rest = [] ∨
      (Place.deleting slave next).rest = before.rest) : Inv (s₁.deleteSlave t slave next) := by
  subst hbefore
  refine h.erase (ht.deleteSlave next) ((h.owned t slave hown).2.2.mpr hdel) ?_
    (fun t' hne hown' => hne (h.owner_unique hown hown'))
    (fun slave' hown' => Option.some.inj (hown'.symm.trans hown)) rfl rfl hslaves halone
    (fun t' => ?_) hfreed ?_ rfl
  · exact congrArg (·.erase slave) hlist
  · exact hlock ▸ h.lock_kept hown rfl t'
  · rcases hrest with hnil | heq
    · rw [hnil]
      exact ⟨nodup_nil, nofun⟩
    · rw [heq]
      refine ⟨(h.rest t).1, fun slave' hin => ?_⟩
      obtain ⟨hin', hne⟩ := (h.rest t).2 slave' hin
      exact ⟨hin', fun heq' => hne (heq' ▸ hown)⟩

theorem Inv.fail (h : Inv s) (hplace : s.threads t = .fail slave tag)
    (henter : CriticalSection.enter t s.m_SlavesLock = some lock) :
    Inv (({ s with m_SlavesLock := lock } : State T).deleteSlave t slave .failed) := by
  have hout : (s.threads t).locks = false := by
    rw [hplace]
    rfl
  have ht : Turn t slave (s.threads t) (s.slaves slave) (s.chan slave) s
      { s with m_SlavesLock := lock } := (Turn.refl t slave s).same rfl rfl rfl rfl
  rw [hplace] at ht
  exact h.own_delete hplace ht rfl rfl rfl
    (h.held_taken henter hout (show (Place.deleting slave .failed).locks = true from rfl))
    (fun t' => h.alone_of_enter henter) rfl rfl (.inl rfl)

theorem Inv.deleted (h : Inv s) {next : Then} (hplace : s.threads t = .deleting slave next) :
    Inv (s.deleted t slave next) := by
  have hdel : (s.threads t).deletes = some slave := by
    rw [hplace]
    rfl
  have hlocks : (s.threads t).locks = true := by
    rw [hplace]
    rfl
  have ht := (Turn.refl t slave s).free
  cases next with
  | retry key msgid =>
    exact h.free ((ht.goto (.lockSlave key msgid)).same rfl rfl rfl rfl) hdel rfl rfl rfl rfl rfl
      (h.held_left hlocks rfl) (.inl rfl)
  | create key msgid =>
    exact h.free (ht.goto (.create key msgid)) hdel rfl rfl rfl rfl rfl
      (h.held_kept hlocks.symm) (.inl rfl)
  | failed =>
    exact h.free ((ht.goto .idle).same rfl rfl rfl rfl) hdel rfl rfl rfl rfl rfl
      (h.held_left hlocks rfl) (.inl rfl)
  | notify rest skipped retry =>
    refine h.free (ht.goto (.notifyNext rest skipped retry)) hdel rfl rfl rfl rfl rfl
      (h.held_kept hlocks.symm) (.inr ?_)
    rw [hplace]
    rfl

/-! ### `NotifyAllSlaves3` -/

variable {rest : List SlaveId} {skipped : Bool} {retry : Nat}

theorem Inv.notifyNext (h : Inv s) (hplace : s.threads t = .notifyNext rest skipped retry) :
    Inv (s.notifyNext t rest skipped retry) := by
  have hnone : (s.threads t).owns = none := by
    rw [hplace]
    rfl
  have hlocks : (s.threads t).locks = true := by
    rw [hplace]
    rfl
  obtain ⟨hnodup, hrest⟩ : rest.Nodup ∧ ∀ slave ∈ rest, slave ∈ s.m_SlavesList := by
    have hrest := h.rest t
    rw [hplace] at hrest
    exact ⟨hrest.1, fun slave hin => (hrest.2 slave hin).1⟩
  cases rest with
  | nil =>
    rw [State.notifyNext]
    split
    · exact h.plain hnone rfl (h.held_left hlocks rfl) ⟨nodup_nil, nofun⟩
    · exact h.plain hnone rfl (h.held_left hlocks rfl) ⟨nodup_nil, nofun⟩
  | cons slave rest =>
    have hout := (nodup_cons.mp hnodup).1
    have hnodup' := (nodup_cons.mp hnodup).2
    have hrest' : ∀ slave' ∈ rest, slave' ∈ s.m_SlavesList := fun slave' hin =>
      hrest slave' (mem_cons_of_mem _ hin)
    rw [State.notifyNext]
    cases henter : CriticalSection.enter t (s.slaves slave).lock with
    | none =>
      exact h.plain hnone rfl (h.held_kept hlocks.symm) ⟨hnodup', hrest'⟩
    | some lock =>
      have ht := (((Turn.refl t slave s).setSlave
        (show ({ s.slaves slave with lock := lock } : Slave T).key = (s.slaves slave).key
          from rfl)).post s.nextTag (.request s.nextTag))
      refine h.acquire ((ht.goto (.notifyWait slave rest skipped retry s.nextTag)).same
        rfl rfl rfl rfl) hnone (hrest slave mem_cons_self)
        henter rfl rfl hlocks.symm rfl rfl rfl rfl
        ⟨hnodup', fun slave' hin => ⟨hrest' slave' hin, fun heq => hout (heq ▸ hin)⟩⟩
        fun hready => ⟨?_, rfl⟩
      rcases hready with hdead | ⟨hwaiting, -, hoff⟩
      · exact .inl hdead
      · exact .inr (.inl ⟨hwaiting, rfl, hoff, rfl⟩)

theorem Inv.notified (h : Inv s) (hplace : s.threads t = .notifyWait slave rest skipped retry tag)
    (ht : Turn t slave (s.threads t) (s.slaves slave) c s s₁)
    (hlist : s₁.m_SlavesList = s.m_SlavesList) (hslaves : s₁.m_SlavesLock = s.m_SlavesLock)
    (hready : Ready (s.slaves slave).process c) :
    Inv (s₁.deleteSlave t slave (.notify rest skipped retry)) ∧
      Inv ((s₁.leaveSlave t slave).goto t (.notifyNext rest skipped retry)) := by
  have hlocks : (s.threads t).locks = true := by
    rw [hplace]
    rfl
  refine ⟨?_, h.release hplace ht rfl rfl hlist hslaves rfl rfl (.inr rfl) hready⟩
  have hheld : ∀ t', CriticalSection.held s₁.m_SlavesLock t' =
      if t' = t then 1 else CriticalSection.held s.m_SlavesLock t' := by
    rw [hslaves]
    exact h.held_kept
      (show (Place.notifyNext rest skipped retry).locks = (s.threads t).locks from hlocks.symm)
  rw [hplace] at ht
  exact h.own_delete hplace ht rfl rfl hlist hheld (fun t' => h.alone_of_locks hlocks) rfl rfl
    (.inr rfl)

/-- The wait for the answer to a notification ends with an answer, or with the slave. -/
def Answered (s : State T) (slave : SlaveId) (a : Answers) : Prop :=
  (s.slaves slave).process = .dead ∨ (s.chan slave).hEvent2 = true ∨ a.timeout = false

theorem Inv.notifyWait (h : Inv s)
    (hplace : s.threads t = .notifyWait slave rest skipped retry tag)
    (hanswered : Answered s slave a)
    (hstep : s.notifyWait t slave rest skipped retry a = some s') : Inv s' := by
  obtain ⟨hcalled, -⟩ := h.fits_at hplace rfl
  simp only [State.notifyWait] at hstep
  by_cases hdead : (s.slaves slave).process = .dead
  · rw [if_pos (.inl hdead), if_pos hdead] at hstep
    obtain ⟨hdelete, hrelease⟩ := h.notified hplace (Turn.refl t slave s) rfl rfl (.inl hdead)
    split at hstep
    · exact Option.some.inj hstep ▸ hdelete
    · exact Option.some.inj hstep ▸ hrelease
  · by_cases hon : (s.chan slave).hEvent2 = true
    · rw [if_pos (.inr (.inl hon)), if_neg hdead] at hstep
      obtain ⟨hwaiting, hoff, -⟩ := hcalled.answered hdead hon
      obtain ⟨hdelete, hrelease⟩ := h.notified hplace ((Turn.refl t slave s).setChan
        { s.chan slave with hEvent2 := false }) rfl rfl (.inr ⟨hwaiting, hoff, rfl⟩)
      split at hstep
      · exact Option.some.inj hstep ▸ hdelete
      · exact Option.some.inj hstep ▸ hrelease
    · have htimeout : a.timeout = false := (hanswered.resolve_left hdead).resolve_left hon
      rw [if_neg] at hstep
      · exact nomatch hstep
      · rintro (hdead' | hon' | htimeout')
        · exact hdead hdead'
        · exact hon hon'
        · exact nomatch htimeout.symm.trans htimeout'

/-! ### Every step -/

/-- A slave is created where no slave has the objects of its names.  Where it cannot be created,
there is none in the list that could be lost. -/
def CreatesAlone (s : State T) (key : Key) (msgid : Nat) (a : Answers) : Prop :=
  creates msgid = true → if a.created then s.named key = false else s.m_SlavesList = []

/-- What has to hold for a step. -/
def MeetsCom (s : State T) (e : (T × Action) ⊕ (SlaveId × SlaveAction)) : Prop :=
  match e with
  | .inl (t, .go a) =>
    match s.threads t with
    | .create key msgid => CreatesAlone s key msgid a
    | .notifyWait slave _ _ _ _ => Answered s slave a
    | _ => True
  | _ => True

theorem Inv.createSlave (h : Inv s) {key : Key} {msgid : Nat}
    (hplace : s.threads t = .create key msgid) (halone : CreatesAlone s key msgid a) :
    Inv (s.createSlave t key msgid a) := by
  have hnone : (s.threads t).owns = none := by
    rw [hplace]
    rfl
  have hlocks : (s.threads t).locks = true := by
    rw [hplace]
    rfl
  have hleave : Inv ((s.leaveSlaves t).goto t .idle) :=
    h.plain hnone rfl (h.held_left hlocks rfl) ⟨nodup_nil, nofun⟩
  rw [State.createSlave]
  cases hcreates : creates msgid with
  | false =>
    rw [if_pos rfl]
    exact hleave
  | true =>
    have halone' := halone hcreates
    rw [if_neg (by decide)]
    cases hcreated : a.created with
    | true =>
      rw [if_pos rfl]
      rw [hcreated, if_pos rfl] at halone'
      refine h.new hplace halone' rfl rfl ?_ rfl rfl rfl
      simp [State.locked, State.goto, State.leaveSlaves, State.setChan, State.chan, State.setSlave,
        halone']
    | false =>
      rw [if_neg Bool.false_ne_true]
      rw [hcreated, if_neg Bool.false_ne_true] at halone'
      rw [← halone']
      exact hleave

end Steps

end Sandboxie.ComServer
