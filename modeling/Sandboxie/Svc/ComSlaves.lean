import Sandboxie.Svc.ComCalls

/-!
# The slaves of the COM proxy server

A step of a slave's process, and the creation of a slave, keep the invariant.
-/

namespace Sandboxie.ComServer

open State List

section Slaves

variable {T : Type} [DecidableEq T] {t : T} {s s' : State T} {slave : SlaveId} {c : Channel}
  {process : Process}

theorem Inv.congr (h : Inv s) (hthreads : s'.threads = s.threads)
    (hlocks : s'.m_SlavesLock = s.m_SlavesLock) (hlist : s'.m_SlavesList = s.m_SlavesList)
    (hnext : s'.nextSlave = s.nextSlave) (hchans : s'.chans = s.chans)
    (hkey : ∀ slave, (s'.slaves slave).key = (s.slaves slave).key)
    (hlock : ∀ slave, (s'.slaves slave).lock = (s.slaves slave).lock)
    (hprocess : ∀ slave, (s'.slaves slave).process = (s.slaves slave).process)
    (hfreed : ∀ slave, (s'.slaves slave).freed = (s.slaves slave).freed)
    (hposted : ∀ slave, (s'.slaves slave).posted = (s.slaves slave).posted) : Inv s' := by
  have hchan : ∀ slave, s'.chan slave = s.chan slave := by
    intro slave
    rw [State.chan, State.chan, hchans, hkey]
  constructor
  · rw [hthreads, hlocks]
    exact h.slavesLock
  · simp only [hthreads, hlock]
    exact h.lock
  · rw [hlist]
    exact h.nodup
  · simp only [hlist, hnext, hfreed]
    exact h.listed
  · simp only [hlist, hnext, hfreed, hthreads]
    exact h.unlisted
  · simp only [hlist, hnext, hfreed, hthreads]
    exact h.owned
  · simp only [hfreed, hprocess]
    exact h.gone
  · simp only [hnext, hfreed, hkey]
    exact h.keys
  · simp only [hlist, hthreads, hprocess, hchan]
    exact h.ready
  · simp only [hthreads, hprocess, hchan, hposted]
    exact h.fits
  · simp only [hthreads, hlist]
    exact h.rest

theorem Inv.mark (h : Inv s) (slave : SlaveId) (not_responding : Bool) :
    Inv (s.setSlave slave { s.slaves slave with not_responding := not_responding }) := by
  have hsame : ∀ {α : Type} (f : Slave T → α),
      f { s.slaves slave with not_responding := not_responding } = f (s.slaves slave) →
      ∀ slave', f (Function.update s.slaves slave
        { s.slaves slave with not_responding := not_responding } slave') = f (s.slaves slave') := by
    intro α f hf slave'
    by_cases heq : slave' = slave
    · rw [heq, Function.update_self, hf]
    · rw [Function.update_of_ne heq]
  exact h.congr rfl rfl rfl rfl rfl (hsame (·.key) rfl) (hsame (·.lock) rfl)
    (hsame (·.process) rfl) (hsame (·.freed) rfl) (hsame (·.posted) rfl)

/-! ### The process of a slave -/

theorem Fits.of_slave {place : Place} {process' : Process} {c' : Channel} {posted : Option Nat}
    (h : Fits place process c posted)
    (hready : Ready process c → Ready process' c' ∧ c'.map = c.map)
    (hcalled : ∀ tag, Called tag process c → Called tag process' c') :
    Fits place process' c' posted := by
  cases place with
  | write slave msgid tag => exact ⟨(hready h.1).1, (hready h.1).2.trans h.2⟩
  | wait slave callid tag => exact ⟨hcalled tag h.1, h.2⟩
  | answered slave tag exc0 =>
    obtain ⟨procNum1, hmap⟩ := h.2
    exact ⟨(hready h.1).1, procNum1, (hready h.1).2.trans hmap⟩
  | fail slave tag => exact ⟨hcalled tag h.1, h.2⟩
  | notifyWait slave rest skipped retry tag => exact ⟨hcalled tag h.1, h.2⟩
  | _ => exact h

theorem Inv.slave_step (h : Inv s) (hlt : slave < s.nextSlave)
    (hfreed : (s.slaves slave).freed = false) (hthreads : s'.threads = s.threads)
    (hlocks : s'.m_SlavesLock = s.m_SlavesLock) (hlist : s'.m_SlavesList = s.m_SlavesList)
    (hnext : s'.nextSlave = s.nextSlave)
    (hslaves : s'.slaves =
      Function.update s.slaves slave { s.slaves slave with process := process })
    (hchans : s'.chans = Function.update s.chans (s.slaves slave).key c)
    (hready : Ready (s.slaves slave).process (s.chan slave) →
      Ready process c ∧ c.map = (s.chan slave).map)
    (hcalled : ∀ tag, Called tag (s.slaves slave).process (s.chan slave) →
      Called tag process c) : Inv s' := by
  have hsame : ∀ {α : Type} (f : Slave T → α),
      f { s.slaves slave with process := process } = f (s.slaves slave) →
      ∀ slave', f (s'.slaves slave') = f (s.slaves slave') := by
    intro α f hf slave'
    rw [hslaves]
    by_cases heq : slave' = slave
    · rw [heq, Function.update_self, hf]
    · rw [Function.update_of_ne heq]
  have hkey := hsame (·.key) rfl
  have hlock := hsame (·.lock) rfl
  have hfreed' := hsame (·.freed) rfl
  have hposted := hsame (·.posted) rfl
  have hself : (s'.slaves slave).process = process ∧ s'.chan slave = c := by
    refine ⟨?_, ?_⟩
    · rw [hslaves, Function.update_self]
    · rw [State.chan, hkey, hchans, Function.update_self]
  have hother : ∀ slave', slave' ≠ slave →
      (s'.slaves slave').process = (s.slaves slave').process := by
    intro slave' hne
    rw [hslaves, Function.update_of_ne hne]
  have hchan : ∀ slave', slave' ≠ slave → slave' < s.nextSlave →
      (s.slaves slave').freed = false → s'.chan slave' = s.chan slave' := by
    intro slave' hne hlt' hunfreed
    rw [State.chan, hkey, hchans,
      Function.update_of_ne (h.chan_ne hlt hlt' hfreed hunfreed hne)]
    rfl
  refine ⟨?_, ?_, ?_, ?_, ?_, ?_, fun slave' hgone => ?_, ?_, fun slave' hin hnone => ?_,
    fun t slave' hown => ?_, ?_⟩
  · rw [hthreads, hlocks]
    exact h.slavesLock
  · simp only [hthreads, hlock]
    exact h.lock
  · rw [hlist]
    exact h.nodup
  · simp only [hlist, hnext, hfreed']
    exact h.listed
  · simp only [hlist, hnext, hfreed', hthreads]
    exact h.unlisted
  · simp only [hlist, hnext, hfreed', hthreads]
    exact h.owned
  · rw [hfreed'] at hgone
    have hne : slave' ≠ slave := by
      rintro rfl
      cases hgone.symm.trans hfreed
    rw [hother slave' hne]
    exact h.gone slave' hgone
  · simp only [hnext, hfreed', hkey]
    exact h.keys
  · rw [hlist] at hin
    rw [hthreads] at hnone
    have hbefore := h.ready slave' hin hnone
    by_cases heq : slave' = slave
    · subst heq
      rw [hself.1, hself.2]
      exact (hready hbefore).1
    · obtain ⟨hlt', hunfreed⟩ := h.listed slave' hin
      rw [hother slave' heq, hchan slave' heq hlt' hunfreed]
      exact hbefore
  · rw [hthreads] at hown ⊢
    rw [hposted]
    have hbefore := h.fits t slave' hown
    by_cases heq : slave' = slave
    · subst heq
      rw [hself.1, hself.2]
      exact hbefore.of_slave hready hcalled
    · obtain ⟨hlt', hunfreed, -⟩ := h.owned t slave' hown
      rw [hother slave' heq, hchan slave' heq hlt' hunfreed]
      exact hbefore
  · rw [hthreads, hlist]
    exact h.rest

theorem Inv.waiting (h : Inv s) (hlt : slave < s.nextSlave)
    (hfreed : (s.slaves slave).freed = false) :
    Ready (s.slaves slave).process (s.chan slave) ∨ (s.slaves slave).posted = none ∨
      ∃ tag, Called tag (s.slaves slave).process (s.chan slave) ∧
        (s.slaves slave).posted = some tag := by
  by_cases hown : ∃ t, (s.threads t).owns = some slave
  · obtain ⟨t, hown⟩ := hown
    have hfits := h.fits t slave hown
    cases hplace : s.threads t with
    | write slave' msgid tag =>
      rw [hplace] at hfits
      exact .inl hfits.1
    | wait slave' callid tag =>
      rw [hplace] at hfits
      exact .inr (.inr ⟨tag, hfits⟩)
    | answered slave' tag exc0 =>
      rw [hplace] at hfits
      exact .inl hfits.1
    | fail slave' tag =>
      rw [hplace] at hfits
      exact .inr (.inr ⟨tag, hfits⟩)
    | deleting slave' next =>
      rw [hplace] at hfits
      exact .inr (.inl hfits)
    | notifyWait slave' rest skipped retry tag =>
      rw [hplace] at hfits
      exact .inr (.inr ⟨tag, hfits⟩)
    | _ =>
      rw [hplace] at hown
      exact nomatch hown
  · have hin : slave ∈ s.m_SlavesList := by
      by_contra hout
      obtain ⟨t, hdel⟩ := h.unlisted slave hlt hfreed hout
      exact hown ⟨t, Place.owns_of_deletes hdel⟩
    exact .inl (h.ready slave hin fun t ht => hown ⟨t, ht⟩)

omit [DecidableEq T] in
theorem Logs.of_eq (h : s'.log = s.log) : Logs s s' := by
  intro e he
  rw [h] at he
  exact .inl he

theorem Inv.unfreed (h : Inv s) (halive : (s.slaves slave).process ≠ .dead) :
    (s.slaves slave).freed = false :=
  Bool.eq_false_iff.mpr fun hfreed => halive (h.gone slave hfreed)

theorem Ready.not_hEvent1 (h : Ready process c) (hwaiting : process = .waiting) :
    c.hEvent1 = false := by
  rcases h with hdead | ⟨-, hoff, -⟩
  · exact nomatch hwaiting.symm.trans hdead
  · exact hoff

theorem Called.map_eq {tag : Nat} (h : Called tag process c) (hwaiting : process = .waiting)
    (hon : c.hEvent1 = true) : c.hEvent2 = false ∧ c.map = .request tag := by
  rcases h with hdead | ⟨-, -, hoff, hmap⟩ | ⟨hworking, -⟩ | ⟨-, hoff, -⟩
  · exact nomatch hwaiting.symm.trans hdead
  · exact ⟨hoff, hmap⟩
  · exact nomatch hwaiting.symm.trans hworking
  · exact nomatch hon.symm.trans hoff

theorem Inv.wake (h : Inv s) (hlt : slave < s.nextSlave)
    (hwaiting : (s.slaves slave).process = .waiting) (hon : (s.chan slave).hEvent1 = true)
    (hslaves : s'.slaves =
      Function.update s.slaves slave { s.slaves slave with process := process })
    (hprocess : process = .dead ∨ process = .working (s.chan slave).map.tag)
    (hthreads : s'.threads = s.threads) (hlocks : s'.m_SlavesLock = s.m_SlavesLock)
    (hlist : s'.m_SlavesList = s.m_SlavesList) (hnext : s'.nextSlave = s.nextSlave)
    (hchans : s'.chans = Function.update s.chans (s.slaves slave).key
      { s.chan slave with hEvent1 := false }) : Inv s' := by
  have hfreed := h.unfreed (by rw [hwaiting]; exact nofun)
  refine h.slave_step hlt hfreed hthreads hlocks hlist hnext hslaves hchans
    (fun hready => ?_) fun tag hcalled => ?_
  · exact nomatch hon.symm.trans (hready.not_hEvent1 hwaiting)
  · obtain ⟨hoff, hmap⟩ := hcalled.map_eq hwaiting hon
    rcases hprocess with hdead | hworking
    · exact .inl hdead
    · rw [hmap] at hworking
      exact .inr (.inr (.inl ⟨hworking, rfl, hoff⟩))

/-- **What the process of a slave does keeps the invariant**, and the slave sees its requests. -/
theorem Inv.runSlave (h : Inv s) (hlt : slave < s.nextSlave) {action : SlaveAction}
    (hstep : s.runSlave slave action = some s') : Inv s' ∧ Logs s s' := by
  cases action with
  | wake =>
    cases hprocess : (s.slaves slave).process with
    | waiting =>
      simp only [State.runSlave, hprocess] at hstep
      by_cases hon : (s.chan slave).hEvent1 = true
      · rw [if_pos hon] at hstep
        by_cases hexit : (s.chan slave).map = .exit
        · rw [if_pos hexit] at hstep
          cases hstep
          exact ⟨h.wake hlt hprocess hon rfl (.inl rfl) rfl rfl rfl rfl rfl, Logs.of_eq rfl⟩
        rw [if_neg hexit] at hstep
        cases hstep
        refine ⟨h.wake hlt hprocess hon rfl (.inr rfl) rfl rfl rfl rfl rfl, fun e he => ?_⟩
        rcases mem_cons.mp he with rfl | hold
        · refine .inr fun tag hposted => ?_
          rcases h.waiting hlt (h.unfreed (by rw [hprocess]; exact nofun)) with
            hready | hnone | ⟨tag', hcalled, hposted'⟩
          · exact nomatch hon.symm.trans (hready.not_hEvent1 hprocess)
          · exact nomatch hnone.symm.trans hposted
          · obtain rfl := Option.some.inj (hposted'.symm.trans hposted)
            exact (hcalled.map_eq hprocess hon).2
        · exact .inl hold
      · rw [if_neg hon] at hstep
        exact nomatch hstep
    | working tag =>
      simp only [State.runSlave, hprocess] at hstep
      exact nomatch hstep
    | dead =>
      simp only [State.runSlave, hprocess] at hstep
      exact nomatch hstep
  | finish exc0 procNum1 =>
    cases hprocess : (s.slaves slave).process with
    | working tag =>
      simp only [State.runSlave, hprocess] at hstep
      cases hstep
      refine ⟨h.slave_step hlt (h.unfreed (by rw [hprocess]; exact nofun)) rfl rfl rfl rfl rfl rfl
        (fun hready => ?_) fun tag' hcalled => ?_, Logs.of_eq rfl⟩
      · rcases hready with hdead | ⟨hwaiting, -⟩
        · exact nomatch hprocess.symm.trans hdead
        · exact nomatch hprocess.symm.trans hwaiting
      · rcases hcalled with hdead | ⟨hwaiting, -⟩ | ⟨hworking, hoff, -⟩ | ⟨hwaiting, -⟩
        · exact nomatch hprocess.symm.trans hdead
        · exact nomatch hprocess.symm.trans hwaiting
        · obtain rfl := Process.working.inj (hprocess.symm.trans hworking)
          exact .inr (.inr (.inr ⟨rfl, hoff, rfl, exc0, procNum1, rfl⟩))
        · exact nomatch hprocess.symm.trans hwaiting
    | waiting =>
      simp only [State.runSlave, hprocess] at hstep
      exact nomatch hstep
    | dead =>
      simp only [State.runSlave, hprocess] at hstep
      exact nomatch hstep
  | die =>
    cases hstep
    refine ⟨?_, Logs.of_eq rfl⟩
    by_cases hfreed : (s.slaves slave).freed = true
    · have hsame : ({ s.slaves slave with process := .dead } : Slave T) = s.slaves slave := by
        rw [← h.gone slave hfreed]
      show Inv (s.setSlave slave { s.slaves slave with process := .dead })
      rw [hsame, State.setSlave, Function.update_eq_self]
      exact h
    · exact h.slave_step hlt (Bool.eq_false_iff.mpr hfreed) rfl rfl rfl rfl rfl
        (Function.update_eq_self ..).symm (fun _ => ⟨.inl rfl, rfl⟩) fun tag _ => .inl rfl

/-! ### A new slave -/

omit [DecidableEq T] in
theorem named_eq_false {key : Key} (h : s.named key = false) {slave' : SlaveId}
    (hlt : slave' < s.nextSlave) (hfreed : (s.slaves slave').freed = false) :
    (s.slaves slave').key ≠ key := by
  intro hkey
  have hall := any_eq_false.mp h slave' (mem_range.mpr hlt)
  simp [hfreed, hkey] at hall

theorem Inv.new (h : Inv s) {key : Key} {msgid tag : Nat}
    (hplace : s.threads t = .create key msgid) (hnamed : s.named key = false)
    (hthreads : s'.threads = Function.update s.threads t (.write s.nextSlave msgid tag))
    (hslaves : s'.slaves =
      Function.update s.slaves s.nextSlave { key := key, lock := some (t, 0) })
    (hchans : s'.chans = Function.update s.chans key { map := .header tag })
    (hlist : s'.m_SlavesList = s.m_SlavesList ++ [s.nextSlave])
    (hnext : s'.nextSlave = s.nextSlave + 1)
    (hlocks : s'.m_SlavesLock = CriticalSection.leave t s.m_SlavesLock) : Inv s' := by
  have hthread : s'.threads t = .write s.nextSlave msgid tag := by
    rw [hthreads, Function.update_self]
  have hother : ∀ t', t' ≠ t → s'.threads t' = s.threads t' := by
    intro t' hne
    rw [hthreads, Function.update_of_ne hne]
  have hrecord : s'.slaves s.nextSlave = { key := key, lock := some (t, 0) } := by
    rw [hslaves, Function.update_self]
  have hold : ∀ slave', slave' ≠ s.nextSlave → s'.slaves slave' = s.slaves slave' := by
    intro slave' hne
    rw [hslaves, Function.update_of_ne hne]
  have hchan : s'.chan s.nextSlave = { map := .header tag } := by
    rw [State.chan, hrecord, hchans, Function.update_self]
  have hchan_old : ∀ slave', slave' < s.nextSlave → (s.slaves slave').freed = false →
      s'.chan slave' = s.chan slave' := by
    intro slave' hlt hfreed
    rw [State.chan, hold slave' (Nat.ne_of_lt hlt), hchans,
      Function.update_of_ne (named_eq_false hnamed hlt hfreed)]
    rfl
  have hnone : (s.threads t).owns = none := by
    rw [hplace]
    rfl
  have hfresh : ∀ t', (s.threads t').owns ≠ some s.nextSlave := fun t' hown =>
    absurd (h.owned t' s.nextSlave hown).1 (Nat.lt_irrefl _)
  have howner : ∀ t' slave', slave' ≠ s.nextSlave →
      ((s'.threads t').owns = some slave' ↔ (s.threads t').owns = some slave') := by
    intro t' slave' hne
    by_cases heq : t' = t
    · rw [heq, hthread, hnone]
      exact ⟨fun hown => absurd (Option.some.inj hown).symm hne, fun hown => by cases hown⟩
    · rw [hother t' heq]
  refine ⟨fun t' => ?_, fun slave' t' => ?_, ?_, fun slave' hin => ?_,
    fun slave' hlt hfreed hout => ?_, fun t' slave' hown => ?_, fun slave' hfreed => ?_,
    fun slave₁ slave₂ h₁ h₂ hf₁ hf₂ hkey => ?_, fun slave' hin hnobody => ?_,
    fun t' slave' hown => ?_, fun t' => ?_⟩
  · have hin : (s.threads t).locks = true := by
      rw [hplace]
      rfl
    have hout : (s'.threads t).locks = false := by
      rw [hthread]
      rfl
    rw [hlocks, h.held_left hin hout]
    by_cases heq : t' = t
    · rw [if_pos heq, heq]
    · rw [if_neg heq, hother t' heq]
      exact h.slavesLock t'
  · by_cases hsl : slave' = s.nextSlave
    · subst hsl
      rw [hrecord]
      by_cases heq : t' = t
      · subst heq
        rw [hthread]
        exact (if_pos rfl).trans (if_pos rfl).symm
      · rw [hother t' heq, if_neg (hfresh t')]
        exact if_neg (Ne.symm heq)
    · rw [hold slave' hsl, h.lock]
      exact if_congr (howner t' slave' hsl).symm rfl rfl
  · rw [hlist]
    refine nodup_append.mpr ⟨h.nodup, pairwise_singleton .., fun slave' hin _ hnew => ?_⟩
    rw [mem_singleton.mp hnew]
    exact Nat.ne_of_lt (h.listed slave' hin).1
  · rw [hnext]
    rw [hlist] at hin
    rcases mem_append.mp hin with hin | hin
    · obtain ⟨hlt, hfreed⟩ := h.listed slave' hin
      rw [hold slave' (Nat.ne_of_lt hlt)]
      exact ⟨Nat.lt_succ_of_lt hlt, hfreed⟩
    · rw [mem_singleton.mp hin, hrecord]
      exact ⟨Nat.lt_succ_self _, rfl⟩
  · rw [hlist, mem_append, not_or] at hout
    have hsl : slave' ≠ s.nextSlave := fun heq => hout.2 (mem_singleton.mpr heq)
    rw [hnext] at hlt
    rw [hold slave' hsl] at hfreed
    obtain ⟨t', hdel⟩ := h.unlisted slave' (Nat.lt_of_le_of_ne (Nat.le_of_lt_succ hlt) hsl)
      hfreed hout.1
    refine ⟨t', ?_⟩
    rw [hother]
    · exact hdel
    · rintro rfl
      rw [hplace] at hdel
      cases hdel
  · rw [hnext, hlist]
    by_cases heq : t' = t
    · subst heq
      rw [hthread] at hown ⊢
      cases hown
      rw [hrecord]
      exact ⟨Nat.lt_succ_self _, rfl, fun _ => rfl, fun _ => by simp⟩
    · rw [hother t' heq] at hown ⊢
      obtain ⟨hlt, hfreed, hin⟩ := h.owned t' slave' hown
      rw [hold slave' (Nat.ne_of_lt hlt), ← hin, mem_append, mem_singleton]
      exact ⟨Nat.lt_succ_of_lt hlt, hfreed, or_iff_left (Nat.ne_of_lt hlt)⟩
  · by_cases hsl : slave' = s.nextSlave
    · rw [hsl, hrecord] at hfreed
      cases hfreed
    · rw [hold slave' hsl] at hfreed ⊢
      exact h.gone slave' hfreed
  · rw [hnext] at h₁ h₂
    by_cases hsl₁ : slave₁ = s.nextSlave
    · by_cases hsl₂ : slave₂ = s.nextSlave
      · rw [hsl₁, hsl₂]
      · rw [hold slave₂ hsl₂] at hf₂ hkey
        rw [hsl₁, hrecord] at hkey
        exact absurd hkey.symm (named_eq_false hnamed
          (Nat.lt_of_le_of_ne (Nat.le_of_lt_succ h₂) hsl₂) hf₂)
    · have hlt₁ := Nat.lt_of_le_of_ne (Nat.le_of_lt_succ h₁) hsl₁
      rw [hold slave₁ hsl₁] at hf₁ hkey
      by_cases hsl₂ : slave₂ = s.nextSlave
      · rw [hsl₂, hrecord] at hkey
        exact absurd hkey (named_eq_false hnamed hlt₁ hf₁)
      · rw [hold slave₂ hsl₂] at hf₂ hkey
        exact h.keys slave₁ slave₂ hlt₁
          (Nat.lt_of_le_of_ne (Nat.le_of_lt_succ h₂) hsl₂) hf₁ hf₂ hkey
  · have hsl : slave' ≠ s.nextSlave := by
      rintro rfl
      have howns := hnobody t
      rw [hthread] at howns
      exact howns rfl
    rw [hlist] at hin
    have hin' := (mem_append.mp hin).resolve_right fun heq => hsl (mem_singleton.mp heq)
    obtain ⟨hlt, hfreed⟩ := h.listed slave' hin'
    rw [hold slave' hsl, hchan_old slave' hlt hfreed]
    exact h.ready slave' hin' fun t' hown => hnobody t' ((howner t' slave' hsl).mpr hown)
  · by_cases heq : t' = t
    · subst heq
      rw [hthread] at hown ⊢
      cases hown
      rw [hrecord, hchan]
      exact ⟨.inr ⟨rfl, rfl, rfl⟩, rfl⟩
    · rw [hother t' heq] at hown ⊢
      obtain ⟨hlt, hfreed, -⟩ := h.owned t' slave' hown
      rw [hold slave' (Nat.ne_of_lt hlt), hchan_old slave' hlt hfreed]
      exact h.fits t' slave' hown
  · by_cases heq : t' = t
    · subst heq
      rw [hthread]
      exact ⟨nodup_nil, fun slave' hin => by cases hin⟩
    · rw [hother t' heq, hlist]
      refine ⟨(h.rest t').1, fun slave' hin => ?_⟩
      obtain ⟨hin', hown⟩ := (h.rest t').2 slave' hin
      exact ⟨mem_append_left _ hin', hown⟩

end Slaves

end Sandboxie.ComServer
