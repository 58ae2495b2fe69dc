import Sandboxie.Svc.ComServer

/-!
# The invariant of the COM proxy server

A slave belongs to one thread at a time, and then its map and its events are where that thread
has left them, or as far on as the slave has come.  A slave that belongs to nobody waits, or is
dead.
-/

namespace Sandboxie.ComServer

open State

/-- The slave sees the request that was handed over, and a reply is its answer. -/
def Event.Fine : Event → Prop
  | saw map posted => ∀ tag, posted = some tag → map = .request tag
  | replied map tag => ∃ procNum1, map = .answer (some tag) true procNum1

/-! ### Places -/

/-- The thread has `m_SlavesLock`. -/
def Place.locks : Place → Bool
  | create _ _ | deleting _ _ | notifyNext _ _ _ | notifyWait _ _ _ _ _ => true
  | _ => false

/-- The slave that the thread has. -/
def Place.owns : Place → Option SlaveId
  | write slave _ _ | wait slave _ _ | answered slave _ _ | fail slave _ | deleting slave _
  | notifyWait slave _ _ _ _ => some slave
  | _ => none

def Place.deletes : Place → Option SlaveId
  | deleting slave _ => some slave
  | _ => none

def Place.rest : Place → List SlaveId
  | notifyNext rest _ _ | notifyWait _ rest _ _ _ | deleting _ (.notify rest _ _) => rest
  | _ => []

theorem Place.owns_of_deletes {place : Place} {slave : SlaveId}
    (h : place.deletes = some slave) : place.owns = some slave := by
  cases place with
  | deleting slave' next => exact h
  | _ => exact nomatch h

theorem Place.deletes_of_owns {place : Place} (h : place.owns = none) : place.deletes = none := by
  cases place with
  | deleting slave next => exact nomatch h
  | _ => rfl

theorem Place.locks_of_rest {place : Place} {slave : SlaveId} (h : slave ∈ place.rest) :
    place.locks = true := by
  cases place with
  | deleting slave' next => rfl
  | notifyNext rest skipped retry => rfl
  | notifyWait slave' rest skipped retry tag => rfl
  | _ => exact nomatch h

/-! ### The invariant -/

/-- Nothing is going on, unless the slave is dead. -/
def Ready (process : Process) (c : Channel) : Prop :=
  process = .dead ∨ process = .waiting ∧ c.hEvent1 = false ∧ c.hEvent2 = false

/-- The request has been handed over, is worked on, or has been answered. -/
def Called (tag : Nat) (process : Process) (c : Channel) : Prop :=
  process = .dead ∨
  (process = .waiting ∧ c.hEvent1 = true ∧ c.hEvent2 = false ∧ c.map = .request tag) ∨
  (process = .working (some tag) ∧ c.hEvent1 = false ∧ c.hEvent2 = false) ∨
  (process = .waiting ∧ c.hEvent1 = false ∧ c.hEvent2 = true ∧
    ∃ exc0 procNum1, c.map = .answer (some tag) exc0 procNum1)

/-- What a thread relies on that has the slave. -/
def Fits (place : Place) (process : Process) (c : Channel) (posted : Option Nat) : Prop :=
  match place with
  | .write _ _ tag => Ready process c ∧ c.map = .header tag
  | .wait _ _ tag | .fail _ tag | .notifyWait _ _ _ _ tag =>
    Called tag process c ∧ posted = some tag
  | .answered _ tag exc0 => Ready process c ∧
    ∃ procNum1, c.map = .answer (some tag) exc0 procNum1
  | .deleting _ _ => posted = none
  | _ => True

variable {T : Type} [DecidableEq T]

structure Inv (s : State T) : Prop where
  slavesLock : ∀ t, CriticalSection.held s.m_SlavesLock t = if (s.threads t).locks then 1 else 0
  lock : ∀ slave t, CriticalSection.held (s.slaves slave).lock t =
    if (s.threads t).owns = some slave then 1 else 0
  nodup : s.m_SlavesList.Nodup
  listed : ∀ slave ∈ s.m_SlavesList, slave < s.nextSlave ∧ (s.slaves slave).freed = false
  /-- A slave that has left the list is being deleted. -/
  unlisted : ∀ slave, slave < s.nextSlave → (s.slaves slave).freed = false →
    slave ∉ s.m_SlavesList → ∃ t, (s.threads t).deletes = some slave
  owned : ∀ t slave, (s.threads t).owns = some slave → slave < s.nextSlave ∧
    (s.slaves slave).freed = false ∧ (slave ∈ s.m_SlavesList ↔ (s.threads t).deletes = none)
  gone : ∀ slave, (s.slaves slave).freed = true → (s.slaves slave).process = .dead
  keys : ∀ slave slave', slave < s.nextSlave → slave' < s.nextSlave →
    (s.slaves slave).freed = false → (s.slaves slave').freed = false →
    (s.slaves slave).key = (s.slaves slave').key → slave = slave'
  ready : ∀ slave ∈ s.m_SlavesList, (∀ t, (s.threads t).owns ≠ some slave) →
    Ready (s.slaves slave).process (s.chan slave)
  fits : ∀ t slave, (s.threads t).owns = some slave →
    Fits (s.threads t) (s.slaves slave).process (s.chan slave) (s.slaves slave).posted
  rest : ∀ t, (s.threads t).rest.Nodup ∧ ∀ slave ∈ (s.threads t).rest,
    slave ∈ s.m_SlavesList ∧ (s.threads t).owns ≠ some slave

/-- What is added to the log is fine. -/
def Logs (s s' : State T) : Prop := ∀ e ∈ s'.log, e ∈ s.log ∨ e.Fine

section Inv

variable {t t' : T} {s s' : State T} {slave : SlaveId}

theorem Inv.owner_unique (h : Inv s) (ht : (s.threads t).owns = some slave)
    (ht' : (s.threads t').owns = some slave) : t' = t := by
  by_contra hne
  have hheld := h.lock slave t
  have hheld' := h.lock slave t'
  rw [if_pos ht] at hheld
  rw [if_pos ht', CriticalSection.held_other (by rw [hheld]; exact Nat.one_pos) hne] at hheld'
  exact nomatch hheld'

theorem Inv.locks_unique (h : Inv s) (ht : (s.threads t).locks = true)
    (ht' : (s.threads t').locks = true) : t' = t := by
  by_contra hne
  have hheld := h.slavesLock t
  have hheld' := h.slavesLock t'
  rw [if_pos ht] at hheld
  rw [if_pos ht', CriticalSection.held_other (by rw [hheld]; exact Nat.one_pos) hne] at hheld'
  exact nomatch hheld'

theorem Inv.chan_ne (h : Inv s) {slave' : SlaveId} (hlt : slave < s.nextSlave)
    (hlt' : slave' < s.nextSlave) (hfreed : (s.slaves slave).freed = false)
    (hfreed' : (s.slaves slave').freed = false) (hne : slave' ≠ slave) :
    (s.slaves slave').key ≠ (s.slaves slave).key :=
  fun hkey => hne (h.keys slave' slave hlt' hlt hfreed' hfreed hkey)

/-- A step of `t` that has to do with one slave. -/
structure Turn (t : T) (slave : SlaveId) (place : Place) (record : Slave T) (c : Channel)
    (s s' : State T) : Prop where
  threads : s'.threads = Function.update s.threads t place
  slaves : s'.slaves = Function.update s.slaves slave record
  chans : s'.chans = Function.update s.chans (s.slaves slave).key c
  key : record.key = (s.slaves slave).key
  nextSlave : s'.nextSlave = s.nextSlave

section Turn

variable {place : Place} {record : Slave T} {c : Channel}

theorem Turn.thread (ht : Turn t slave place record c s s') : s'.threads t = place := by
  rw [ht.threads, Function.update_self]

theorem Turn.other (ht : Turn t slave place record c s s') (hne : t' ≠ t) :
    s'.threads t' = s.threads t' := by
  rw [ht.threads, Function.update_of_ne hne]

theorem Turn.record_eq (ht : Turn t slave place record c s s') : s'.slaves slave = record := by
  rw [ht.slaves, Function.update_self]

theorem Turn.slave_other (ht : Turn t slave place record c s s') {slave' : SlaveId}
    (hne : slave' ≠ slave) : s'.slaves slave' = s.slaves slave' := by
  rw [ht.slaves, Function.update_of_ne hne]

theorem Turn.chan (ht : Turn t slave place record c s s') : s'.chan slave = c := by
  rw [State.chan, ht.record_eq, ht.key, ht.chans, Function.update_self]

theorem Turn.key_eq (ht : Turn t slave place record c s s') (slave' : SlaveId) :
    (s'.slaves slave').key = (s.slaves slave').key := by
  by_cases hne : slave' = slave
  · rw [hne, ht.record_eq, ht.key]
  · rw [ht.slave_other hne]

theorem Turn.chan_other (ht : Turn t slave place record c s s') {slave' : SlaveId}
    (hkey : (s.slaves slave').key ≠ (s.slaves slave).key) : s'.chan slave' = s.chan slave' := by
  rw [State.chan, ht.key_eq, ht.chans, Function.update_of_ne hkey]
  rfl

/-! ### The parts of a step -/

section Parts

variable {s₁ s₂ : State T}

theorem Turn.refl (t : T) (slave : SlaveId) (s : State T) :
    Turn t slave (s.threads t) (s.slaves slave) (s.chan slave) s s :=
  ⟨(Function.update_eq_self ..).symm, (Function.update_eq_self ..).symm,
    (Function.update_eq_self ..).symm, rfl, rfl⟩

theorem Turn.same (ht : Turn t slave place record c s s₁) (hthreads : s₂.threads = s₁.threads)
    (hslaves : s₂.slaves = s₁.slaves) (hchans : s₂.chans = s₁.chans)
    (hnext : s₂.nextSlave = s₁.nextSlave) : Turn t slave place record c s s₂ :=
  ⟨hthreads.trans ht.threads, hslaves.trans ht.slaves, hchans.trans ht.chans, ht.key,
    hnext.trans ht.nextSlave⟩

theorem Turn.goto (ht : Turn t slave place record c s s₁) (place' : Place) :
    Turn t slave place' record c s (s₁.goto t place') := by
  refine ⟨?_, ht.slaves, ht.chans, ht.key, ht.nextSlave⟩
  show Function.update s₁.threads t place' = _
  rw [ht.threads, Function.update_idem]

theorem Turn.setSlave (ht : Turn t slave place record c s s₁) {record' : Slave T}
    (hkey : record'.key = record.key) :
    Turn t slave place record' c s (s₁.setSlave slave record') := by
  refine ⟨ht.threads, ?_, ht.chans, hkey.trans ht.key, ht.nextSlave⟩
  show Function.update s₁.slaves slave record' = _
  rw [ht.slaves, Function.update_idem]

theorem Turn.setChan (ht : Turn t slave place record c s s₁) (c' : Channel) :
    Turn t slave place record c' s (s₁.setChan slave c') := by
  refine ⟨ht.threads, ht.slaves, ?_, ht.key, ht.nextSlave⟩
  show Function.update s₁.chans (s₁.slaves slave).key c' = _
  rw [ht.key_eq, ht.chans, Function.update_idem]

theorem Turn.leaveSlave (ht : Turn t slave place record c s s₁) :
    Turn t slave place { record with lock := CriticalSection.leave t record.lock } c s
      (s₁.leaveSlave t slave) := by
  rw [State.leaveSlave, ht.record_eq]
  exact ht.setSlave rfl

theorem Turn.post (ht : Turn t slave place record c s s₁) (tag : Nat) (map : Content) :
    Turn t slave place { record with posted := some tag }
      { c with map := map, hEvent1 := true } s (s₁.post slave tag map) := by
  rw [State.post, ht.chan, ht.record_eq]
  exact (ht.setChan _).setSlave rfl

theorem Turn.deleteSlave (ht : Turn t slave place record c s s₁) (next : Then) :
    Turn t slave (.deleting slave next) { record with posted := none }
      { c with map := .exit, hEvent1 := true } s (s₁.deleteSlave t slave next) := by
  have ht' : Turn t slave place record c s
      { s₁ with m_SlavesList := s₁.m_SlavesList.erase slave } := ht.same rfl rfl rfl rfl
  have hset := (ht'.setChan { c with map := .exit, hEvent1 := true }).setSlave
    (show ({ record with posted := none } : Slave T).key = record.key from rfl)
  show Turn _ _ _ _ _ s (((State.setChan slave
    { State.chan { s₁ with m_SlavesList := s₁.m_SlavesList.erase slave } slave with
      map := .exit, hEvent1 := true }
    { s₁ with m_SlavesList := s₁.m_SlavesList.erase slave }).setSlave slave
      { s₁.slaves slave with posted := none }).goto t (.deleting slave next))
  rw [ht'.chan, ht.record_eq]
  exact hset.goto _

theorem Turn.locked (ht : Turn t slave place record c s s₁) (msgid : Nat) :
    Turn t slave (.write slave msgid s₁.nextTag) record { c with map := .header s₁.nextTag } s
      (s₁.locked t slave msgid) := by
  have hset := ht.setChan { c with map := .header s₁.nextTag }
  have hset' : Turn t slave place record { c with map := .header s₁.nextTag } s
      { State.setChan slave { c with map := .header s₁.nextTag } s₁ with
        nextTag := s₁.nextTag + 1
        m_SlavesLock := CriticalSection.leave t s₁.m_SlavesLock } := hset.same rfl rfl rfl rfl
  have hgo := hset'.goto (.write slave msgid s₁.nextTag)
  have hchan := ht.chan
  subst hchan
  exact hgo

theorem Turn.free (ht : Turn t slave place record c s s₁) :
    Turn t slave place { record with lock := none, process := .dead, freed := true } c s
      (s₁.free slave) := by
  rw [State.free, ht.record_eq]
  exact ht.setSlave rfl

end Parts

end Turn

/-- The list after a step. -/
structure Lists (t : T) (slave : SlaveId) (place : Place) (record : Slave T) (s s' : State T) :
    Prop where
  nodup : s'.m_SlavesList.Nodup
  others : ∀ slave', slave' ≠ slave → (slave' ∈ s'.m_SlavesList ↔ slave' ∈ s.m_SlavesList)
  mem : slave ∈ s'.m_SlavesList ↔ record.freed = false ∧ place.deletes = none
  /-- Who erases it from the list has the lock. -/
  locks : slave ∉ s'.m_SlavesList → slave ∈ s.m_SlavesList →
    ∀ t', t' ≠ t → (s.threads t').locks = false
  rest : place.rest.Nodup ∧ ∀ slave' ∈ place.rest, slave' ∈ s'.m_SlavesList ∧
    place.owns ≠ some slave'

theorem Inv.turn {place : Place} {record : Slave T} {c : Channel} (h : Inv s)
    (ht : Turn t slave place record c s s') (hl : Lists t slave place record s s')
    (hlt : slave < s.nextSlave) (hfreed : (s.slaves slave).freed = false)
    (hother : ∀ t', t' ≠ t → (s.threads t').owns ≠ some slave)
    (hbefore : ∀ slave', (s.threads t).owns = some slave' → slave' = slave)
    (hafter : ∀ slave', place.owns = some slave' → slave' = slave)
    (hslaves : ∀ t', CriticalSection.held s'.m_SlavesLock t' =
      if t' = t then (if place.locks then 1 else 0) else CriticalSection.held s.m_SlavesLock t')
    (hlock : ∀ t', CriticalSection.held record.lock t' =
      if t' = t ∧ place.owns = some slave then 1 else 0)
    (howns : place.owns = some slave → record.freed = false)
    (hgone : record.freed = true → record.process = .dead)
    (hfits : place.owns = some slave → Fits place record.process c record.posted)
    (hready : place.owns ≠ some slave → record.freed = false → Ready record.process c) :
    Inv s' := by
  -- what is freed stays freed
  have hunfreed : ∀ slave', (s'.slaves slave').freed = false → (s.slaves slave').freed = false := by
    intro slave' h'
    by_cases heq : slave' = slave
    · rw [heq]
      exact hfreed
    · rw [ht.slave_other heq] at h'
      exact h'
  -- another slave is as before
  have hkept : ∀ slave', slave' ≠ slave → slave' < s.nextSlave →
      (s.slaves slave').freed = false → s'.slaves slave' = s.slaves slave' ∧
        s'.chan slave' = s.chan slave' := fun slave' hne hlt' hfreed' =>
    ⟨ht.slave_other hne, ht.chan_other (h.chan_ne hlt hlt' hfreed hfreed' hne)⟩
  have hdeletes : place.deletes ≠ none → place.owns = some slave := by
    intro hne
    obtain ⟨slave', hdel⟩ := Option.ne_none_iff_exists'.mp hne
    have hown := Place.owns_of_deletes hdel
    rw [hown, hafter slave' hown]
  refine ⟨fun t' => ?_, fun slave' t' => ?_, hl.nodup, fun slave' hin => ?_,
    fun slave' hlt' hfreed' hout => ?_, fun t' slave' hown => ?_,
    fun slave' hfreed' => ?_, fun slave₁ slave₂ h₁ h₂ hf₁ hf₂ hkey => ?_,
    fun slave' hin hnone => ?_, fun t' slave' hown => ?_, fun t' => ?_⟩
  · rw [hslaves]
    by_cases heq : t' = t
    · rw [if_pos heq, heq, ht.thread]
    · rw [if_neg heq, ht.other heq]
      exact h.slavesLock t'
  · by_cases hsl : slave' = slave
    · subst hsl
      rw [ht.record_eq, hlock]
      by_cases heq : t' = t
      · simp only [heq, true_and, ht.thread]
      · rw [if_neg fun hand => heq hand.1, ht.other heq, if_neg (hother t' heq)]
    · rw [ht.slave_other hsl, h.lock]
      by_cases heq : t' = t
      · rw [heq, ht.thread, if_neg fun hown => hsl (hbefore slave' hown),
          if_neg fun hown => hsl (hafter slave' hown)]
      · rw [ht.other heq]
  · rw [ht.nextSlave]
    by_cases hsl : slave' = slave
    · subst hsl
      rw [ht.record_eq]
      exact ⟨hlt, (hl.mem.mp hin).1⟩
    · rw [ht.slave_other hsl]
      exact h.listed slave' ((hl.others slave' hsl).mp hin)
  · rw [ht.nextSlave] at hlt'
    by_cases hsl : slave' = slave
    · subst hsl
      rw [ht.record_eq] at hfreed'
      refine ⟨t, ?_⟩
      rw [ht.thread]
      have hne : place.deletes ≠ none := fun hnone => hout (hl.mem.mpr ⟨hfreed', hnone⟩)
      obtain ⟨slave'', hdel⟩ := Option.ne_none_iff_exists'.mp hne
      rw [hdel, hafter slave'' (Place.owns_of_deletes hdel)]
    · obtain ⟨t', hdel⟩ := h.unlisted slave' hlt' (hunfreed slave' hfreed')
        fun hin => hout ((hl.others slave' hsl).mpr hin)
      refine ⟨t', ?_⟩
      rw [ht.other]
      · exact hdel
      · rintro rfl
        exact hsl (hbefore slave' (Place.owns_of_deletes hdel))
  · rw [ht.nextSlave]
    by_cases heq : t' = t
    · subst heq
      rw [ht.thread] at hown ⊢
      obtain rfl := hafter slave' hown
      rw [ht.record_eq]
      exact ⟨hlt, howns hown, hl.mem.trans (and_iff_right (howns hown))⟩
    · rw [ht.other heq] at hown ⊢
      have hsl : slave' ≠ slave := fun heq' => hother t' heq (heq' ▸ hown)
      rw [ht.slave_other hsl, hl.others slave' hsl]
      exact h.owned t' slave' hown
  · by_cases hsl : slave' = slave
    · subst hsl
      rw [ht.record_eq] at hfreed' ⊢
      exact hgone hfreed'
    · rw [ht.slave_other hsl] at hfreed' ⊢
      exact h.gone slave' hfreed'
  · rw [ht.nextSlave] at h₁ h₂
    rw [ht.key_eq, ht.key_eq] at hkey
    exact h.keys slave₁ slave₂ h₁ h₂ (hunfreed _ hf₁) (hunfreed _ hf₂) hkey
  · by_cases hsl : slave' = slave
    · subst hsl
      rw [ht.record_eq, ht.chan]
      have hnone' := hnone t
      rw [ht.thread] at hnone'
      exact hready hnone' (hl.mem.mp hin).1
    · have hin' := (hl.others slave' hsl).mp hin
      obtain ⟨hlt', hfreed'⟩ := h.listed slave' hin'
      obtain ⟨hrec, hchan⟩ := hkept slave' hsl hlt' hfreed'
      rw [hrec, hchan]
      refine h.ready slave' hin' fun t' hown => ?_
      by_cases heq : t' = t
      · subst heq
        exact hsl (hbefore slave' hown)
      · refine hnone t' ?_
        rw [ht.other heq]
        exact hown
  · by_cases heq : t' = t
    · subst heq
      rw [ht.thread] at hown ⊢
      obtain rfl := hafter slave' hown
      rw [ht.record_eq, ht.chan]
      exact hfits hown
    · rw [ht.other heq] at hown ⊢
      have hsl : slave' ≠ slave := fun heq' => hother t' heq (heq' ▸ hown)
      obtain ⟨hlt', hfreed', -⟩ := h.owned t' slave' hown
      obtain ⟨hrec, hchan⟩ := hkept slave' hsl hlt' hfreed'
      rw [hrec, hchan]
      exact h.fits t' slave' hown
  · by_cases heq : t' = t
    · subst heq
      rw [ht.thread]
      exact hl.rest
    · rw [ht.other heq]
      refine ⟨(h.rest t').1, fun slave' hin => ?_⟩
      obtain ⟨hin', hown⟩ := (h.rest t').2 slave' hin
      refine ⟨?_, hown⟩
      by_cases hsl : slave' = slave
      · subst hsl
        by_contra hout
        have hlocks := hl.locks hout hin' t' heq
        rw [Place.locks_of_rest hin] at hlocks
        exact nomatch hlocks
      · exact (hl.others slave' hsl).mpr hin'

end Inv

end Sandboxie.ComServer
