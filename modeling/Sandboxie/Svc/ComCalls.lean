import Sandboxie.Svc.ComTurn

/-!
# The steps of the COM proxy server keep its invariant

A thread takes a slave, goes on with the slave it has, deletes it, or has none before and after.
-/

namespace Sandboxie.ComServer

open State

section Steps

variable {T : Type} [DecidableEq T] {t t' : T} {s s' : State T} {slave : SlaveId} {place : Place}
  {record : Slave T} {c : Channel} {lock : CriticalSection T}

/-! ### Locks -/

theorem Inv.held_kept (h : Inv s) (hlocks : place.locks = (s.threads t).locks) (t' : T) :
    CriticalSection.held s.m_SlavesLock t' = if t' = t then (if place.locks then 1 else 0)
      else CriticalSection.held s.m_SlavesLock t' := by
  by_cases heq : t' = t
  · rw [if_pos heq, heq, h.slavesLock, hlocks]
  · rw [if_neg heq]

theorem Inv.held_taken (h : Inv s) (henter : CriticalSection.enter t s.m_SlavesLock = some lock)
    (hout : (s.threads t).locks = false) (hlocks : place.locks = true) (t' : T) :
    CriticalSection.held lock t' = if t' = t then (if place.locks then 1 else 0)
      else CriticalSection.held s.m_SlavesLock t' := by
  rw [CriticalSection.held_enter_eq henter, h.slavesLock t, hout, hlocks]
  rfl

theorem Inv.held_left (h : Inv s) (hin : (s.threads t).locks = true)
    (hlocks : place.locks = false) (t' : T) :
    CriticalSection.held (CriticalSection.leave t s.m_SlavesLock) t' =
      if t' = t then (if place.locks then 1 else 0)
      else CriticalSection.held s.m_SlavesLock t' := by
  rw [CriticalSection.held_leave_eq, h.slavesLock t, hin, hlocks]
  rfl

theorem Inv.lock_kept (h : Inv s) (hown : (s.threads t).owns = some slave)
    (hown' : place.owns = some slave) (t' : T) :
    CriticalSection.held (s.slaves slave).lock t' =
      if t' = t ∧ place.owns = some slave then 1 else 0 := by
  rw [h.lock]
  by_cases heq : t' = t
  · rw [heq, if_pos hown, if_pos ⟨rfl, hown'⟩]
  · rw [if_neg fun hown'' => heq (h.owner_unique hown hown''), if_neg fun hand => heq hand.1]

theorem Inv.lock_taken (h : Inv s)
    (henter : CriticalSection.enter t (s.slaves slave).lock = some lock)
    (hout : (s.threads t).owns ≠ some slave) (hown : place.owns = some slave) (t' : T) :
    CriticalSection.held lock t' = if t' = t ∧ place.owns = some slave then 1 else 0 := by
  by_cases heq : t' = t
  · rw [heq, CriticalSection.held_enter henter, h.lock, if_neg hout, if_pos ⟨rfl, hown⟩]
  · rw [CriticalSection.held_enter_other henter heq, if_neg fun hand => heq hand.1]

theorem Inv.lock_left (h : Inv s) (hown : (s.threads t).owns = some slave)
    (hnone : place.owns ≠ some slave) (t' : T) :
    CriticalSection.held (CriticalSection.leave t (s.slaves slave).lock) t' =
      if t' = t ∧ place.owns = some slave then 1 else 0 := by
  have hneg : ¬(t' = t ∧ place.owns = some slave) := fun hand => hnone hand.2
  rw [CriticalSection.held_leave_eq, h.lock slave t, if_pos hown, if_neg hneg, h.lock slave t']
  by_cases heq : t' = t
  · rw [if_pos heq]
  · rw [if_neg heq, if_neg fun hown' => heq (h.owner_unique hown hown')]

theorem Inv.alone (h : Inv s) (henter : CriticalSection.enter t (s.slaves slave).lock = some lock)
    (hne : t' ≠ t) : (s.threads t').owns ≠ some slave := by
  intro hown
  have hheld := h.lock slave t'
  rw [if_pos hown, CriticalSection.alone_of_enter henter hne] at hheld
  exact nomatch hheld

/-! ### A thread without a slave -/

theorem Inv.plain (h : Inv s) (hbefore : (s.threads t).owns = none) (hafter : place.owns = none)
    (hslaves : ∀ t', CriticalSection.held lock t' =
      if t' = t then (if place.locks then 1 else 0) else CriticalSection.held s.m_SlavesLock t')
    (hrest : place.rest.Nodup ∧ ∀ slave' ∈ place.rest, slave' ∈ s.m_SlavesList) :
    Inv (({ s with m_SlavesLock := lock } : State T).goto t place) := by
  have hself : Function.update s.threads t place t = place := Function.update_self ..
  have hothers : ∀ t', t' ≠ t → Function.update s.threads t place t' = s.threads t' :=
    fun t' hne => Function.update_of_ne hne ..
  have howns : ∀ t', (Function.update s.threads t place t').owns = (s.threads t').owns := by
    intro t'
    by_cases heq : t' = t
    · rw [heq, hself, hbefore, hafter]
    · rw [hothers t' heq]
  have hdeletes : ∀ t', (Function.update s.threads t place t').deletes =
      (s.threads t').deletes := by
    intro t'
    by_cases heq : t' = t
    · rw [heq, hself, Place.deletes_of_owns hbefore, Place.deletes_of_owns hafter]
    · rw [hothers t' heq]
  refine ⟨fun t' => ?_, fun slave' t' => ?_, h.nodup, h.listed, fun slave' hlt hfreed hout => ?_,
    fun t' slave' hown => ?_, h.gone, h.keys, fun slave' hin hnone => ?_, fun t' slave' hown => ?_,
    fun t' => ?_⟩
  · show CriticalSection.held lock t' =
      if (Function.update s.threads t place t').locks then 1 else 0
    rw [hslaves]
    by_cases heq : t' = t
    · rw [if_pos heq, heq, hself]
    · rw [if_neg heq, hothers t' heq]
      exact h.slavesLock t'
  · exact (h.lock slave' t').trans (by rw [← howns t']; rfl)
  · obtain ⟨t', hdel⟩ := h.unlisted slave' hlt hfreed hout
    exact ⟨t', (hdeletes t').trans hdel⟩
  · obtain ⟨hlt, hfreed, hin⟩ := h.owned t' slave' ((howns t').symm.trans hown)
    exact ⟨hlt, hfreed, hin.trans (by rw [← hdeletes t']; rfl)⟩
  · exact h.ready slave' hin fun t' hown => hnone t' ((howns t').trans hown)
  · by_cases heq : t' = t
    · subst heq
      exact nomatch hbefore.symm.trans ((howns t').symm.trans hown)
    · have hfits := h.fits t' slave' ((howns t').symm.trans hown)
      rw [← hothers t' heq] at hfits
      exact hfits
  · by_cases heq : t' = t
    · subst heq
      show (Function.update s.threads t' place t').rest.Nodup ∧
        ∀ slave' ∈ (Function.update s.threads t' place t').rest, slave' ∈ s.m_SlavesList ∧
          (Function.update s.threads t' place t').owns ≠ some slave'
      rw [hself, hafter]
      exact ⟨hrest.1, fun slave' hin => ⟨hrest.2 slave' hin, nofun⟩⟩
    · have hthread := h.rest t'
      rw [← hothers t' heq] at hthread
      exact hthread

/-! ### A thread with a slave -/

theorem Inv.own (h : Inv s) (ht : Turn t slave place record c s s')
    (hown : (s.threads t).owns = some slave) (hlist : s'.m_SlavesList = s.m_SlavesList)
    (hslaves : s'.m_SlavesLock = s.m_SlavesLock) (hlocks : place.locks = (s.threads t).locks)
    (hdel : (s.threads t).deletes = none) (hdel' : place.deletes = none)
    (hafter : ∀ slave', place.owns = some slave' → slave' = slave)
    (hfreed : record.freed = (s.slaves slave).freed)
    (hlock : ∀ t', CriticalSection.held record.lock t' =
      if t' = t ∧ place.owns = some slave then 1 else 0)
    (hrest : place.rest = [] ∨ place.rest = (s.threads t).rest)
    (hfits : place.owns = some slave → Fits place record.process c record.posted)
    (hready : place.owns ≠ some slave → Ready record.process c) : Inv s' := by
  obtain ⟨hlt, hfreed', hin⟩ := h.owned t slave hown
  have hin' := hin.mpr hdel
  have hunfreed : record.freed = false := hfreed.trans hfreed'
  refine h.turn ht ⟨?_, fun slave' _ => ?_, ?_, fun hout _ => ?_, ?_⟩ hlt hfreed'
    (fun t' hne hown' => hne (h.owner_unique hown hown'))
    (fun slave' hown' => Option.some.inj (hown'.symm.trans hown)) hafter
    (fun t' => hslaves ▸ h.held_kept hlocks t') hlock (fun _ => hunfreed)
    (fun hgone => nomatch hunfreed.symm.trans hgone) hfits fun hnone _ => hready hnone
  · rw [hlist]
    exact h.nodup
  · rw [hlist]
  · rw [hlist]
    exact ⟨fun _ => ⟨hunfreed, hdel'⟩, fun _ => hin'⟩
  · rw [hlist] at hout
    exact absurd hin' hout
  · rcases hrest with hnil | heq
    · rw [hnil]
      exact ⟨List.nodup_nil, nofun⟩
    · rw [heq, hlist]
      refine ⟨(h.rest t).1, fun slave' hmem => ⟨((h.rest t).2 slave' hmem).1, fun hown' => ?_⟩⟩
      exact ((h.rest t).2 slave' hmem).2 (hafter slave' hown' ▸ hown)

theorem Inv.acquire (h : Inv s) (ht : Turn t slave place record c s s')
    (hnone : (s.threads t).owns = none) (hin : slave ∈ s.m_SlavesList)
    (henter : CriticalSection.enter t (s.slaves slave).lock = some lock)
    (hlist : s'.m_SlavesList = s.m_SlavesList) (hslaves : s'.m_SlavesLock = s.m_SlavesLock)
    (hlocks : place.locks = (s.threads t).locks) (hown : place.owns = some slave)
    (hdel : place.deletes = none) (hfreed : record.freed = (s.slaves slave).freed)
    (hlock : record.lock = lock)
    (hrest : place.rest.Nodup ∧ ∀ slave' ∈ place.rest, slave' ∈ s.m_SlavesList ∧ slave' ≠ slave)
    (hfits : Ready (s.slaves slave).process (s.chan slave) →
      Fits place record.process c record.posted) : Inv s' := by
  obtain ⟨hlt, hfreed'⟩ := h.listed slave hin
  have hunfreed : record.freed = false := hfreed.trans hfreed'
  have hout : (s.threads t).owns ≠ some slave := by
    rw [hnone]
    exact nofun
  have hafter : ∀ slave', place.owns = some slave' → slave' = slave := fun slave' hown' =>
    Option.some.inj (hown'.symm.trans hown)
  refine h.turn ht ⟨?_, fun slave' _ => ?_, ?_, fun hout' _ => ?_, ?_⟩ hlt hfreed'
    (fun t' hne => h.alone henter hne) (fun slave' hown' => nomatch hnone.symm.trans hown') hafter
    (fun t' => hslaves ▸ h.held_kept hlocks t')
    (fun t' => hlock ▸ h.lock_taken henter hout hown t') (fun _ => hunfreed)
    (fun hgone => nomatch hunfreed.symm.trans hgone)
    (fun _ => hfits (h.ready slave hin fun t' hown' => ?_)) fun hne _ => absurd hown hne
  · rw [hlist]
    exact h.nodup
  · rw [hlist]
  · rw [hlist]
    exact ⟨fun _ => ⟨hunfreed, hdel⟩, fun _ => hin⟩
  · rw [hlist] at hout'
    exact absurd hin hout'
  · rw [hlist]
    refine ⟨hrest.1, fun slave' hmem => ⟨(hrest.2 slave' hmem).1, fun hown' => ?_⟩⟩
    exact (hrest.2 slave' hmem).2 (hafter slave' hown')
  · by_cases heq : t' = t
    · exact hout (heq ▸ hown')
    · exact h.alone henter heq hown'

/-- **A slave leaves the list.**  The thread has `m_SlavesLock`, and has the slave. -/
theorem Inv.erase (h : Inv s) (ht : Turn t slave place record c s s')
    (hin : slave ∈ s.m_SlavesList) (hlist : s'.m_SlavesList = s.m_SlavesList.erase slave)
    (hother : ∀ t', t' ≠ t → (s.threads t').owns ≠ some slave)
    (hbefore : ∀ slave', (s.threads t).owns = some slave' → slave' = slave)
    (hown : place.owns = some slave) (hdel : place.deletes = some slave)
    (hslaves : ∀ t', CriticalSection.held s'.m_SlavesLock t' =
      if t' = t then (if place.locks then 1 else 0) else CriticalSection.held s.m_SlavesLock t')
    (halone : ∀ t', t' ≠ t → (s.threads t').locks = false)
    (hlock : ∀ t', CriticalSection.held record.lock t' =
      if t' = t ∧ place.owns = some slave then 1 else 0)
    (hfreed : record.freed = (s.slaves slave).freed)
    (hrest : place.rest.Nodup ∧ ∀ slave' ∈ place.rest, slave' ∈ s.m_SlavesList ∧ slave' ≠ slave)
    (hfits : Fits place record.process c record.posted) : Inv s' := by
  obtain ⟨hlt, hfreed'⟩ := h.listed slave hin
  have hafter : ∀ slave', place.owns = some slave' → slave' = slave := fun slave' hown' =>
    Option.some.inj (hown'.symm.trans hown)
  refine h.turn ht ⟨?_, fun slave' hne => ?_, ?_, fun _ _ => halone, ?_⟩ hlt hfreed'
    hother hbefore hafter hslaves hlock (fun _ => hfreed.trans hfreed')
    (fun hgone => nomatch (hfreed.trans hfreed').symm.trans hgone) (fun _ => hfits)
    fun hne _ => absurd hown hne
  · rw [hlist]
    exact h.nodup.erase slave
  · rw [hlist]
    exact List.mem_erase_of_ne hne
  · rw [hlist, hdel]
    exact ⟨fun hmem => absurd hmem h.nodup.not_mem_erase, fun hand => nomatch hand.2⟩
  · refine ⟨hrest.1, fun slave' hmem => ⟨?_, fun hown' => ?_⟩⟩
    · rw [hlist]
      exact (List.mem_erase_of_ne (hrest.2 slave' hmem).2).mpr (hrest.2 slave' hmem).1
    · exact (hrest.2 slave' hmem).2 (hafter slave' hown')

theorem Inv.free (h : Inv s) (ht : Turn t slave place record c s s')
    (hdel : (s.threads t).deletes = some slave) (hlist : s'.m_SlavesList = s.m_SlavesList)
    (hnone : place.owns = none) (hfreed : record.freed = true)
    (hlock : record.lock = none) (hprocess : record.process = .dead)
    (hslaves : ∀ t', CriticalSection.held s'.m_SlavesLock t' =
      if t' = t then (if place.locks then 1 else 0) else CriticalSection.held s.m_SlavesLock t')
    (hrest : place.rest = [] ∨ place.rest = (s.threads t).rest) : Inv s' := by
  have hown := Place.owns_of_deletes hdel
  obtain ⟨hlt, hfreed', hin⟩ := h.owned t slave hown
  have hout : slave ∉ s.m_SlavesList := fun hmem => nomatch hdel.symm.trans (hin.mp hmem)
  have hne : place.owns ≠ some slave := by
    rw [hnone]
    exact nofun
  refine h.turn ht ⟨?_, fun slave' _ => ?_, ?_, fun _ hmem => absurd hmem hout, ?_⟩
    hlt hfreed' (fun t' hne hown' => hne (h.owner_unique hown hown'))
    (fun slave' hown' => Option.some.inj (hown'.symm.trans hown))
    (fun slave' hown' => nomatch hnone.symm.trans hown') hslaves (fun t' => ?_)
    (fun hown' => absurd hown' hne) (fun _ => hprocess) (fun hown' => absurd hown' hne)
    fun _ hunfreed => nomatch hfreed.symm.trans hunfreed
  · rw [hlist]
    exact h.nodup
  · rw [hlist]
  · rw [hlist]
    exact ⟨fun hmem => absurd hmem hout, fun hand => nomatch hfreed.symm.trans hand.1⟩
  · rcases hrest with hnil | heq
    · rw [hnil]
      exact ⟨List.nodup_nil, nofun⟩
    · rw [heq, hlist, hnone]
      exact ⟨(h.rest t).1, fun slave' hmem => ⟨((h.rest t).2 slave' hmem).1, nofun⟩⟩
  · rw [hlock, if_neg fun hand => hne hand.2]
    rfl

end Steps

end Sandboxie.ComServer
