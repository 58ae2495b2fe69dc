import Sandboxie.Svc.MountCalm

/-!
# The invariant of the mount manager

A root whose mount is being unmounted is left alone until its thread is back in the lock.  A
thread that has got a root is in the lock, and the mount of the root is not being unmounted.
-/

namespace Sandboxie.MountManager

open State

variable {T : Type}

/-! ### Places -/

def Place.gotRoot : Place → Option RootId
  | gotBoxRoot _ _ r => some r
  | _ => none

/-- The root in `UnmountImDiskLocked`, and what the thread keeps. -/
def Place.toUnMount : Place → Option (RootId × Option RootId)
  | unmount _ r pRoot _ | unmounted _ r pRoot _ => some (r, pRoot)
  | _ => none

/-- The mount of `MountHandler`. -/
def Place.pMount : Place → Option MountId
  | getBoxRoot (.mountHandler m _ _) _ _ _ | gotBoxRoot (.mountHandler m _ _) _ _ => some m
  | _ => none

/-- How often the operation is in the lock. -/
def Place.inLock (place : Place) : Nat := if place.gotRoot.isSome then 1 else 0

def Place.Running (place : Place) : Prop := place ≠ .idle ∧ place ≠ .dead

theorem Place.running_of_gotRoot {place : Place} {r : RootId} (h : place.gotRoot = some r) :
    place.Running := by
  refine ⟨?_, ?_⟩
  · rintro rfl
    exact nomatch h
  · rintro rfl
    exact nomatch h

theorem Place.gotRoot_of_inLock {place : Place} (h : place.inLock = 0) : place.gotRoot = none := by
  cases hgot : place.gotRoot with
  | none => rfl
  | some r => exact absurd h (by simp [inLock, hgot])

/-! ### The invariant -/

/-- The mount of a root is being unmounted, and a caller that does not keep the root finds it in
the map. -/
def Window (s : State T) (r : RootId) (pRoot : Option RootId) : Prop :=
  ∃ m, (s.roots r).mount = some m ∧ (s.mounts m).unmounting = true ∧
    (pRoot = some r ∨ r ∈ s.m_RootMap.values ∧ s.m_RamDisk ≠ some m)

/-- What a thread relies on at its place. -/
structure Relies (s : State T) (place : Place) : Prop where
  got : ∀ r, place.gotRoot = some r → r < s.nextRoot ∧ s.unmounting r = false
  window : ∀ r pRoot, place.toUnMount = some (r, pRoot) → Window s r pRoot
  mount : ∀ m, place.pMount = some m → m < s.nextMount

/-- The part of the invariant that does not depend on the lock. -/
structure Data (s : State T) : Prop where
  bounded : Bounded s
  relies : ∀ t, Relies s (s.threads t).place
  apart : ∀ t t' r r' pRoot pRoot', t ≠ t' →
    (s.threads t).place.toUnMount = some (r, pRoot) →
    (s.threads t').place.toUnMount = some (r', pRoot') → (s.roots r).mount ≠ (s.roots r').mount

/-- A window stays as it is. -/
def Stays (s s' : State T) (r : RootId) : Prop :=
  ∀ m, (s.roots r).mount = some m → (s.mounts m).unmounting = true →
    (s'.roots r).mount = some m ∧ (s'.mounts m).unmounting = true ∧
      (r ∈ s.m_RootMap.values ∧ s.m_RamDisk ≠ some m →
        r ∈ s'.m_RootMap.values ∧ s'.m_RamDisk ≠ some m)

theorem Window.stays {s s' : State T} {r : RootId} {pRoot : Option RootId} (h : Window s r pRoot)
    (hs : Stays s s' r) : Window s' r pRoot ∧ (s'.roots r).mount = (s.roots r).mount := by
  obtain ⟨m, hm, hunmounting, hkept⟩ := h
  obtain ⟨hm', hunmounting', hkept'⟩ := hs m hm hunmounting
  exact ⟨⟨m, hm', hunmounting', hkept.imp_right hkept'⟩, hm'.trans hm.symm⟩

/-- A step of the thread `t`, seen from the other threads. -/
structure Turn (t : T) (s s' : State T) : Prop where
  threads : ∀ t', t' ≠ t → s'.threads t' = s.threads t'
  nextRoot : s.nextRoot ≤ s'.nextRoot
  nextMount : s.nextMount ≤ s'.nextMount
  bounded : Bounded s'
  got : ∀ t' r, t' ≠ t → (s.threads t').place.gotRoot = some r → s'.unmounting r = false
  stays : ∀ t' r pRoot, t' ≠ t → (s.threads t').place.toUnMount = some (r, pRoot) → Stays s s' r
  relies : Relies s' (s'.threads t).place
  apart : ∀ t' r r' pRoot pRoot', t' ≠ t →
    (s'.threads t).place.toUnMount = some (r, pRoot) →
    (s.threads t').place.toUnMount = some (r', pRoot') → (s'.roots r).mount ≠ (s'.roots r').mount

theorem Data.turn {s s' : State T} {t : T} (h : Data s) (ht : Turn t s s') : Data s' where
  bounded := ht.bounded
  relies t' := by
    by_cases heq : t' = t
    · subst heq
      exact ht.relies
    · rw [ht.threads t' heq]
      refine ⟨fun r hr => ?_, fun r pRoot hw => ?_, fun m hm => ?_⟩
      · exact ⟨((h.relies t').got r hr).1.trans_le ht.nextRoot, ht.got t' r heq hr⟩
      · exact (((h.relies t').window r pRoot hw).stays (ht.stays t' r pRoot heq hw)).1
      · exact ((h.relies t').mount m hm).trans_le ht.nextMount
  apart t₁ t₂ r₁ r₂ pRoot₁ pRoot₂ hne h₁ h₂ := by
    -- a mount of another thread's window has not changed
    have hsame : ∀ t' r pRoot, t' ≠ t → (s.threads t').place.toUnMount = some (r, pRoot) →
        (s'.roots r).mount = (s.roots r).mount := fun t' r pRoot ht' hw =>
      (((h.relies t').window r pRoot hw).stays (ht.stays t' r pRoot ht' hw)).2
    by_cases heq₁ : t₁ = t
    · subst heq₁
      rw [ht.threads t₂ (Ne.symm hne)] at h₂
      exact ht.apart t₂ r₁ r₂ pRoot₁ pRoot₂ (Ne.symm hne) h₁ h₂
    · rw [ht.threads t₁ heq₁] at h₁
      by_cases heq₂ : t₂ = t
      · subst heq₂
        exact (ht.apart t₁ r₂ r₁ pRoot₂ pRoot₁ hne h₂ h₁).symm
      · rw [ht.threads t₂ heq₂] at h₂
        rw [hsame t₁ r₁ pRoot₁ heq₁ h₁, hsame t₂ r₂ pRoot₂ heq₂ h₂]
        exact h.apart t₁ t₂ r₁ r₂ pRoot₁ pRoot₂ hne h₁ h₂

variable [DecidableEq T]

/-- **The invariant.**  A thread that is in an operation, and has not been stopped by a pointer, is
in the lock as often as it was when the operation began, and once more with a root. -/
structure Inv (s : State T) : Prop extends Data s where
  held : ∀ t, (s.threads t).place.Running →
    CriticalSection.held s.m_CritSec t = (s.threads t).base + (s.threads t).place.inLock

/-- What is added to the log is as the lock discipline wants it. -/
def Logs (s s' : State T) : Prop := ∀ e ∈ s'.log, e ∈ s.log ∨ e.Fine

/-! ### Ends of steps -/

/-- A step ends: the thread goes to its place, and the rest is as in `x`. -/
structure Ends (t : T) (place : Place) (x s' : State T) : Prop where
  map : s'.m_RootMap = x.m_RootMap
  ramDisk : s'.m_RamDisk = x.m_RamDisk
  roots : s'.roots = x.roots
  nextRoot : s'.nextRoot = x.nextRoot
  mounts : s'.mounts = x.mounts
  nextMount : s'.nextMount = x.nextMount
  threads : s'.threads = Function.update x.threads t { x.threads t with place := place }
  log : ∀ e ∈ s'.log, e ∈ x.log ∨ e.Fine

section Ends

variable {t : T} {place : Place} {x s s' : State T}

theorem ends_goto (t : T) (place : Place) (x : State T) : Ends t place x (x.goto t place) :=
  ⟨rfl, rfl, rfl, rfl, rfl, rfl, rfl, fun _ => .inl⟩

theorem ends_ret (h : CriticalSection.held x.m_CritSec t = (x.threads t).base) :
    Ends t .idle x (x.ret t) :=
  ⟨rfl, rfl, rfl, rfl, rfl, rfl, rfl, fun _ he =>
    (List.mem_cons.mp he).elim (fun heq => .inr (heq ▸ h)) .inl⟩

theorem ends_leave_goto (h : 0 < CriticalSection.held x.m_CritSec t) (place : Place) :
    Ends t place x ((x.leave t).goto t place) :=
  ⟨rfl, rfl, rfl, rfl, rfl, rfl, rfl, fun _ he =>
    (List.mem_cons.mp he).elim (fun heq => .inr (heq ▸ h)) .inl⟩

theorem ends_leave_ret (h : CriticalSection.held x.m_CritSec t = (x.threads t).base + 1) :
    Ends t .idle x ((x.leave t).ret t) := by
  have hleft : CriticalSection.held (CriticalSection.leave t x.m_CritSec) t =
    (x.threads t).base := by
    rw [CriticalSection.held_leave, h]
    rfl
  refine ⟨rfl, rfl, rfl, rfl, rfl, rfl, rfl, fun e he => ?_⟩
  rcases List.mem_cons.mp he with rfl | he'
  · exact .inr hleft
  · rcases List.mem_cons.mp he' with rfl | he''
    · exact .inr (show 0 < _ by rw [h]; exact Nat.succ_pos _)
    · exact .inl he''

theorem Ends.bounded (he : Ends t place x s') (h : Bounded x) : Bounded s' where
  map r hr := by
    rw [he.map] at hr
    exact he.nextRoot ▸ h.map r hr
  root r hr := by
    rw [he.nextRoot] at hr
    exact he.roots ▸ h.root r hr
  mount r m hm := by
    rw [he.roots] at hm
    exact he.nextMount ▸ h.mount r m hm
  ramDisk m hm := by
    rw [he.ramDisk] at hm
    exact he.nextMount ▸ h.ramDisk m hm

theorem Ends.thread (he : Ends t place x s') :
    s'.threads t = { x.threads t with place := place } := by
  rw [he.threads, Function.update_self]

theorem Ends.others (he : Ends t place x s') {t' : T} (ht' : t' ≠ t) :
    s'.threads t' = x.threads t' := by
  rw [he.threads, Function.update_of_ne ht']

theorem Calm.stays {own : RootId → Prop} (hc : Calm own s x) (he : Ends t place x s')
    (hb : Bounded s) {r : RootId} (hr : ¬ own r) : Stays s s' r := by
  intro m hm hunmounting
  refine ⟨?_, ?_, ?_⟩
  · rw [he.roots, hc.roots r hr]
    exact hm
  · rw [he.mounts, hc.unmounting m (hb.mount r m hm)]
    exact hunmounting
  · rintro ⟨hmem, hram⟩
    rw [he.map, hc.map, he.ramDisk]
    refine ⟨hmem, fun hram' => ?_⟩
    rcases hc.ramDisk with heq | hnew
    · exact hram (heq ▸ hram')
    · exact absurd (hb.mount r m hm) (Nat.not_lt.mpr (hnew m hram').1)

theorem Calm.unmounting_eq {own : RootId → Prop} (hc : Calm own s x) (he : Ends t place x s')
    (hb : Bounded s) {r : RootId} (hr : ¬ own r) : s'.unmounting r = s.unmounting r := by
  unfold State.unmounting
  rw [he.roots, hc.roots r hr, he.mounts]
  cases hm : (s.roots r).mount with
  | none => rfl
  | some m => exact hc.unmounting m (hb.mount r m hm)

theorem Data.ends {own : RootId → Prop} (h : Data s) (hc : Calm own s x) (he : Ends t place x s')
    (hown : ∀ r, own r → r < s.nextRoot)
    (hothers : ∀ t' r, t' ≠ t → ((s.threads t').place.gotRoot = some r ∨
      ∃ pRoot, (s.threads t').place.toUnMount = some (r, pRoot)) → ¬ own r)
    (hgot : place.gotRoot = none)
    (hwindow : place.toUnMount = none ∨ place.toUnMount = (s.threads t).place.toUnMount ∧
      ∀ r, ¬ own r)
    (hmount : ∀ m, place.pMount = some m → m < s'.nextMount) : Data s' := by
  have hstays : ∀ t' r pRoot, (s.threads t').place.toUnMount = some (r, pRoot) → ¬ own r →
      Stays s s' r ∧ (s'.roots r).mount = (s.roots r).mount := fun t' r pRoot hw hr =>
    ⟨hc.stays he h.bounded hr,
      (((h.relies t').window r pRoot hw).stays (hc.stays he h.bounded hr)).2⟩
  have hplace : (s'.threads t).place = place := by rw [he.thread]
  refine h.turn (t := t) ⟨fun t' ht' => ?_, ?_, ?_, ?_, ?_, ?_, ?_, ?_⟩
  · rw [he.others ht', hc.threads]
  · rw [he.nextRoot, hc.nextRoot]
  · rw [he.nextMount]
    exact hc.nextMount
  · exact he.bounded (h.bounded.calm hc hown)
  · intro t' r ht' hr
    rw [hc.unmounting_eq he h.bounded (hothers t' r ht' (.inl hr))]
    exact ((h.relies t').got r hr).2
  · intro t' r pRoot ht' hw
    exact hc.stays he h.bounded (hothers t' r ht' (.inr ⟨pRoot, hw⟩))
  · rw [hplace]
    refine ⟨fun r hr => absurd hr (by rw [hgot]; simp), fun r pRoot hw => ?_, hmount⟩
    rcases hwindow with hnone | ⟨hsame, hown'⟩
    · rw [hnone] at hw
      exact nomatch hw
    · rw [hsame] at hw
      exact (((h.relies t).window r pRoot hw).stays (hc.stays he h.bounded (hown' r))).1
  · intro t' r r' pRoot pRoot' ht' hw hw'
    rw [hplace] at hw
    rcases hwindow with hnone | ⟨hsame, hown'⟩
    · rw [hnone] at hw
      exact nomatch hw
    · rw [hsame] at hw
      rw [(hstays t r pRoot hw (hown' r)).2, (hstays t' r' pRoot' hw' (hown' r')).2]
      exact h.apart t t' r r' pRoot pRoot' (Ne.symm ht') hw hw'

theorem Calm.logs {own : RootId → Prop} (hc : Calm own s x) (he : Ends t place x s') :
    Logs s s' := fun e hin => (he.log e hin).elim (hc.log e) .inr

end Ends

theorem Data.critSec {s : State T} (h : Data s) (cs : CriticalSection T) :
    Data { s with m_CritSec := cs } :=
  ⟨⟨h.bounded.map, h.bounded.root, h.bounded.mount, h.bounded.ramDisk⟩,
    fun t => ⟨(h.relies t).got, (h.relies t).window, (h.relies t).mount⟩, h.apart⟩

/-! ### In the lock -/

/-- The thread is in the lock once more than when its operation began, and no other thread has
got a root. -/
structure Inside (t : T) (s : State T) : Prop where
  data : Data s
  held : CriticalSection.held s.m_CritSec t = (s.threads t).base + 1
  others : ∀ t', t' ≠ t → (s.threads t').place.gotRoot = none
  bases : ∀ t', t' ≠ t → (s.threads t').place.Running → (s.threads t').base = 0

section Inside

variable {t : T} {place : Place} {x s s' : State T}

theorem Inside.pos (hi : Inside t s) : 0 < CriticalSection.held s.m_CritSec t := by
  rw [hi.held]
  exact Nat.succ_pos _

theorem Inv.outside (h : Inv s) (hheld : CriticalSection.held s.m_CritSec t = 0) :
    (s.threads t).place.gotRoot = none ∧
      ((s.threads t).place.Running → (s.threads t).base = 0) := by
  have hsum : (s.threads t).place.Running → (s.threads t).base = 0 ∧
      (s.threads t).place.inLock = 0 := fun hrun => by
    have hheld' := h.held t hrun
    omega
  refine ⟨?_, fun hrun => (hsum hrun).1⟩
  cases hgot : (s.threads t).place.gotRoot with
  | none => rfl
  | some r =>
    have hrun := Place.running_of_gotRoot hgot
    rw [← hgot, Place.gotRoot_of_inLock (hsum hrun).2]

theorem Inv.inside_of_got (h : Inv s) {r : RootId} (hr : (s.threads t).place.gotRoot = some r) :
    Inside t s := by
  have hheld : CriticalSection.held s.m_CritSec t = (s.threads t).base + 1 := by
    rw [h.held t (Place.running_of_gotRoot hr), Place.inLock, hr]
    rfl
  have houtside : ∀ t', t' ≠ t → CriticalSection.held s.m_CritSec t' = 0 := fun t' ht' =>
    CriticalSection.held_other (by rw [hheld]; exact Nat.succ_pos _) ht'
  exact ⟨h.toData, hheld, fun t' ht' => (h.outside (houtside t' ht')).1,
    fun t' ht' => (h.outside (houtside t' ht')).2⟩

theorem Inv.inside_of_enter (h : Inv s) (he : s.enter t = some s')
    (hrun : (s.threads t).place.Running) (hplace : (s.threads t).place.gotRoot = none) :
    Inside t s' ∧ ∃ cs, s' = { s with m_CritSec := cs } := by
  obtain ⟨cs, hcs, rfl⟩ := Option.map_eq_some_iff.mp he
  have houtside : ∀ t', t' ≠ t → CriticalSection.held s.m_CritSec t' = 0 := fun t' ht' =>
    CriticalSection.alone_of_enter hcs ht'
  refine ⟨⟨h.toData.critSec cs, ?_, fun t' ht' => (h.outside (houtside t' ht')).1,
    fun t' ht' => (h.outside (houtside t' ht')).2⟩, cs, rfl⟩
  show CriticalSection.held cs t = (s.threads t).base + 1
  rw [CriticalSection.held_enter hcs, h.held t hrun, Place.inLock, hplace]
  rfl

theorem Inv.entered {f : State T → State T} (h : Inv s) (hgo : (s.enter t).map f = some s')
    (hrun : (s.threads t).place.Running) (hplace : (s.threads t).place.gotRoot = none) :
    ∃ cs, Inside t { s with m_CritSec := cs } ∧ s' = f { s with m_CritSec := cs } := by
  obtain ⟨s₁, he, rfl⟩ := Option.map_eq_some_iff.mp hgo
  obtain ⟨hi, cs, rfl⟩ := h.inside_of_enter he hrun hplace
  exact ⟨cs, hi, rfl⟩

theorem Inside.inv (hi : Inside t s) (hd : Data s') (hothers : ∀ t', t' ≠ t →
      s'.threads t' = s.threads t') (hbase : (s'.threads t).base = (s.threads t).base)
    (hplace : (s'.threads t).place.gotRoot = none)
    (hcs : s'.m_CritSec = CriticalSection.leave t s.m_CritSec) : Inv s' := by
  refine ⟨hd, fun t' hrun => ?_⟩
  rw [hcs]
  by_cases heq : t' = t
  · rw [heq, CriticalSection.held_leave, hi.held, hbase, Place.inLock, hplace]
    rfl
  · rw [hothers t' heq] at hrun ⊢
    rw [CriticalSection.held_leave_other _ heq, CriticalSection.held_other hi.pos heq,
      hi.bases t' heq hrun, Place.inLock, hi.others t' heq]
    rfl

/-- What a step is that keeps the invariant and the discipline. -/
structure Good (s s' : State T) : Prop where
  inv : Inv s'
  logs : Logs s s'

theorem Inside.ends {own : RootId → Prop} (hi : Inside t s) (hc : Calm own s x)
    (he : Ends t place x s') (hcs : s'.m_CritSec = CriticalSection.leave t x.m_CritSec)
    (hown : ∀ r, own r → r < s.nextRoot)
    (hothers : ∀ t' r pRoot, t' ≠ t → (s.threads t').place.toUnMount = some (r, pRoot) → ¬ own r)
    (hgot : place.gotRoot = none) (hwindow : place.toUnMount = none)
    (hmount : ∀ m, place.pMount = some m → m < s'.nextMount) : Good s s' := by
  refine ⟨hi.inv ?_ (fun t' ht' => ?_) ?_ ?_ (hcs.trans (by rw [hc.critSec])), hc.logs he⟩
  · refine hi.data.ends hc he hown (fun t' r ht' hr => ?_) hgot (.inl hwindow) hmount
    rcases hr with hr | ⟨pRoot, hr⟩
    · rw [hi.others t' ht'] at hr
      exact nomatch hr
    · exact hothers t' r pRoot ht' hr
  · rw [he.others ht', hc.threads]
  · rw [he.thread, hc.threads]
  · rw [he.thread]
    exact hgot

end Inside

end Sandboxie.MountManager
