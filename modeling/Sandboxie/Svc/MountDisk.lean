import Sandboxie.Svc.MountLock

/-!
# The disks of the mount manager

What the roots of a run say about their devices.  A device is unmounted for one root, and while
that goes on no other root and not the RAM disk has it, and the root is not used; then every
root that is left has a device that is there.
-/

namespace Sandboxie.MountManager

open State

/-- No junction and no device of a root in use is removed, and no root is left on a device that is
unmounted. -/
def Event.Kind : Event → Prop
  | removedJunction inUse => inUse = false
  | removedDevice inUse => inUse = false
  | unmountDone stale => stale = false
  | _ => True

/-! ### Places -/

def Place.unmounts (device : List WChar) : Place → Bool
  | unmount device' _ _ _ => device' == device
  | _ => false

/-- The device of `UnmountImDiskLocked`, and its root. -/
def Place.disk : Place → Option (List WChar × RootId)
  | unmount device r _ _ | unmounted device r _ _ => some (device, r)
  | _ => none

/-- The operation is `CreateHandler`. -/
def Place.creates : Place → Bool
  | createNew _ | createUnmount _ => true
  | _ => false

variable {T : Type}

/-! ### Conditions -/

def BeingUnmounted (s : State T) (device : List WChar) : Prop :=
  ∃ t, (s.threads t).place.unmounts device = true

def Sole (s : State T) (r : RootId) (device : List WChar) : Prop :=
  (∀ r' ∈ s.m_RootMap.values, r' ≠ r → s.onDevice device (s.roots r').mount = false) ∧
    s.onDevice device s.m_RamDisk = false

/-- The junction that is removed for the root is not the one of another root in use. -/
def OwnJunction (env : Env) (s : State T) (r : RootId) (a : Answers) : Prop :=
  (a.opened && (s.junctions (env.key (s.roots r).path)).isSome) = true →
    ∀ r' ∈ s.m_RootMap.values, r' ≠ r → (s.roots r').inUse = true →
      env.key (s.roots r').path ≠ env.key (s.roots r).path

def SameJunction (env : Env) (s : State T) (target file_root : List WChar) (a : Answers) : Prop :=
  (a.folder && a.opened && a.deleted) = true → ∀ old ∈ s.junctions (env.key file_root),
    Text.sameNoCase env.towlower old target = false →
      s.someInUse (fun root => env.key root.path == env.key file_root) = false

/-- `CreateHandler` is not among the operations, no device vanishes by itself, and unmounting
succeeds. -/
def Succeeds (s : State T) (e : T × Action) : Prop :=
  match e.2, (s.threads e.1).place with
  | .call (.createHandler _), _ => False
  | .lose _, _ => False
  | .go a, .unmount device _ _ _ => a.unmounts = true ∧ IMDISK_DEVICE_LEN < device.length
  | _, _ => True

/-- `AcquireBoxRoot` finds no device that is being unmounted, and replaces no junction. -/
def AcquiresOwn (env : Env) (s : State T) (boxname file_root : List WChar)
    (useRamDisk useFileImage : Bool) (r : RootId) (a : Answers) : Prop :=
  (useRamDisk || useFileImage) = true → a.certified = true →
    (s.noDisk (s.roots r).mount = true → (useRamDisk = true → s.noDisk s.m_RamDisk = true) →
      ∀ d ∈ env.findDevice s.devices (if useRamDisk then [] else env.getImageFileName file_root),
        ¬ BeingUnmounted s d.ntPath) ∧
    ((s.roots r).inUse = false →
      ∀ m ∈ ((s.provideMount env r file_root useRamDisk a).2.roots r).mount,
        SameJunction env s (junctionTarget
          ((s.provideMount env r file_root useRamDisk a).2.mounts m).ntPath boxname useRamDisk)
          file_root a)

/-- The step does not take a device from a root, or a root to a device that goes. -/
def Careful (env : Env) (s : State T) (e : T × Action) : Prop :=
  match e.2, (s.threads e.1).place with
  | .go _, .gotBoxRoot (.mountHandler pMount _ _) _ _ =>
    s.hasDevice (s.mounts pMount).ntPath = true ∧ ¬ BeingUnmounted s (s.mounts pMount).ntPath
  | .go a, .gotBoxRoot .unmountHandler _ r => (s.roots r).inUse = false →
    OwnJunction env s r a ∧ ∀ m ∈ (s.roots r).mount, Sole s r (s.mounts m).ntPath
  | .go a, .gotBoxRoot (.acquireBoxRoot boxname file_root useRamDisk useFileImage) _ r =>
    AcquiresOwn env s boxname file_root useRamDisk useFileImage r a
  | .go a, .mountJunction _ file_root target _ => SameJunction env s target file_root a
  | .go _, .lock reg_root => ∀ r ∈ s.m_RootMap.value reg_root, ∀ m ∈ (s.roots r).mount,
    ¬ BeingUnmounted s (s.mounts m).ntPath
  | .go a, .release reg_root force pRoot => ∀ r ∈ s.m_RootMap.value reg_root,
    ∀ m ∈ (s.roots r).mount, (force || (s.roots r).autoUnmount) = true →
      (pRoot.isSome = true → (s.roots r).inUse = false) ∧ OwnJunction env s r a ∧
        (some m ≠ s.m_RamDisk → Sole s r (s.mounts m).ntPath)
  | _, _ => True

/-! ### The invariant -/

/-- The root of an unmount has its mount for itself. -/
structure Disk (s : State T) (device : List WChar) (r : RootId) : Prop where
  mem : r ∈ s.m_RootMap.values
  mount : ∃ m, (s.roots r).mount = some m ∧ (s.mounts m).ntPath = device ∧
    (∀ r' ∈ s.m_RootMap.values, (s.roots r').mount = some m → r' = r) ∧ s.m_RamDisk ≠ some m

/-- Before the device is removed, no other root has it, and the root is not in use. -/
structure Alone (s : State T) (device : List WChar) (r : RootId) (used : Bool) : Prop where
  used : used = false
  inUse : (s.roots r).inUse = false
  there : s.hasDevice device = true
  sole : Sole s r device

structure Kept (s : State T) : Prop where
  named : ∀ m, m < s.nextMount → (s.mounts m).ntPath ≠ []
  devices : ∀ d ∈ s.devices, d.ntPath ≠ []
  single : ∀ k k' r, s.m_RootMap.value k = some r → s.m_RootMap.value k' = some r → k = k'
  creates : ∀ t, (s.threads t).place.creates = false
  got : ∀ t r, (s.threads t).place.gotRoot = some r → r ∈ s.m_RootMap.values
  disk : ∀ t device r, (s.threads t).place.disk = some (device, r) → Disk s device r
  alone : ∀ t device r pRoot used, (s.threads t).place = .unmount device r pRoot used →
    Alone s device r used
  ok : ∀ t device r pRoot ok, (s.threads t).place = .unmounted device r pRoot ok → ok = true
  apart : ∀ t t' device r r', t ≠ t' → (s.threads t).place.disk = some (device, r) →
    (s.threads t').place.disk ≠ some (device, r')
  /-- The mount of a `MountHandler` is its own. -/
  own : ∀ t m, (s.threads t).place.pMount = some m →
    (∀ r, (s.roots r).mount ≠ some m) ∧ s.m_RamDisk ≠ some m
  ownApart : ∀ t t' m, t ≠ t' → (s.threads t).place.pMount = some m →
    (s.threads t').place.pMount ≠ some m
  mounted : ∀ r ∈ s.m_RootMap.values, ∀ m, (s.roots r).mount = some m →
    s.hasDevice (s.mounts m).ntPath = true ∨
      ∃ t device pRoot ok, (s.threads t).place = .unmounted device r pRoot ok
  ramDisk : ∀ m, s.m_RamDisk = some m → s.hasDevice (s.mounts m).ntPath = true
  kind : ∀ e ∈ s.log, e.Kind

/-- A mount that a root or the RAM disk gets in a step of `t`. -/
structure Given (t : T) (s s' : State T) (m : MountId) : Prop where
  there : s'.hasDevice (s'.mounts m).ntPath = true
  free : ∀ t' device r, t' ≠ t → (s.threads t').place.disk = some (device, r) →
    (s.roots r).mount ≠ some m
  stays : ∀ t', t' ≠ t → (s.threads t').place.unmounts (s'.mounts m).ntPath = false

/-- What a step of `t` does that removes no device. -/
structure Moves (t : T) (s s' : State T) : Prop where
  threads : ∀ t', t' ≠ t → s'.threads t' = s.threads t'
  nextMount : s.nextMount ≤ s'.nextMount
  ntPath : ∀ m, m < s.nextMount → (s'.mounts m).ntPath = (s.mounts m).ntPath
  named : ∀ m, s.nextMount ≤ m → m < s'.nextMount → (s'.mounts m).ntPath ≠ []
  devices : ∀ d ∈ s'.devices, d.ntPath ≠ []
  hasDevice : ∀ device, s.hasDevice device = true → s'.hasDevice device = true
  single : ∀ k k' r, s'.m_RootMap.value k = some r → s'.m_RootMap.value k' = some r → k = k'
  creates : (s'.threads t).place.creates = false
  got : ∀ t' r, t' ≠ t → (s.threads t').place.gotRoot = some r → r ∈ s'.m_RootMap.values
  roots : ∀ r ∈ s'.m_RootMap.values, r ∈ s.m_RootMap.values ∧
    (s'.roots r).mount = (s.roots r).mount ∨ ∀ m, (s'.roots r).mount = some m → Given t s s' m
  ramDisk : s'.m_RamDisk = s.m_RamDisk ∨ ∀ m, s'.m_RamDisk = some m → Given t s s' m
  stay : ∀ t' device r, t' ≠ t → (s.threads t').place.disk = some (device, r) →
    r ∈ s'.m_RootMap.values ∧ (s'.roots r).mount = (s.roots r).mount
  inUse : ∀ t' device r pRoot used, t' ≠ t → (s.threads t').place = .unmount device r pRoot used →
    (s'.roots r).inUse = false
  own : ∀ t' m, t' ≠ t → (s.threads t').place.pMount = some m →
    (∀ r, (s'.roots r).mount ≠ some m) ∧ s'.m_RamDisk ≠ some m
  gone : ∀ device r pRoot ok, (s.threads t).place = .unmounted device r pRoot ok →
    r ∉ s'.m_RootMap.values
  kind : ∀ e ∈ s'.log, e ∈ s.log ∨ e.Kind

/-- What is true of the new place of the thread. -/
structure Goes (t : T) (s' : State T) (place : Place) : Prop where
  got : ∀ r, place.gotRoot = some r → r ∈ s'.m_RootMap.values
  disk : ∀ device r, place.disk = some (device, r) → Disk s' device r
  alone : ∀ device r pRoot used, place = .unmount device r pRoot used → Alone s' device r used
  ok : ∀ device r pRoot ok, place = .unmounted device r pRoot ok → ok = true
  apart : ∀ t' device r r', t' ≠ t → place.disk = some (device, r) →
    (s'.threads t').place.disk ≠ some (device, r')
  own : ∀ m, place.pMount = some m → (∀ r, (s'.roots r).mount ≠ some m) ∧ s'.m_RamDisk ≠ some m
  ownApart : ∀ t' m, t' ≠ t → place.pMount = some m → (s'.threads t').place.pMount ≠ some m

theorem goes_plain {t : T} {s' : State T} {place : Place} (hgot : place.gotRoot = none)
    (hdisk : place.disk = none) (hmount : place.pMount = none) : Goes t s' place where
  got r hr := absurd hr (by rw [hgot]; simp)
  disk device r h := absurd h (by rw [hdisk]; simp)
  alone device r pRoot used h := by
    rw [h] at hdisk
    exact nomatch hdisk
  ok device r pRoot ok h := by
    rw [h] at hdisk
    exact nomatch hdisk
  apart t' device r r' _ h := absurd h (by rw [hdisk]; simp)
  own m h := absurd h (by rw [hmount]; simp)
  ownApart t' m _ h := absurd h (by rw [hmount]; simp)

theorem Place.disk_of_unmounts {place : Place} {device : List WChar}
    (h : place.unmounts device = true) :
    ∃ r pRoot used, place = .unmount device r pRoot used := by
  cases place with
  | unmount device' r pRoot used =>
    obtain rfl : device' = device := by simpa [unmounts] using h
    exact ⟨r, pRoot, used, rfl⟩
  | _ => exact absurd h (by simp [unmounts])

theorem onDevice_some {s : State T} {device : List WChar} {m : MountId} :
    s.onDevice device (some m) = true ↔ (s.mounts m).ntPath = device := by
  simp [State.onDevice]

theorem Kept.moves {t : T} {s s' : State T} (h : Kept s) (hb : Bounded s) (hm : Moves t s s')
    (hg : Goes t s' (s'.threads t).place) : Kept s' := by
  -- a mount that is left has its device as before
  have hon : ∀ device m, m < s.nextMount →
    s'.onDevice device (some m) = s.onDevice device (some m) :=
    fun device m hlt => by rw [State.onDevice, State.onDevice, hm.ntPath m hlt]
  have hdisk : ∀ t' device r, t' ≠ t → (s.threads t').place.disk = some (device, r) →
      Disk s' device r := by
    intro t' device r ht' hw
    obtain ⟨-, m, hmount, hpath, hsole, hram⟩ := h.disk t' device r hw
    obtain ⟨hmem', hmount'⟩ := hm.stay t' device r ht' hw
    refine ⟨hmem', m, hmount'.trans hmount, ?_, ?_, ?_⟩
    · rw [hm.ntPath m (hb.mount r m hmount), hpath]
    · intro r' hr' hmr'
      rcases hm.roots r' hr' with ⟨hold, hsame⟩ | hgiven
      · exact hsole r' hold (hsame.symm.trans hmr')
      · exact absurd hmount ((hgiven m hmr').free t' device r ht' hw)
    · intro hram'
      rcases hm.ramDisk with hsame | hgiven
      · exact hram (hsame.symm.trans hram')
      · exact absurd hmount ((hgiven m hram').free t' device r ht' hw)
  have halone : ∀ t' device r pRoot used, t' ≠ t →
      (s.threads t').place = .unmount device r pRoot used → Alone s' device r used := by
    intro t' device r pRoot used ht' hw
    have hold := h.alone t' device r pRoot used hw
    have hunmounts : (s.threads t').place.unmounts device = true := by
      rw [hw]
      exact beq_self_eq_true device
    have hnot : ∀ m, Given t s s' m → s'.onDevice device (some m) = false := by
      intro m hgiven
      by_contra hyes
      have hpath := onDevice_some.mp (Bool.eq_true_of_not_eq_false hyes)
      have hstays := hgiven.stays t' ht'
      rw [hpath, hunmounts] at hstays
      exact nomatch hstays
    refine ⟨hold.used, hm.inUse t' device r pRoot used ht' hw, hm.hasDevice device hold.there, ?_,
      ?_⟩
    · intro r' hr' hne
      cases hmount : (s'.roots r').mount with
      | none => rfl
      | some m =>
        rcases hm.roots r' hr' with ⟨hin, hsame⟩ | hgiven
        · have hmount' : (s.roots r').mount = some m := hsame.symm.trans hmount
          rw [hon device m (hb.mount r' m hmount'), ← hmount']
          exact hold.sole.1 r' hin hne
        · exact hnot m (hgiven m hmount)
    · cases hram : s'.m_RamDisk with
      | none => rfl
      | some m =>
        rcases hm.ramDisk with hsame | hgiven
        · have hram' : s.m_RamDisk = some m := hsame.symm.trans hram
          rw [hon device m (hb.ramDisk m hram'), ← hram']
          exact hold.sole.2
        · exact hnot m (hgiven m hram)
  have hplace : ∀ t', t' ≠ t → (s'.threads t').place = (s.threads t').place := fun t' ht' => by
    rw [hm.threads t' ht']
  refine ⟨?_, hm.devices, hm.single, ?_, ?_, ?_, ?_, ?_, ?_, ?_, ?_, ?_, ?_, ?_⟩
  · intro m hlt
    by_cases hold : m < s.nextMount
    · rw [hm.ntPath m hold]
      exact h.named m hold
    · exact hm.named m (Nat.not_lt.mp hold) hlt
  · intro t'
    by_cases heq : t' = t
    · exact heq ▸ hm.creates
    · rw [hplace t' heq]
      exact h.creates t'
  · intro t' r hr
    by_cases heq : t' = t
    · subst heq
      exact hg.got r hr
    · rw [hplace t' heq] at hr
      exact hm.got t' r heq hr
  · intro t' device r hw
    by_cases heq : t' = t
    · subst heq
      exact hg.disk device r hw
    · rw [hplace t' heq] at hw
      exact hdisk t' device r heq hw
  · intro t' device r pRoot used hw
    by_cases heq : t' = t
    · subst heq
      exact hg.alone device r pRoot used hw
    · rw [hplace t' heq] at hw
      exact halone t' device r pRoot used heq hw
  · intro t' device r pRoot ok hw
    by_cases heq : t' = t
    · subst heq
      exact hg.ok device r pRoot ok hw
    · rw [hplace t' heq] at hw
      exact h.ok t' device r pRoot ok hw
  · intro t₁ t₂ device r r' hne h₁ h₂
    by_cases heq₁ : t₁ = t
    · subst heq₁
      exact hg.apart t₂ device r r' (Ne.symm hne) h₁ h₂
    · by_cases heq₂ : t₂ = t
      · subst heq₂
        exact hg.apart t₁ device r' r hne h₂ h₁
      · rw [hplace t₁ heq₁] at h₁
        rw [hplace t₂ heq₂] at h₂
        exact h.apart t₁ t₂ device r r' hne h₁ h₂
  · intro t' m hw
    by_cases heq : t' = t
    · subst heq
      exact hg.own m hw
    · rw [hplace t' heq] at hw
      exact hm.own t' m heq hw
  · intro t₁ t₂ m hne h₁ h₂
    by_cases heq₁ : t₁ = t
    · subst heq₁
      exact hg.ownApart t₂ m (Ne.symm hne) h₁ h₂
    · by_cases heq₂ : t₂ = t
      · subst heq₂
        exact hg.ownApart t₁ m hne h₂ h₁
      · rw [hplace t₁ heq₁] at h₁
        rw [hplace t₂ heq₂] at h₂
        exact h.ownApart t₁ t₂ m hne h₁ h₂
  · intro r hr m hmount
    rcases hm.roots r hr with ⟨hin, hsame⟩ | hgiven
    · have hmount' : (s.roots r).mount = some m := hsame.symm.trans hmount
      rw [hm.ntPath m (hb.mount r m hmount')]
      refine (h.mounted r hin m hmount').imp (hm.hasDevice _) ?_
      rintro ⟨t', device, pRoot, ok, hw⟩
      by_cases heq : t' = t
      · subst heq
        exact absurd hr (hm.gone device r pRoot ok hw)
      · exact ⟨t', device, pRoot, ok, (hplace t' heq).trans hw⟩
    · exact Or.inl (hgiven m hmount).there
  · intro m hram
    rcases hm.ramDisk with hsame | hgiven
    · have hram' : s.m_RamDisk = some m := hsame.symm.trans hram
      rw [hm.ntPath m (hb.ramDisk m hram')]
      exact hm.hasDevice _ (h.ramDisk m hram')
    · exact (hgiven m hram).there
  · intro e he
    exact (hm.kind e he).elim (h.kind e) id

end Sandboxie.MountManager
