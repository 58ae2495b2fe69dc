import Sandboxie.Svc.MountManager

/-!
# What the parts of the mount manager leave

The mounts, junctions and devices that a step makes and removes do not touch a root whose mount is
being unmounted.  `Calm` says what the parts of a step change of roots and mounts; it is the same
for all of them.
-/

namespace Sandboxie.MountManager

open State

/-- The event is as the lock discipline wants it. -/
def Event.Fine : Event → Prop
  | gotRoot pRoot before after => pRoot.isSome ↔ after = before + 1
  | returned before after => after = before
  | left held => 0 < held
  | usedMount mount => mount ≠ none
  | usedRoot alive => alive = true
  | _ => True

variable {T : Type}

/-- Everything has a number below the next. -/
structure Bounded (s : State T) : Prop where
  map : ∀ r ∈ s.m_RootMap.values, r < s.nextRoot
  root : ∀ r, s.nextRoot ≤ r → (s.roots r).mount = none
  mount : ∀ r m, (s.roots r).mount = some m → m < s.nextMount
  ramDisk : ∀ m, s.m_RamDisk = some m → m < s.nextMount

/-- Only the mounts of roots of a kind change, no mount begins or ends to be unmounted,
and the RAM disk changes to a new mount. -/
structure Calm (own : RootId → Prop) (s s' : State T) : Prop where
  critSec : s'.m_CritSec = s.m_CritSec
  map : s'.m_RootMap = s.m_RootMap
  threads : s'.threads = s.threads
  nextRoot : s'.nextRoot = s.nextRoot
  roots : ∀ r, ¬ own r → (s'.roots r).mount = (s.roots r).mount
  nextMount : s.nextMount ≤ s'.nextMount
  unmounting : ∀ m, m < s.nextMount → (s'.mounts m).unmounting = (s.mounts m).unmounting
  mount : ∀ r m, (s'.roots r).mount = some m →
    (s.roots r).mount = some m ∨ own r ∧ m < s'.nextMount
  ramDisk : s'.m_RamDisk = s.m_RamDisk ∨
    ∀ m, s'.m_RamDisk = some m → s.nextMount ≤ m ∧ m < s'.nextMount
  log : ∀ e ∈ s'.log, e ∈ s.log ∨ e.Fine

section Calm

variable {own : RootId → Prop} {s s' s'' : State T}

theorem Calm.refl (s : State T) : Calm own s s :=
  ⟨rfl, rfl, rfl, rfl, fun _ _ => rfl, le_rfl, fun _ _ => rfl, fun _ _ => .inl, .inl rfl,
    fun _ => .inl⟩

theorem Calm.trans (h : Calm own s s') (h' : Calm own s' s'') : Calm own s s'' where
  critSec := h'.critSec.trans h.critSec
  map := h'.map.trans h.map
  threads := h'.threads.trans h.threads
  nextRoot := h'.nextRoot.trans h.nextRoot
  roots r hr := (h'.roots r hr).trans (h.roots r hr)
  nextMount := h.nextMount.trans h'.nextMount
  unmounting m hm := (h'.unmounting m (hm.trans_le h.nextMount)).trans (h.unmounting m hm)
  mount r m hm := by
    rcases h'.mount r m hm with hm' | hnew
    · rcases h.mount r m hm' with hm'' | ⟨hown, hlt⟩
      · exact .inl hm''
      · exact .inr ⟨hown, hlt.trans_le h'.nextMount⟩
    · exact .inr hnew
  ramDisk := by
    rcases h'.ramDisk with heq | hnew
    · rcases h.ramDisk with heq' | hnew'
      · exact .inl (heq.trans heq')
      · refine .inr fun m hm => ?_
        obtain ⟨hle, hlt⟩ := hnew' m (heq ▸ hm)
        exact ⟨hle, hlt.trans_le h'.nextMount⟩
    · refine .inr fun m hm => ?_
      obtain ⟨hle, hlt⟩ := hnew m hm
      exact ⟨h.nextMount.trans hle, hlt⟩
  log e he := by
    rcases h'.log e he with he' | hfine
    · exact h.log e he'
    · exact .inr hfine

theorem Bounded.calm (h : Bounded s) (hc : Calm own s s') (hown : ∀ r, own r → r < s.nextRoot) :
    Bounded s' where
  map r hr := by
    rw [hc.map] at hr
    rw [hc.nextRoot]
    exact h.map r hr
  root r hr := by
    rw [hc.nextRoot] at hr
    rw [hc.roots r fun hr' => absurd (hown r hr') (Nat.not_lt.mpr hr)]
    exact h.root r hr
  mount r m hm := by
    rcases hc.mount r m hm with hm' | ⟨-, hlt⟩
    · exact (h.mount r m hm').trans_le hc.nextMount
    · exact hlt
  ramDisk m hm := by
    rcases hc.ramDisk with heq | hnew
    · exact (h.ramDisk m (heq ▸ hm)).trans_le hc.nextMount
    · exact (hnew m hm).2

theorem calm_note {e : Event} (he : e.Fine) (s : State T) : Calm own s (s.note e) :=
  { Calm.refl s with
    log := fun _ he' => (List.mem_cons.mp he').elim (fun heq => .inr (heq ▸ he)) .inl }

theorem calm_devices (devices : List Device) (s : State T) :
    Calm own s { s with devices := devices } :=
  { Calm.refl s with }

theorem calm_junctions (junctions : List WChar → Option (List WChar)) (s : State T) :
    Calm own s { s with junctions := junctions } :=
  { Calm.refl s with }

theorem calm_newMount (device : List WChar) (s : State T) : Calm own s (s.newMount device).2 :=
  { Calm.refl s with
    nextMount := Nat.le_succ _
    unmounting := fun m hm => by
      show (Function.update s.mounts s.nextMount _ m).unmounting = _
      rw [Function.update_of_ne (Nat.ne_of_lt hm)]
    mount := fun _ _ => .inl
    ramDisk := .inl rfl }

@[simp] theorem setRoot_self (s : State T) (r : RootId) (root : BoxRoot) :
    (s.setRoot r root).roots r = root := Function.update_self _ _ _

theorem calm_setRoot {r : RootId} {root : BoxRoot} (s : State T)
    (h : ∀ m, root.mount = some m → m < s.nextMount) :
    Calm (· = r) s (s.setRoot r root) :=
  { (Calm.refl s : Calm (· = r) s s) with
    roots := fun r' hr' => congrArg BoxRoot.mount (Function.update_of_ne hr' _ _)
    mount := fun r' m hm => by
      have hm' : (Function.update s.roots r root r').mount = some m := hm
      by_cases hr : r' = r
      · subst hr
        rw [Function.update_self] at hm'
        exact .inr ⟨rfl, h m hm'⟩
      · rw [Function.update_of_ne hr] at hm'
        exact .inl hm' }

theorem calm_setRoot_same {r : RootId} {root : BoxRoot} (h : root.mount = (s.roots r).mount) :
    Calm own s (s.setRoot r root) := by
  have hroots : ∀ r', ((s.setRoot r root).roots r').mount = (s.roots r').mount := fun r' => by
    show (Function.update s.roots r root r').mount = _
    by_cases hr : r' = r
    · subst hr
      rw [Function.update_self, h]
    · rw [Function.update_of_ne hr]
  exact { (Calm.refl s : Calm own s s) with
    roots := fun r' _ => hroots r'
    mount := fun r' m hm => .inl (hroots r' ▸ hm) }

theorem calm_checkMount (m : Option MountId) (s : State T) : Calm own s (s.checkMount m) := by
  cases m with
  | none => exact Calm.refl s
  | some m =>
    unfold checkMount
    dsimp only
    split_ifs
    · refine { Calm.refl s with unmounting := fun m' _ => ?_ }
      show (Function.update s.mounts m _ m').unmounting = _
      by_cases hm : m' = m
      · subst hm
        rw [Function.update_self]
      · rw [Function.update_of_ne hm]
    · exact Calm.refl s

def New (s : State T) (r : Option MountId × State T) : Prop :=
  ∀ m, r.1 = some m → s.nextMount ≤ m ∧ m < r.2.nextMount

theorem new_none (s : State T) : New s (none, s) := fun _ h => nomatch h

theorem newMount_new (device : List WChar) (s : State T) :
    New s (some (s.newMount device).1, (s.newMount device).2) := by
  intro m hm
  obtain rfl : s.nextMount = m := Option.some.inj hm
  exact ⟨le_rfl, Nat.lt_succ_self _⟩

variable (env : Env)

theorem calm_findImDisk (imageFile : List WChar) (a : Answers) (s : State T) :
    Calm own s (s.findImDisk env imageFile a).2 ∧ New s (s.findImDisk env imageFile a) := by
  unfold findImDisk
  split
  · split
    · exact ⟨Calm.refl s, new_none s⟩
    · exact ⟨calm_newMount _ s, newMount_new _ s⟩
  · exact ⟨Calm.refl s, new_none s⟩

theorem calm_mountImDisk (imageFile : List WChar) (a : Answers) (s : State T) :
    Calm own s (s.mountImDisk imageFile a).2 ∧ New s (s.mountImDisk imageFile a) := by
  unfold mountImDisk
  split
  · exact ⟨Calm.refl s, new_none s⟩
  · split_ifs
    · exact ⟨Calm.refl s, new_none s⟩
    · exact ⟨(calm_devices _ s).trans (calm_newMount _ _), newMount_new _ _⟩

theorem calm_unmountImDisk (device : List WChar) (used : Bool) (a : Answers) (s : State T) :
    Calm own s (s.unmountImDisk device used a).2 := by
  unfold unmountImDisk
  dsimp only
  split_ifs
  · exact (calm_devices _ s).trans (calm_note (e := .removedDevice _) trivial _)
  · exact Calm.refl s

theorem calm_createJunction (target file_root : List WChar) (a : Answers)
    (s : State T) : Calm own s (s.createJunction env target file_root a).2 := by
  have hnote : ∀ inUse, Calm own s (s.note (.removedJunction inUse)) :=
    fun inUse => calm_note (e := .removedJunction inUse) trivial s
  unfold createJunction
  dsimp only
  cases s.junctions (env.key file_root) with
  | none =>
    dsimp only
    split_ifs
    · exact Calm.refl s
    · exact calm_junctions _ s
    · exact Calm.refl s
  | some old =>
    dsimp only
    split_ifs
    · exact Calm.refl s
    · exact Calm.refl s
    · exact Calm.refl s
    · exact (hnote _).trans (calm_junctions _ _)
    · exact (hnote _).trans (calm_junctions _ _)

theorem calm_removeJunction (path : List WChar) (used : Bool) (a : Answers)
    (s : State T) : Calm own s (s.removeJunction env path used a) := by
  unfold removeJunction
  dsimp only
  split_ifs
  · exact (calm_junctions _ s).trans (calm_note (e := .removedJunction _) trivial _)
  · exact Calm.refl s

theorem removeJunction_ramDisk (path : List WChar) (used : Bool) (a : Answers)
    (s : State T) : (s.removeJunction env path used a).m_RamDisk = s.m_RamDisk := by
  unfold removeJunction
  dsimp only
  split_ifs <;> rfl

theorem calm_ramDisk {r : Option MountId × State T} (hc : Calm own s r.2) (hnew : New s r) :
    Calm own s { r.2 with m_RamDisk := r.1 } :=
  { hc with ramDisk := .inr hnew }

theorem calm_provideRamDisk (a : Answers) (s : State T) :
    Calm own s (s.provideRamDisk env a) := by
  have hmount : ∀ s : State T, Calm own s
      { (s.mountImDisk [] a).2 with m_RamDisk := (s.mountImDisk [] a).1 } :=
    fun s => by
      have hboth : Calm own s _ ∧ New s _ := calm_mountImDisk [] a s
      exact calm_ramDisk hboth.1 hboth.2
  have hfind : Calm own s
      { (s.findImDisk env [] a).2 with m_RamDisk := (s.findImDisk env [] a).1 } := by
    have hboth : Calm own s _ ∧ New s _ := calm_findImDisk env [] a s
    exact calm_ramDisk hboth.1 hboth.2
  unfold provideRamDisk
  dsimp only
  split_ifs
  · exact hfind.trans (hmount _)
  · exact hfind
  · exact hmount s
  · exact Calm.refl s

theorem calm_provideImage (imageFile : List WChar) (a : Answers) (s : State T) :
    Calm own s (s.provideImage env imageFile a).2 ∧
      ∀ m, (s.provideImage env imageFile a).1 = some m →
        m < (s.provideImage env imageFile a).2.nextMount := by
  have hfind : Calm own s _ ∧ New s _ := calm_findImDisk env imageFile a s
  unfold provideImage
  split
  · next m s' heq =>
    rw [heq] at hfind
    exact ⟨hfind.1, fun m' hm' => (hfind.2 m' hm').2⟩
  · next s' heq =>
    rw [heq] at hfind
    have hmount : Calm own s' _ ∧ New s' _ := calm_mountImDisk imageFile a s'
    exact ⟨hfind.1.trans hmount.1, fun m' hm' => (hmount.2 m' hm').2⟩

theorem calm_provideDisk (file_root : List WChar) (useRamDisk : Bool) (a : Answers)
    (s : State T) (hb : Bounded s) :
    Calm own s (s.provideDisk env file_root useRamDisk a).2 ∧
      ∀ m, (s.provideDisk env file_root useRamDisk a).1 = some m →
        m < (s.provideDisk env file_root useRamDisk a).2.nextMount := by
  cases useRamDisk with
  | true =>
    refine ⟨calm_provideRamDisk env a s, ?_⟩
    have hc : Calm (fun _ => False) s _ := calm_provideRamDisk env a s
    exact (hb.calm hc fun _ => False.elim).ramDisk
  | false => exact calm_provideImage env _ a s

theorem calm_provideMount (r : RootId) (file_root : List WChar) (useRamDisk : Bool)
    (a : Answers) (s : State T) (hb : Bounded s) (hr : r < s.nextRoot) :
    Calm (· = r) s (s.provideMount env r file_root useRamDisk a).2 := by
  have hdisk : Calm (· = r) s _ ∧ _ := calm_provideDisk env file_root useRamDisk a s hb
  generalize hp : s.provideDisk env file_root useRamDisk a = p at hdisk
  have hset : Calm (· = r) s (p.2.setRoot r { p.2.roots r with mount := p.1 }) :=
    hdisk.1.trans (calm_setRoot _ hdisk.2)
  unfold provideMount
  rw [hp]
  dsimp only
  split_ifs
  · exact Calm.refl s
  · exact hset
  · refine hset.trans (calm_setRoot _ fun m hm => ?_)
    exact (hb.calm hset fun _ h => h ▸ hr).mount r m hm
  · exact Calm.refl s

theorem provideMount_mount (r : RootId) (file_root : List WChar) (useRamDisk : Bool)
    (a : Answers) (s : State T) (h : (s.provideMount env r file_root useRamDisk a).1 = 0) :
    ((s.provideMount env r file_root useRamDisk a).2.roots r).mount ≠ none := by
  unfold provideMount at h ⊢
  generalize s.provideDisk env file_root useRamDisk a = p at h ⊢
  dsimp only at h ⊢
  have hdisk : ∀ (s : State T) (m : Option MountId), s.noDisk m ≠ true → m ≠ none := by
    rintro s m hno rfl
    exact hno rfl
  split_ifs at h ⊢ with hcert hno hno'
  · show (((p.2.setRoot r _).setRoot r _).roots r).mount ≠ none
    rw [setRoot_self]
    show ((p.2.setRoot r _).roots r).mount ≠ none
    rw [setRoot_self]
    exact hdisk _ _ hno'
  · exact hdisk s _ hno

end Calm

end Sandboxie.MountManager
