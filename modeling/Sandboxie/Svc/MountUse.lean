import Sandboxie.Svc.MountAcquire

/-!
# Mounts in use

Every step keeps the disks, so no device and no junction of a root in use goes, and no root is
left on a device that is unmounted.
-/

namespace Sandboxie.MountManager

open State List

/-- The branches that take a device only from a root that is alone with it and not in use. -/
def MeetsUse {T : Type} (env : Env) (s : State T) (e : T × Action) : Prop :=
  Waits s e ∧ Succeeds s e ∧ Careful env s e

/-- A root or the RAM disk is on a device that does not exist only until `UnmountImDiskLocked` is
back. -/
def State.NoStale {T : Type} (s : State T) : Prop :=
  ∀ device, s.stale device = true →
    ∃ t r pRoot ok, (s.threads t).place = .unmounted device r pRoot ok

variable {T : Type}

section Steps

variable {t : T} {s x s' : State T} {env : Env} {a : Answers} [DecidableEq T]

theorem kept_erase (hi : Inside t s) (h : Kept s) {k : List WChar} {r : RootId}
    (hp : Parts t s x) (hval : s.m_RootMap.value k = some r)
    (hfree : ∀ m, (s.roots r).mount = some m → s.m_RamDisk = some m)
    (hgone : (s.threads t).place.Elsewhere) :
    Kept (((x.erase k).leave t).ret t) := by
  have hc := closes_leave_ret t (x.erase k)
  have hmoves := hp.moves_map _ h hc rfl (fun k' r' hk' => ?_) (fun t' r' ht' hr' => ?_)
    fun device r' pRoot ok hw => absurd hw (hgone device r' pRoot ok)
  · refine h.moves hi.data.bounded hmoves ?_
    rw [hc.place]
    exact goes_plain rfl rfl rfl
  · rw [SortedMap.value_filter] at hk'
    split_ifs at hk'
    rw [← hp.map]
    exact hk'
  · rcases hr' with hr' | ⟨device, hw⟩
    · rw [hi.others t' ht'] at hr'
      exact nomatch hr'
    · obtain ⟨hmem, m, hm, -, -, hram⟩ := h.disk t' device r' hw
      obtain ⟨k', hk'⟩ := SortedMap.mem_values.mp hmem
      refine SortedMap.mem_values.mpr ⟨k', ?_⟩
      rw [SortedMap.value_filter, if_pos, hp.map]
      · exact hk'
      · refine bne_iff_ne.mpr fun heq => hram (hfree m ?_)
        rw [heq, hval] at hk'
        obtain rfl : r = r' := Option.some.inj hk'
        exact hm

/-- `ReleaseBoxRoot`, for a use that ends and a device that is its own. -/
theorem kept_releaseBoxRoot (hi : Inside t s) (h : Kept s) {reg_root : List WChar} {force : Bool}
    {pRoot : Option RootId} (hplace : (s.threads t).place = .release reg_root force pRoot)
    (hwaits : ∀ r ∈ s.m_RootMap.value reg_root, ∀ m ∈ (s.roots r).mount,
      (force || (s.roots r).autoUnmount) = true → some m ≠ s.m_RamDisk →
        (s.mounts m).unmounting = false)
    (hcareful : ∀ r ∈ s.m_RootMap.value reg_root, ∀ m ∈ (s.roots r).mount,
      (force || (s.roots r).autoUnmount) = true →
        (pRoot.isSome = true → (s.roots r).inUse = false) ∧ OwnJunction env s r a ∧
          (some m ≠ s.m_RamDisk → Sole s r (s.mounts m).ntPath)) :
    Kept (s.releaseBoxRoot env t reg_root force pRoot a) := by
  have hb := hi.data.bounded
  have hgone : (s.threads t).place.Elsewhere := by rw [hplace]; exact nofun
  unfold State.releaseBoxRoot
  cases hval : s.m_RootMap.value reg_root with
  | none => exact h.plain hb (parts_refl h) (closes_leave_ret t s) rfl rfl rfl rfl hgone
  | some r =>
    have hmem : r ∈ s.m_RootMap.values := SortedMap.mem_values.mpr ⟨reg_root, hval⟩
    have hother : ∀ r', r' ≠ r →
        (s.setRoot r { s.roots r with inUse := false }).roots r' = s.roots r' :=
      fun r' hr' => Function.update_of_ne hr' _ _
    have hself : (s.setRoot r { s.roots r with inUse := false }).roots r =
        { s.roots r with inUse := false } := setRoot_self s r _
    have hmap : (s.setRoot r { s.roots r with inUse := false }).m_RootMap = s.m_RootMap := rfl
    have hlinks : (s.setRoot r { s.roots r with inUse := false }).junctions = s.junctions := rfl
    have hgrows : Grows s (s.setRoot r { s.roots r with inUse := false }) :=
      { Grows.refl s with }
    have hramDisk : (s.setRoot r { s.roots r with inUse := false }).m_RamDisk = s.m_RamDisk := rfl
    dsimp only
    generalize s.setRoot r { s.roots r with inUse := false } = x at *
    have hmount : ∀ r', (x.roots r').mount = (s.roots r').mount := fun r' => by
      by_cases heq : r' = r
      · rw [heq, hself]
      · rw [hother r' heq]
    have hinUse : ∀ r', (x.roots r').inUse = true → (s.roots r').inUse = true := fun r' hr' => by
      by_cases heq : r' = r
      · rw [heq, hself] at hr'
        exact nomatch hr'
      · rw [← hother r' heq]
        exact hr'
    have hp : Parts t s x := parts_same h hgrows hmount hinUse hramDisk
    rw [hmount r]
    cases hm : (s.roots r).mount with
    | none =>
      refine kept_erase hi h hp hval (fun m hm' => ?_) hgone
      rw [hm] at hm'
      exact nomatch hm'
    | some m =>
      dsimp only
      have hauto : (x.roots r).autoUnmount = (s.roots r).autoUnmount := by rw [hself]
      rw [hauto]
      by_cases hforce : (force || (s.roots r).autoUnmount) = true
      · rw [if_pos hforce]
        obtain ⟨hends, hjunction, hsole⟩ := hcareful r hval m hm hforce
        -- only a use that an operation from outside ends
        have hused : ((s.roots r).inUse && pRoot.isSome) = false := by
          cases hsome : pRoot.isSome with
          | false => exact Bool.and_false _
          | true => rw [hends hsome, Bool.false_and]
        have hfree : (x.roots r).inUse = false := by rw [hself]
        have hpath : (x.roots r).path = (s.roots r).path := by rw [hself]
        have hjunction' : OwnJunction env x r a := by
          intro hopened r' hr' hne hin
          rw [hpath, hlinks] at hopened
          rw [hmap] at hr'
          rw [hpath, hother r' hne]
          exact hjunction hopened r' hr' hne (hinUse r' hin)
        obtain ⟨hg, hroots⟩ := grows_removeJunction hjunction' hfree
        have hram := removeJunction_ramDisk env (x.roots r).path false a x
        rw [hused]
        generalize x.removeJunction env (x.roots r).path false a = y at hg hroots hram
        have hmount' : ∀ r', (y.roots r').mount = (s.roots r').mount := fun r' => by
          rw [hroots]
          exact hmount r'
        have hinUse' : ∀ r', (y.roots r').inUse = true → (s.roots r').inUse = true := fun r' => by
          rw [hroots]
          exact hinUse r'
        have hram' : y.m_RamDisk = s.m_RamDisk := hram.trans hramDisk
        rw [hram']
        by_cases heq : some m = s.m_RamDisk
        · rw [if_pos heq]
          refine kept_erase hi h (parts_same h (hgrows.trans hg) hmount' hinUse' hram') hval
            (fun m' hm' => ?_) hgone
          rw [← heq, ← hm, hm']
        · rw [if_neg heq]
          have hnot : s.unmounting r = false := by
            rw [State.unmounting, hm]
            exact hwaits r hval m hm hforce heq
          refine kept_unmount hi h (hgrows.trans hg) hmount' hinUse' hram' hmem hm hnot ?_
            (hsole heq) hgone
          rw [hroots]
          exact hfree
      · rw [if_neg hforce]
        exact h.plain hb hp (closes_leave_ret t x) rfl rfl rfl rfl hgone

theorem kept_lockBoxRoot (hi : Inside t s) (h : Kept s) {reg_root : List WChar}
    (hplace : (s.threads t).place = .lock reg_root)
    (hcareful : ∀ r ∈ s.m_RootMap.value reg_root, ∀ m ∈ (s.roots r).mount,
      ¬ BeingUnmounted s (s.mounts m).ntPath) :
    Kept (s.lockBoxRoot t reg_root) := by
  have hgone : (s.threads t).place.Elsewhere := by rw [hplace]; exact nofun
  unfold State.lockBoxRoot
  cases hval : s.m_RootMap.value reg_root with
  | none =>
    exact h.plain hi.data.bounded (parts_refl h) (closes_leave_ret t s) rfl rfl rfl rfl hgone
  | some r =>
    have hother : ∀ r', r' ≠ r →
        (s.setRoot r { s.roots r with inUse := true }).roots r' = s.roots r' :=
      fun r' hr' => Function.update_of_ne hr' _ _
    have hmount : ∀ r', ((s.setRoot r { s.roots r with inUse := true }).roots r').mount =
        (s.roots r').mount := fun r' => by
      by_cases heq : r' = r
      · rw [heq, setRoot_self]
      · rw [hother r' heq]
    have hp : Parts t s (s.setRoot r { s.roots r with inUse := true }) := by
      refine { ({ Grows.refl s with } : Grows s (s.setRoot r { s.roots r with inUse := true })) with
        roots := fun r' => .inl (hmount r'), ramDisk := .inl rfl,
        stay := fun _ _ r' _ _ => hmount r', inUse := fun t' device r' pRoot used _ hw => ?_,
        own := fun t' m _ hm => ⟨fun r' => ?_, (h.own t' m hm).2⟩ }
      · have hne : r' ≠ r := by
          rintro rfl
          obtain ⟨-, m, hm, hpath, -⟩ := h.disk t' device r' (by rw [hw]; rfl)
          refine hcareful r' hval m hm ⟨t', ?_⟩
          rw [hw, hpath]
          exact beq_self_eq_true device
        rw [hother r' hne]
        exact (h.alone t' device r' pRoot used hw).inUse
      · rw [hmount r']
        exact (h.own t' m hm).1 r'
    exact h.plain hi.data.bounded hp (closes_leave_ret t _) rfl rfl rfl rfl hgone

theorem kept_queryRamDisk (hi : Inside t s) (h : Kept s)
    (hgone : (s.threads t).place.Elsewhere) :
    Kept (s.queryRamDisk t) := by
  unfold State.queryRamDisk
  cases s.m_RamDisk with
  | none => exact h.plain hi.data.bounded (parts_refl h) (closes_ret t s) rfl rfl rfl rfl hgone
  | some m =>
    exact h.plain hi.data.bounded (parts_refl h) (closes_leave_ret t s) rfl rfl rfl rfl hgone

theorem kept_unmountImDisk (h : Kept s) {device : List WChar} {r : RootId} {pRoot : Option RootId}
    {used : Bool} (hplace : (s.threads t).place = .unmount device r pRoot used)
    (hunmounts : a.unmounts = true) (hlength : IMDISK_DEVICE_LEN < device.length) :
    Kept ((s.unmountImDisk device used a).2.goto t
      (.unmounted device r pRoot (s.unmountImDisk device used a).1)) := by
  obtain ⟨hmem, m, hm, hpath, hsole, hram⟩ := h.disk t device r (by rw [hplace]; rfl)
  have halone := h.alone t device r pRoot used hplace
  -- of the roots, only this one is on the device
  have honly : ∀ r' ∈ s.m_RootMap.values, ∀ m', (s.roots r').mount = some m' →
      (s.mounts m').ntPath = device → r' = r := by
    intro r' hr' m' hm' heq
    by_contra hne
    have hoff := halone.sole.1 r' hr' hne
    rw [hm', Bool.eq_false_iff] at hoff
    exact hoff (onDevice_some.mpr heq)
  have hunused : (used || s.someInUse fun root => s.onDevice device root.mount) = false := by
    rw [halone.used, Bool.false_or, State.someInUse, Bool.eq_false_iff]
    intro hany
    obtain ⟨r', hr', huse⟩ := any_eq_true.mp hany
    obtain ⟨hin, hon⟩ := Bool.and_eq_true_iff.mp huse
    cases hm' : (s.roots r').mount with
    | none =>
      rw [hm'] at hon
      cases hon
    | some m' =>
      rw [hm'] at hon
      rw [honly r' hr' m' hm' (onDevice_some.mp hon), halone.inUse] at hin
      cases hin
  have hresult : s.unmountImDisk device used a = (true, State.note (.removedDevice false)
      { s with devices := s.devices.filter fun d => d.ntPath != device }) := by
    unfold unmountImDisk
    rw [hunused, decide_eq_true hlength, hunmounts, halone.there]
    rfl
  rw [hresult]
  have hdevice : ∀ device', s.hasDevice device' = true → device' ≠ device →
      List.any (s.devices.filter fun d => d.ntPath != device) (fun d => d.ntPath == device') =
        true := by
    intro device' hd hne
    obtain ⟨d, hin, heq⟩ := any_eq_true.mp hd
    refine any_eq_true.mpr ⟨d, mem_filter.mpr ⟨hin, ?_⟩, heq⟩
    rw [bne_iff_ne, beq_iff_eq.mp heq]
    exact hne
  set y := State.goto t (.unmounted device r pRoot true) (State.note (.removedDevice false)
    { s with devices := s.devices.filter fun d => d.ntPath != device }) with hy
  have hself : (y.threads t).place = .unmounted device r pRoot true := goto_place t _ _
  have hothers : ∀ t', t' ≠ t → (y.threads t').place = (s.threads t').place := fun t' ht' => by
    have hsame : y.threads t' = s.threads t' := Function.update_of_ne ht' _ _
    rw [hsame]
  have hplaces : ∀ t', (y.threads t').place.disk = (s.threads t').place.disk ∧
      (y.threads t').place.gotRoot = (s.threads t').place.gotRoot ∧
      (y.threads t').place.pMount = (s.threads t').place.pMount ∧
      (y.threads t').place.creates = (s.threads t').place.creates := by
    intro t'
    by_cases heq : t' = t
    · rw [heq, hself, hplace]
      exact ⟨rfl, rfl, rfl, rfl⟩
    · rw [hothers t' heq]
      exact ⟨rfl, rfl, rfl, rfl⟩
  refine ⟨h.named, fun d hd => h.devices d (mem_filter.mp hd).1, h.single, fun t' => ?_,
    fun t' r' hr' => ?_, fun t' device' r' hw => ?_, fun t' device' r' pRoot' used' hw => ?_,
    fun t' device' r' pRoot' ok hw => ?_, fun t₁ t₂ device' r₁ r₂ hne h₁ h₂ => ?_,
    fun t' m' hm' => ?_, fun t₁ t₂ m' hne h₁ h₂ => ?_, fun r' hr' m' hm' => ?_, fun m' hm' => ?_,
    fun e he => ?_⟩
  · rw [(hplaces t').2.2.2]
    exact h.creates t'
  · rw [(hplaces t').2.1] at hr'
    exact h.got t' r' hr'
  · rw [(hplaces t').1] at hw
    obtain ⟨hmem', hmount'⟩ := h.disk t' device' r' hw
    exact ⟨hmem', hmount'⟩
  · by_cases heq : t' = t
    · rw [heq, hself] at hw
      cases hw
    · rw [hothers t' heq] at hw
      have hold := h.alone t' device' r' pRoot' used' hw
      refine ⟨hold.used, hold.inUse, hdevice device' hold.there ?_, hold.sole⟩
      rintro rfl
      exact h.apart t' t device' r' r heq (by rw [hw]; rfl) (by rw [hplace]; rfl)
  · by_cases heq : t' = t
    · rw [heq, hself] at hw
      exact (Place.unmounted.inj hw).2.2.2.symm
    · rw [hothers t' heq] at hw
      exact h.ok t' device' r' pRoot' ok hw
  · rw [(hplaces t₁).1] at h₁
    rw [(hplaces t₂).1] at h₂
    exact h.apart t₁ t₂ device' r₁ r₂ hne h₁ h₂
  · rw [(hplaces t').2.2.1] at hm'
    exact h.own t' m' hm'
  · rw [(hplaces t₁).2.2.1] at h₁
    rw [(hplaces t₂).2.2.1] at h₂
    exact h.ownApart t₁ t₂ m' hne h₁ h₂
  · by_cases heq : (s.mounts m').ntPath = device
    · obtain rfl := honly r' hr' m' hm' heq
      exact .inr ⟨t, device, pRoot, true, hself⟩
    · refine (h.mounted r' hr' m' hm').imp (fun hd => hdevice _ hd heq) ?_
      rintro ⟨t', device', pRoot', ok, hw⟩
      refine ⟨t', device', pRoot', ok, (hothers t' ?_).trans hw⟩
      rintro rfl
      rw [hplace] at hw
      cases hw
  · refine hdevice _ (h.ramDisk m' hm') fun heq => ?_
    have hoff := halone.sole.2
    have hram' : s.m_RamDisk = some m' := hm'
    rw [hram', Bool.eq_false_iff] at hoff
    exact hoff (onDevice_some.mpr heq)
  · rcases mem_cons.mp he with rfl | hold
    · rfl
    · exact h.kind e hold

theorem Kept.not_stale (h : Kept s) {device : List WChar} {r : RootId}
    (hw : (s.threads t).place.disk = some (device, r))
    (hmap : ∀ r' ∈ x.m_RootMap.values, r' ∈ s.m_RootMap.values ∧ r' ≠ r)
    (hram : x.m_RamDisk = s.m_RamDisk) (hroots : x.roots = s.roots) (hmounts : x.mounts = s.mounts)
    (hdevices : x.devices = s.devices) : x.stale device = false := by
  have hthere : x.hasDevice device = s.hasDevice device := by
    rw [State.hasDevice, hdevices]
    rfl
  unfold State.stale
  rw [hthere, hram, Bool.and_eq_false_iff]
  by_cases hd : s.hasDevice device = true
  · exact .inl (by rw [hd]; rfl)
  refine .inr (Bool.or_eq_false_iff.mpr ⟨?_, ?_⟩)
  · refine Bool.eq_false_iff.mpr fun hany => ?_
    obtain ⟨r', hr', hon⟩ := any_eq_true.mp hany
    obtain ⟨hold, hne⟩ := hmap r' hr'
    rw [hroots] at hon
    cases hm : (s.roots r').mount with
    | none =>
      rw [hm] at hon
      exact nomatch hon
    | some m =>
      rw [hm] at hon
      have hpath : (s.mounts m).ntPath = device := hmounts ▸ onDevice_some.mp hon
      rcases h.mounted r' hold m hm with hthere' | ⟨t', device', pRoot, ok, hplace⟩
      · exact hd (hpath ▸ hthere')
      -- another thread unmounts the device
      obtain ⟨-, m', hm', hpath', -⟩ := h.disk t' device' r' (by rw [hplace]; rfl)
      obtain rfl : m' = m := Option.some.inj (hm'.symm.trans hm)
      obtain rfl : device' = device := hpath'.symm.trans hpath
      by_cases heq : t' = t
      · subst heq
        rw [hplace] at hw
        exact hne (Prod.mk.inj (Option.some.inj hw)).2
      · exact h.apart t' t device' r' r heq (by rw [hplace]; rfl) hw
  · cases hm : s.m_RamDisk with
    | none => rfl
    | some m =>
      refine Bool.eq_false_iff.mpr fun hon => hd ?_
      have hpath : (s.mounts m).ntPath = device := hmounts ▸ onDevice_some.mp hon
      exact hpath ▸ h.ramDisk m hm

/-- `UnmountImDiskLocked` comes back into the lock, and erases its root. -/
theorem kept_unmountDone [Fintype T] (hi : Inside t s) (h : Kept s) {device : List WChar}
    {r : RootId} {pRoot : Option RootId} {ok : Bool}
    (hplace : (s.threads t).place = .unmounted device r pRoot ok) :
    Kept (s.unmountDone t device r ok) := by
  have hwindow : (s.threads t).place.toUnMount = some (r, pRoot) := by rw [hplace]; rfl
  have hdisk : (s.threads t).place.disk = some (device, r) := by rw [hplace]; rfl
  have halive := alive_of_window hplace ((hi.data.relies t).window r pRoot hwindow)
  obtain ⟨hmem, m, hm, hpath, hsole, hram⟩ := h.disk t device r hdisk
  obtain rfl : ok = true := h.ok t device r pRoot ok hplace
  obtain ⟨k, hk⟩ := SortedMap.mem_values.mp hmem
  have hentry : (k, r) ∈ s.m_RootMap.entries := SortedMap.value_eq_some.mp hk
  -- the first root with the mount is the one that is unmounted
  have hfind : (s.note (.usedRoot true)).withMount (s.roots r).mount = some k := by
    cases hfind : (s.note (.usedRoot true)).withMount (s.roots r).mount with
    | none =>
      have hnone := find?_eq_none.mp (Option.map_eq_none_iff.mp hfind) (k, r) hentry
      exact absurd (beq_self_eq_true (s.roots r).mount) hnone
    | some k' =>
      obtain ⟨r₁, hval, hr₁⟩ := withMount_some hfind
      have hval' : s.m_RootMap.value k' = some r₁ := hval
      have hr₁' : (s.roots r₁).mount = some m := hr₁.trans hm
      obtain rfl := hsole r₁ (SortedMap.mem_values.mpr ⟨k', hval'⟩) hr₁'
      rw [h.single k' k r₁ hval' hk]
  unfold State.unmountDone
  cases hentries : s.m_RootMap.entries with
  | nil =>
    rw [hentries] at hentry
    cases hentry
  | cons e es =>
    dsimp only
    rw [if_pos halive]
    have hroot : (s.note (.usedRoot true)).roots r = s.roots r := rfl
    rw [hroot, hfind]
    dsimp only
    rw [if_pos rfl]
    have herased : ∀ r' ∈ ((s.note (.usedRoot true)).erase k).m_RootMap.values,
        r' ∈ s.m_RootMap.values ∧ r' ≠ r := by
      intro r' hr'
      refine ⟨mem_values_erase (s := s.note (.usedRoot true)) hr', ?_⟩
      rintro rfl
      obtain ⟨k', hk'⟩ := SortedMap.mem_values.mp hr'
      have hk'' : (s.m_RootMap.filter fun k'' => k'' != k).value k' = some r' := hk'
      rw [SortedMap.value_filter] at hk''
      split_ifs at hk'' with hne
      exact bne_iff_ne.mp hne (h.single k' k r' hk'' hk)
    have hstale := h.not_stale hdisk herased rfl rfl rfl rfl
    rw [hstale]
    have hc : Closes t .idle { s with m_RootMap := s.m_RootMap.filter fun k' => k' != k }
        (((((s.note (.usedRoot true)).erase k).note (.unmountDone false)).leave t).ret t) := by
      refine ⟨rfl, rfl, rfl, rfl, rfl, rfl, goto_place t .idle _,
        fun _ ht' => Function.update_of_ne ht' _ _, fun e he => ?_⟩
      have he' : e = .returned (s.threads t).base
            (CriticalSection.held (CriticalSection.leave t s.m_CritSec) t) ∨
          e = .left (CriticalSection.held s.m_CritSec t) ∨ e = .unmountDone false ∨
          e = .usedRoot true ∨ e ∈ s.log := by
        simpa [State.ret, State.goto, State.note, State.leave, State.erase] using he
      rcases he' with rfl | rfl | rfl | rfl | hold
      · exact .inr trivial
      · exact .inr trivial
      · exact .inr rfl
      · exact .inr trivial
      · exact .inl hold
    refine h.moves hi.data.bounded ((parts_refl h).moves_map _ h hc rfl (fun k' r' hk' => ?_)
      (fun t' r' ht' hr' => ?_) fun device' r' pRoot' ok' hw' hr' => ?_) ?_
    · rw [SortedMap.value_filter] at hk'
      split_ifs at hk'
      exact hk'
    · rcases hr' with hr' | ⟨device', hw'⟩
      · rw [hi.others t' ht'] at hr'
        cases hr'
      · obtain ⟨hmem', m', hm', -⟩ := h.disk t' device' r' hw'
        obtain ⟨k', hk'⟩ := SortedMap.mem_values.mp hmem'
        refine SortedMap.mem_values.mpr ⟨k', ?_⟩
        rw [SortedMap.value_filter, if_pos]
        · exact hk'
        · refine bne_iff_ne.mpr fun heq => ?_
          rw [heq, hk] at hk'
          obtain rfl : r = r' := Option.some.inj hk'
          obtain ⟨-, m₁, hm₁, hpath₁, -⟩ := h.disk t' device' r hw'
          obtain rfl : m₁ = m := Option.some.inj (hm₁.symm.trans hm)
          obtain rfl : device = device' := hpath.symm.trans hpath₁
          exact h.apart t' t device r r ht' hw' hdisk
    · rw [hplace] at hw'
      obtain ⟨-, rfl, -, -⟩ := Place.unmounted.inj hw'
      exact (herased r hr').2 rfl
    · rw [hc.place]
      exact goes_plain rfl rfl rfl

variable [Fintype T]

theorem kept_go (hi : Inv s) (h : Kept s) (hwaits : Waits s (t, .go a))
    (hsucceeds : Succeeds s (t, .go a)) (hcareful : Careful env s (t, .go a))
    (hgo : s.go env t a = some s') : Kept s' := by
  have hentered : ∀ (f : State T → State T) place, (s.threads t).place = place → place.Running →
      place.gotRoot = none → (s.enter t).map f = some s' → _ :=
    fun f place hp hrun hgot hf => hi.entered hf (hp ▸ hrun) (hp ▸ hgot)
  unfold State.go at hgo
  cases hplace : (s.threads t).place with
  | idle =>
    rw [hplace] at hgo
    exact nomatch hgo
  | dead =>
    rw [hplace] at hgo
    exact nomatch hgo
  | createNew file_root => exact absurd (h.creates t) (by rw [hplace]; simp [Place.creates])
  | createUnmount device => exact absurd (h.creates t) (by rw [hplace]; simp [Place.creates])
  | mountFind reg_root file_root auto_unmount =>
    rw [hplace] at hgo
    have hfind := kept_mountFind env a hi h reg_root file_root auto_unmount
      (t := t) (by rw [hplace]; exact nofun)
    dsimp only at hgo
    split at hgo <;> next heq =>
      rw [heq] at hfind
      exact Option.some.inj hgo ▸ hfind
  | mountNew reg_root file_root auto_unmount =>
    rw [hplace] at hgo
    have hnew := kept_mountNew env a hi h reg_root file_root auto_unmount
      (t := t) (by rw [hplace]; exact nofun)
    dsimp only at hgo
    split at hgo <;> next heq =>
      rw [heq] at hnew
      exact Option.some.inj hgo ▸ hnew
  | getBoxRoot caller reg_root mayRetry pRoot =>
    rw [hplace] at hgo
    obtain ⟨cs, hinside, rfl⟩ := hentered _ _ hplace ⟨nofun, nofun⟩ rfl hgo
    unfold Waits at hwaits
    rw [hplace] at hwaits
    exact kept_getBoxRootLocked hinside (h.critSec cs) hplace hwaits
  | gotBoxRoot caller reg_root r =>
    rw [hplace] at hgo
    cases hgo
    have hgot : (s.threads t).place.gotRoot = some r := by rw [hplace]; rfl
    exact kept_goOn (hi.inside_of_got hgot) h hplace ((hi.relies t).got r hgot).2 hcareful
  | queryRamDisk =>
    rw [hplace] at hgo
    obtain ⟨cs, hinside, rfl⟩ := hentered _ _ hplace ⟨nofun, nofun⟩ rfl hgo
    exact kept_queryRamDisk hinside (h.critSec cs) (by rw [hplace]; exact nofun)
  | mountJunction reg_root file_root target r =>
    rw [hplace] at hgo
    cases hgo
    unfold Careful at hcareful
    rw [hplace] at hcareful
    exact kept_mountJunction hi h hcareful (by rw [hplace]; exact nofun)
  | enumerate =>
    rw [hplace] at hgo
    obtain ⟨cs, hinside, rfl⟩ := hentered _ _ hplace ⟨nofun, nofun⟩ rfl hgo
    exact (h.critSec cs).plain hinside.data.bounded (parts_refl (h.critSec cs))
      (closes_leave_ret t _) rfl rfl rfl rfl (by rw [hplace]; exact nofun)
  | lock reg_root =>
    rw [hplace] at hgo
    obtain ⟨cs, hinside, rfl⟩ := hentered _ _ hplace ⟨nofun, nofun⟩ rfl hgo
    unfold Careful at hcareful
    rw [hplace] at hcareful
    exact kept_lockBoxRoot hinside (h.critSec cs) hplace hcareful
  | release reg_root force pRoot =>
    rw [hplace] at hgo
    obtain ⟨cs, hinside, rfl⟩ := hentered _ _ hplace ⟨nofun, nofun⟩ rfl hgo
    unfold Waits at hwaits
    unfold Careful at hcareful
    rw [hplace] at hwaits hcareful
    exact kept_releaseBoxRoot hinside (h.critSec cs) hplace hwaits hcareful
  | unmount device r pRoot used =>
    rw [hplace] at hgo
    cases hgo
    unfold Succeeds at hsucceeds
    rw [hplace] at hsucceeds
    exact kept_unmountImDisk h hplace hsucceeds.1 hsucceeds.2
  | unmounted device r pRoot ok =>
    rw [hplace] at hgo
    obtain ⟨cs, hinside, rfl⟩ := hentered _ _ hplace ⟨nofun, nofun⟩ rfl hgo
    exact kept_unmountDone hinside (h.critSec cs) hplace

theorem kept_step {e : T × Action} (hi : Inv s) (h : Kept s) (hwaits : Waits s e)
    (hsucceeds : Succeeds s e) (hcareful : Careful env s e) (hstep : s.step env e = some s') :
    Kept s' := by
  obtain ⟨t, action⟩ := e
  cases action with
  | call c =>
    by_cases hidle : (s.threads t).place = .idle
    · have hcall : some (s.call t c) = some s' := (if_pos hidle).symm.trans hstep
      cases hcall
      refine kept_call h hi.bounded hidle c ?_
      rintro file_root rfl
      exact hsucceeds
    · exact nomatch (if_neg hidle).symm.trans hstep
  | go a => exact kept_go hi h hwaits hsucceeds hcareful hstep
  | lose device => exact hsucceeds.elim

end Steps

/-! ### Runs -/

theorem kept_initial : Kept ({} : State T) where
  named _ hm := absurd hm (Nat.not_lt_zero _)
  devices _ hd := nomatch hd
  single _ _ _ hk := nomatch hk
  creates _ := rfl
  got _ _ hr := nomatch hr
  disk _ _ _ hw := nomatch hw
  alone _ _ _ _ _ hw := nomatch hw
  ok _ _ _ _ _ hw := nomatch hw
  apart _ _ _ _ _ _ hw := nomatch hw
  own _ _ hm := nomatch hm
  ownApart _ _ _ _ hm := nomatch hm
  mounted _ hr := nomatch hr
  ramDisk _ hm := nomatch hm
  kind _ he := nomatch he

theorem Kept.noStale {s : State T} (h : Kept s) : s.NoStale := by
  intro device hstale
  obtain ⟨hgone, hleft⟩ := Bool.and_eq_true_iff.mp hstale
  have hnot : s.hasDevice device ≠ true := by simpa using hgone
  rcases Bool.or_eq_true_iff.mp hleft with hroot | hram
  · obtain ⟨r, hr, hon⟩ := any_eq_true.mp hroot
    cases hm : (s.roots r).mount with
    | none =>
      rw [hm] at hon
      exact nomatch hon
    | some m =>
      rw [hm] at hon
      have hpath := onDevice_some.mp hon
      rcases h.mounted r hr m hm with hthere | ⟨t, device', pRoot, ok, hw⟩
      · exact absurd (hpath ▸ hthere) hnot
      · obtain ⟨-, m', hm', hpath', -⟩ := h.disk t device' r (by rw [hw]; rfl)
        obtain rfl : m' = m := Option.some.inj (hm'.symm.trans hm)
        obtain rfl : device' = device := hpath'.symm.trans hpath
        exact ⟨t, r, pRoot, ok, hw⟩
  · cases hm : s.m_RamDisk with
    | none =>
      rw [hm] at hram
      exact nomatch hram
    | some m =>
      rw [hm] at hram
      exact absurd (onDevice_some.mp hram ▸ h.ramDisk m hm) hnot

/-- **A mounted image in use is never unmounted**, in every run whose steps meet the conditions,
and after an unmount nothing is left on the device. -/
theorem use_kept [DecidableEq T] [Fintype T] {env : Env} {es : List (T × Action)} {s : State T}
    (h : Run (fun s e s' => s.step env e = some s') (MeetsUse env) {} es s) :
    (∀ e ∈ s.log, e.Kind) ∧ s.NoStale := by
  have hboth : Inv s ∧ Kept s := by
    refine h.invariant (I := fun s => Inv s ∧ Kept s) ⟨inv_initial, kept_initial⟩ ?_
    intro s e s' hi hstep hmeets
    exact ⟨(inv_step hi.1 hmeets.1 hstep).inv,
      kept_step hi.1 hi.2 hmeets.1 hmeets.2.1 hmeets.2.2 hstep⟩
  exact ⟨hboth.2.kind, hboth.2.noStale⟩

section Decidable

variable [DecidableEq T] [Fintype T]

instance (s : State T) (device : List WChar) : Decidable (BeingUnmounted s device) :=
  inferInstanceAs (Decidable (∃ t, (s.threads t).place.unmounts device = true))

instance (s : State T) (r : RootId) (device : List WChar) : Decidable (Sole s r device) :=
  inferInstanceAs (Decidable (_ ∧ _))

instance (env : Env) (s : State T) (r : RootId) (a : Answers) : Decidable (OwnJunction env s r a) :=
  inferInstanceAs (Decidable (_ → _))

instance (env : Env) (s : State T) (target file_root : List WChar) (a : Answers) :
    Decidable (SameJunction env s target file_root a) :=
  inferInstanceAs (Decidable (_ → _))

instance (env : Env) (s : State T) (boxname file_root : List WChar)
    (useRamDisk useFileImage : Bool) (r : RootId) (a : Answers) :
    Decidable (AcquiresOwn env s boxname file_root useRamDisk useFileImage r a) :=
  inferInstanceAs (Decidable (_ → _ → _))

instance (s : State T) (e : T × Action) : Decidable (Succeeds s e) := by
  unfold Succeeds
  split <;> infer_instance

instance (env : Env) (s : State T) (e : T × Action) : Decidable (Careful env s e) := by
  unfold Careful
  split <;> infer_instance

instance (env : Env) (s : State T) (e : T × Action) : Decidable (MeetsUse env s e) := by
  refine @instDecidableAnd _ _ ?_ inferInstance
  unfold Waits
  split <;> infer_instance

end Decidable

/-- The device of `mountAndRelease` is mounted, used and removed. -/
theorem use_kept_release : ∃ s : State Bool,
    Run.checked (State.step plainEnv) (MeetsUse plainEnv) {} mountAndRelease = some s ∧
      (∀ e ∈ s.log, e.Kind) ∧ s.NoStale := by
  obtain ⟨s, hs⟩ := Option.isSome_iff_exists.mp
    (show (Run.checked (State.step plainEnv) (MeetsUse plainEnv) ({} : State Bool)
      mountAndRelease).isSome by decide)
  exact ⟨s, hs, use_kept (Run.of_checked hs)⟩

/-- Two boxes are on the RAM disk.  The first is in use, and `UnmountHandler` unmounts the
second. -/
def unmountRamDisk : List (Bool × Action) :=
  [(false, .call (.acquireBoxRoot boxA boxA boxA true false)), (false, .go {}),
    (false, .go { ramDiskSizeKb := 200000, made := some disk0 }),
    (false, .call (.lockBoxRoot boxA)), (false, .go {}),
    (true, .call (.acquireBoxRoot boxB boxB boxB true false)), (true, .go {}), (true, .go {}),
    (true, .call (.unmountHandler boxB)), (true, .go {}), (true, .go {}), (true, .go {})]

/-- Not every run keeps a device in use. -/
theorem unmount_takes_ramDisk : ∃ s : State Bool,
    Run (fun s e s' => s.step plainEnv e = some s') Succeeds {} unmountRamDisk s ∧
      ¬ ∀ e ∈ s.log, e.Kind := by
  obtain ⟨s, hs, hlog⟩ := Option.map_eq_some_iff.mp
    (show (Run.checked (State.step plainEnv) Succeeds ({} : State Bool) unmountRamDisk).map
      (·.log.head?) = some (some (.removedDevice true)) by decide)
  refine ⟨s, Run.of_checked hs, fun h => ?_⟩
  exact absurd (h _ (mem_of_mem_head? hlog)) (by decide : ¬ (true = false))

end Sandboxie.MountManager
