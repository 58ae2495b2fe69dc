import Sandboxie.Svc.MountDisk

/-!
# The parts of a step and the disks

What a step of the mount manager is made of keeps the disks: devices and mounts are added, a root
gets a mount whose device is not being unmounted, and the thread goes on.
-/

namespace Sandboxie.MountManager

open State List

variable {T : Type}

/-! ### Parts of a step -/

/-- The place is not right behind an unmount. -/
def Place.Elsewhere (place : Place) : Prop :=
  ∀ device r pRoot ok, place ≠ .unmounted device r pRoot ok

/-- Only devices and mounts are added. -/
structure Grows (s s' : State T) : Prop where
  threads : s'.threads = s.threads
  map : s'.m_RootMap = s.m_RootMap
  nextMount : s.nextMount ≤ s'.nextMount
  ntPath : ∀ m, m < s.nextMount → (s'.mounts m).ntPath = (s.mounts m).ntPath
  named : ∀ m, s.nextMount ≤ m → m < s'.nextMount → (s'.mounts m).ntPath ≠ []
  devices : (∀ d ∈ s.devices, d.ntPath ≠ []) → ∀ d ∈ s'.devices, d.ntPath ≠ []
  hasDevice : ∀ device, s.hasDevice device = true → s'.hasDevice device = true
  kind : ∀ e ∈ s'.log, e ∈ s.log ∨ e.Kind

section Grows

variable {s s' s'' : State T}

theorem Grows.refl (s : State T) : Grows s s :=
  ⟨rfl, rfl, le_rfl, fun _ _ => rfl, fun _ hle hlt => absurd hlt (Nat.not_lt.mpr hle), id,
    fun _ => id, fun _ => .inl⟩

theorem Grows.trans (h : Grows s s') (h' : Grows s' s'') : Grows s s'' where
  threads := h'.threads.trans h.threads
  map := h'.map.trans h.map
  nextMount := h.nextMount.trans h'.nextMount
  ntPath m hm := (h'.ntPath m (hm.trans_le h.nextMount)).trans (h.ntPath m hm)
  named m hle hlt := by
    by_cases hm : m < s'.nextMount
    · rw [h'.ntPath m hm]
      exact h.named m hle hm
    · exact h'.named m (Nat.not_lt.mp hm) hlt
  devices hd := h'.devices (h.devices hd)
  hasDevice device hd := h'.hasDevice device (h.hasDevice device hd)
  kind e he := (h'.kind e he).elim (h.kind e) .inr

theorem grows_newMount {device : List WChar} (hd : device ≠ []) (s : State T) :
    Grows s (s.newMount device).2 := by
  have hold : ∀ m, m ≠ s.nextMount → ((s.newMount device).2.mounts m) = s.mounts m :=
    fun m hm => Function.update_of_ne hm _ _
  have hnew : (s.newMount device).2.mounts s.nextMount = { ntPath := device } :=
    Function.update_self _ _ _
  refine { Grows.refl s with
    nextMount := Nat.le_succ _
    ntPath := fun m hm => by rw [hold m (Nat.ne_of_lt hm)]
    named := fun m hle hlt => ?_ }
  obtain rfl : m = s.nextMount := Nat.le_antisymm (Nat.lt_succ_iff.mp hlt) hle
  rw [hnew]
  exact hd

theorem newMount_ntPath (s : State T) (device : List WChar) :
    ((s.newMount device).2.mounts (s.newMount device).1).ntPath = device := by
  show (Function.update s.mounts s.nextMount _ s.nextMount).ntPath = device
  rw [Function.update_self]

theorem hasDevice_of_mem {s : State T} {d : Device} (h : d ∈ s.devices) :
    s.hasDevice d.ntPath = true :=
  any_eq_true.mpr ⟨d, h, beq_self_eq_true _⟩

/-- A new mount of a device that is there. -/
structure Made (s : State T) (p : Option MountId × State T) (m : MountId) : Prop where
  new : s.nextMount ≤ m
  there : p.2.hasDevice (p.2.mounts m).ntPath = true

theorem grows_findImDisk (hd : ∀ d ∈ s.devices, d.ntPath ≠ []) (env : Env)
    (imageFile : List WChar) (a : Answers) :
    Grows s (s.findImDisk env imageFile a).2 ∧
      (s.findImDisk env imageFile a).2.roots = s.roots ∧
      (s.findImDisk env imageFile a).2.m_RamDisk = s.m_RamDisk ∧
      ((s.findImDisk env imageFile a).1 = none → (s.findImDisk env imageFile a).2 = s) ∧
      ∀ m, (s.findImDisk env imageFile a).1 = some m → Made s (s.findImDisk env imageFile a) m ∧
        ∃ d ∈ env.findDevice s.devices imageFile,
          ((s.findImDisk env imageFile a).2.mounts m).ntPath = d.ntPath := by
  unfold findImDisk
  split
  · cases hfind : env.findDevice s.devices imageFile with
    | none => exact ⟨Grows.refl s, rfl, rfl, fun _ => rfl, fun _ hm => nomatch hm⟩
    | some d =>
      have hmem : d ∈ s.devices := mem_of_find?_eq_some hfind
      refine ⟨grows_newMount (hd d hmem) s, rfl, rfl, fun hnone => (nomatch hnone), fun m hm => ?_⟩
      obtain rfl : (s.newMount d.ntPath).1 = m := Option.some.inj hm
      refine ⟨⟨le_rfl, ?_⟩, d, rfl, newMount_ntPath s _⟩
      rw [newMount_ntPath]
      exact hasDevice_of_mem hmem
  · exact ⟨Grows.refl s, rfl, rfl, fun _ => rfl, fun _ hm => nomatch hm⟩

theorem grows_mountImDisk (imageFile : List WChar) (a : Answers) (s : State T) :
    Grows s (s.mountImDisk imageFile a).2 ∧
      (s.mountImDisk imageFile a).2.roots = s.roots ∧
      (s.mountImDisk imageFile a).2.m_RamDisk = s.m_RamDisk ∧
      ∀ m, (s.mountImDisk imageFile a).1 = some m → Made s (s.mountImDisk imageFile a) m ∧
        s.hasDevice ((s.mountImDisk imageFile a).2.mounts m).ntPath = false := by
  unfold mountImDisk
  cases a.made with
  | none => exact ⟨Grows.refl s, rfl, rfl, fun _ hm => nomatch hm⟩
  | some device =>
    dsimp only
    by_cases hbad : device = [] ∨ s.hasDevice device = true
    · rw [if_pos hbad]
      exact ⟨Grows.refl s, rfl, rfl, fun _ hm => nomatch hm⟩
    rw [if_neg hbad]
    obtain ⟨hne, hfree⟩ := not_or.mp hbad
    have hadd : Grows s { s with
        devices := s.devices ++ [(⟨device, getProxyName imageFile⟩ : Device)] } := by
      refine { Grows.refl s with devices := fun hd d hmem => ?_, hasDevice := fun device' h => ?_ }
      · rcases mem_append.mp hmem with hold | hnew
        · exact hd d hold
        · rw [mem_singleton.mp hnew]
          exact hne
      · show List.any (s.devices ++ _) _ = true
        rw [any_append, Bool.or_eq_true_iff]
        exact .inl h
    refine ⟨hadd.trans (grows_newMount hne _), rfl, rfl, fun m hm => ?_⟩
    cases hm
    refine ⟨⟨le_rfl, ?_⟩, ?_⟩
    · dsimp only
      rw [newMount_ntPath]
      show List.any (s.devices ++ _) _ = true
      simp
    · dsimp only
      rw [newMount_ntPath]
      exact Bool.eq_false_iff.mpr hfree

end Grows

/-! ### The mount that a root gets -/

section Fit

variable {s s' : State T}

/-- A mount that a root may get: it is there and not being unmounted, and it is new or the RAM
disk. -/
structure Fit (s s' : State T) (m : MountId) : Prop where
  there : s'.hasDevice (s'.mounts m).ntPath = true
  origin : s.nextMount ≤ m ∨ s.m_RamDisk = some m
  stays : ¬ BeingUnmounted s (s'.mounts m).ntPath

theorem Fit.given {t : T} {m : MountId} (h : Kept s) (hb : Bounded s) (hf : Fit s s' m) :
    Given t s s' m where
  there := hf.there
  free t' device r _ hw hmount := by
    obtain ⟨-, m', hm', -, -, hram⟩ := h.disk t' device r hw
    obtain rfl : m' = m := Option.some.inj (hm'.symm.trans hmount)
    rcases hf.origin with hle | hram'
    · exact absurd (hb.mount r m' hm') (Nat.not_lt.mpr hle)
    · exact hram hram'
  stays t' _ := Bool.eq_false_iff.mpr fun hu => hf.stays ⟨t', hu⟩

theorem Kept.alone_of_unmounts {t : T} {device : List WChar} (h : Kept s)
    (hu : (s.threads t).place.unmounts device = true) : ∃ r used, Alone s device r used := by
  obtain ⟨r, pRoot, used, hw⟩ := Place.disk_of_unmounts hu
  exact ⟨r, used, h.alone t device r pRoot used hw⟩

theorem Kept.fit_ramDisk {m : MountId} (h : Kept s) (hram : s.m_RamDisk = some m) : Fit s s m := by
  refine ⟨h.ramDisk m hram, .inr hram, ?_⟩
  rintro ⟨t, hu⟩
  obtain ⟨r, used, halone⟩ := h.alone_of_unmounts hu
  have hoff := halone.sole.2
  rw [hram, Bool.eq_false_iff] at hoff
  exact hoff (onDevice_some.mpr rfl)

variable {imageFile : List WChar} {a : Answers}

theorem fit_findImDisk {env : Env} {m : MountId}
    (h : Kept s)
    (hfind : ∀ d ∈ env.findDevice s.devices imageFile, ¬ BeingUnmounted s d.ntPath)
    (hm : (s.findImDisk env imageFile a).1 = some m) :
    Fit s (s.findImDisk env imageFile a).2 m := by
  obtain ⟨hmade, d, hd, hpath⟩ := (grows_findImDisk h.devices env imageFile a).2.2.2.2 m hm
  refine ⟨hmade.there, .inl hmade.new, ?_⟩
  rw [hpath]
  exact hfind d hd

theorem fit_mountImDisk {m : MountId} (h : Kept s)
    (hm : (s.mountImDisk imageFile a).1 = some m) : Fit s (s.mountImDisk imageFile a).2 m := by
  obtain ⟨hmade, hnew⟩ := (grows_mountImDisk imageFile a s).2.2.2 m hm
  refine ⟨hmade.there, .inl hmade.new, ?_⟩
  rintro ⟨t, hu⟩
  obtain ⟨r, used, halone⟩ := h.alone_of_unmounts hu
  rw [halone.there] at hnew
  exact nomatch hnew

theorem fit_provideImage {env : Env} (h : Kept s)
    (hfind : ∀ d ∈ env.findDevice s.devices imageFile, ¬ BeingUnmounted s d.ntPath) :
    Grows s (s.provideImage env imageFile a).2 ∧
      (s.provideImage env imageFile a).2.roots = s.roots ∧
      (s.provideImage env imageFile a).2.m_RamDisk = s.m_RamDisk ∧
      ∀ m, (s.provideImage env imageFile a).1 = some m →
        Fit s (s.provideImage env imageFile a).2 m := by
  obtain ⟨hgrows, hroots, hram, hnone, -⟩ := grows_findImDisk h.devices env imageFile a
  have hfit : ∀ m, (s.findImDisk env imageFile a).1 = some m →
      Fit s (s.findImDisk env imageFile a).2 m := fun m hm => fit_findImDisk h hfind hm
  unfold provideImage
  generalize s.findImDisk env imageFile a = p at hgrows hroots hram hnone hfit
  obtain ⟨_ | m, x⟩ := p
  · obtain rfl : x = s := hnone rfl
    obtain ⟨hgrows', hroots', hram', -⟩ := grows_mountImDisk imageFile a x
    exact ⟨hgrows', hroots', hram', fun m hm => fit_mountImDisk h hm⟩
  · exact ⟨hgrows, hroots, hram, hfit⟩

theorem fit_provideRamDisk (env : Env) (a : Answers) (h : Kept s)
    (hfind : s.noDisk s.m_RamDisk = true →
      ∀ d ∈ env.findDevice s.devices [], ¬ BeingUnmounted s d.ntPath) :
    Grows s (s.provideRamDisk env a) ∧ (s.provideRamDisk env a).roots = s.roots ∧
      ∀ m, (s.provideRamDisk env a).m_RamDisk = some m → Fit s (s.provideRamDisk env a) m := by
  unfold provideRamDisk
  by_cases hno : s.noDisk s.m_RamDisk = true
  · dsimp only
    rw [if_pos hno]
    obtain ⟨hgrows, hroots, -, hnone, -⟩ := grows_findImDisk h.devices env [] a
    have hfit : ∀ m, (s.findImDisk env [] a).1 = some m → Fit s (s.findImDisk env [] a).2 m :=
      fun m hm => fit_findImDisk h (hfind hno) hm
    generalize s.findImDisk env [] a = p at hgrows hroots hnone hfit
    obtain ⟨_ | m, x⟩ := p
    · obtain rfl : x = s := hnone rfl
      have hforget : Grows x { x with m_RamDisk := none } := { Grows.refl x with }
      obtain ⟨hgrows', hroots', -, hmade⟩ := grows_mountImDisk [] a { x with m_RamDisk := none }
      split_ifs
      · refine ⟨hforget.trans { hgrows' with }, hroots', fun m hm => ?_⟩
        obtain ⟨hmade, hnew⟩ := hmade m hm
        refine ⟨hmade.there, .inl hmade.new, ?_⟩
        rintro ⟨t, hu⟩
        obtain ⟨r, used, halone⟩ := h.alone_of_unmounts hu
        exact absurd (halone.there.symm.trans hnew) (by simp)
      · exact ⟨hforget, rfl, fun _ hm => nomatch hm⟩
    · dsimp only
      rw [if_neg (by simp)]
      refine ⟨{ hgrows with }, hroots, fun m' hm' => ?_⟩
      have hfit' := hfit m' hm'
      exact ⟨hfit'.there, hfit'.origin, hfit'.stays⟩
  · dsimp only
    rw [if_neg hno]
    cases hram : s.m_RamDisk with
    | none =>
      rw [hram] at hno
      exact absurd rfl hno
    | some m =>
      rw [if_neg (by simp)]
      refine ⟨Grows.refl s, rfl, fun m' hm' => ?_⟩
      exact h.fit_ramDisk hm'

end Fit

/-! ### Ends of steps -/

/-- The thread goes to its place, and the rest is as in `x`. -/
structure Closes (t : T) (place : Place) (x s' : State T) : Prop where
  map : s'.m_RootMap = x.m_RootMap
  ramDisk : s'.m_RamDisk = x.m_RamDisk
  roots : s'.roots = x.roots
  mounts : s'.mounts = x.mounts
  nextMount : s'.nextMount = x.nextMount
  devices : s'.devices = x.devices
  place : (s'.threads t).place = place
  others : ∀ t', t' ≠ t → s'.threads t' = x.threads t'
  kind : ∀ e ∈ s'.log, e ∈ x.log ∨ e.Kind

/-- What the parts of a step of `t` do to the roots. -/
structure Parts (t : T) (s x : State T) : Prop extends Grows s x where
  roots : ∀ r, (x.roots r).mount = (s.roots r).mount ∨
    ∀ m, (x.roots r).mount = some m → Given t s x m
  ramDisk : x.m_RamDisk = s.m_RamDisk ∨ ∀ m, x.m_RamDisk = some m → Given t s x m
  stay : ∀ t' device r, t' ≠ t → (s.threads t').place.disk = some (device, r) →
    (x.roots r).mount = (s.roots r).mount
  inUse : ∀ t' device r pRoot used, t' ≠ t → (s.threads t').place = .unmount device r pRoot used →
    (x.roots r).inUse = false
  own : ∀ t' m, t' ≠ t → (s.threads t').place.pMount = some m →
    (∀ r, (x.roots r).mount ≠ some m) ∧ x.m_RamDisk ≠ some m

section Closes

variable {t : T} {place : Place} {s x s' : State T}

theorem Closes.given (hc : Closes t place x s') {m : MountId} (h : Given t s x m) :
    Given t s s' m := by
  obtain ⟨hthere, hfree, hstays⟩ := h
  refine ⟨?_, hfree, ?_⟩
  · unfold State.hasDevice at hthere ⊢
    rw [hc.devices, hc.mounts]
    exact hthere
  · rw [hc.mounts]
    exact hstays

theorem Given.map {m : MountId} (h : Given t s x m) (map : SortedMap (List WChar) RootId) :
    Given t s { x with m_RootMap := map } m := ⟨h.there, h.free, h.stays⟩

theorem Parts.moves_map (map : SortedMap (List WChar) RootId) (h : Kept s) (hp : Parts t s x)
    (hc : Closes t place { x with m_RootMap := map } s') (hcreates : place.creates = false)
    (hmap : ∀ k r, map.value k = some r → s.m_RootMap.value k = some r)
    (hstay : ∀ t' r, t' ≠ t → ((s.threads t').place.gotRoot = some r ∨
      ∃ device, (s.threads t').place.disk = some (device, r)) → r ∈ map.values)
    (hgone : ∀ device r pRoot ok, (s.threads t).place = .unmounted device r pRoot ok →
      r ∉ map.values) : Moves t s s' where
  threads t' ht' := by
    rw [hc.others t' ht']
    exact congrFun hp.threads t'
  nextMount := by
    rw [hc.nextMount]
    exact hp.nextMount
  ntPath m hm := by
    rw [hc.mounts]
    exact hp.ntPath m hm
  named m hle hlt := by
    rw [hc.nextMount] at hlt
    rw [hc.mounts]
    exact hp.named m hle hlt
  devices := by
    rw [hc.devices]
    exact hp.devices h.devices
  hasDevice device hd := by
    have hx := hp.hasDevice device hd
    unfold State.hasDevice at hx ⊢
    rw [hc.devices]
    exact hx
  single k k' r hk hk' := by
    rw [hc.map] at hk hk'
    exact h.single k k' r (hmap k r hk) (hmap k' r hk')
  creates := by
    rw [hc.place]
    exact hcreates
  got t' r ht' hr := by
    rw [hc.map]
    exact hstay t' r ht' (.inl hr)
  roots r hr := by
    rw [hc.map] at hr
    rw [hc.roots]
    obtain ⟨k, hk⟩ := SortedMap.mem_values.mp hr
    have hold : r ∈ s.m_RootMap.values := SortedMap.mem_values.mpr ⟨k, hmap k r hk⟩
    exact (hp.roots r).imp (fun hsame => ⟨hold, hsame⟩)
      fun hgiven m hm => hc.given ((hgiven m hm).map map)
  ramDisk := by
    rw [hc.ramDisk]
    exact hp.ramDisk.imp_right fun hgiven m hm => hc.given ((hgiven m hm).map map)
  stay t' device r ht' hw := by
    rw [hc.map, hc.roots]
    exact ⟨hstay t' r ht' (.inr ⟨device, hw⟩), hp.stay t' device r ht' hw⟩
  inUse t' device r pRoot used ht' hw := by
    rw [hc.roots]
    exact hp.inUse t' device r pRoot used ht' hw
  own t' m ht' hm := by
    rw [hc.roots, hc.ramDisk]
    exact hp.own t' m ht' hm
  gone device r pRoot ok hw := by
    rw [hc.map]
    exact hgone device r pRoot ok hw
  kind e he := (hc.kind e he).elim (hp.kind e) .inr

theorem Parts.moves (h : Kept s) (hp : Parts t s x) (hc : Closes t place x s')
    (hcreates : place.creates = false)
    (hgone : (s.threads t).place.Elsewhere) :
    Moves t s s' := by
  refine hp.moves_map x.m_RootMap h hc hcreates (fun k r hk => hp.map ▸ hk) ?_
    fun device r pRoot ok hw => absurd hw (hgone device r pRoot ok)
  rintro t' r - (hr | ⟨device, hw⟩)
  · rw [hp.map]
    exact h.got t' r hr
  · rw [hp.map]
    exact (h.disk t' device r hw).mem

theorem parts_same (h : Kept s) (hg : Grows s x)
    (hmount : ∀ r, (x.roots r).mount = (s.roots r).mount)
    (hinUse : ∀ r, (x.roots r).inUse = true → (s.roots r).inUse = true)
    (hram : x.m_RamDisk = s.m_RamDisk) : Parts t s x where
  toGrows := hg
  roots r := .inl (hmount r)
  ramDisk := .inl hram
  stay t' device r _ _ := hmount r
  inUse t' device r pRoot used _ hw := by
    by_contra hin
    have hold := (h.alone t' device r pRoot used hw).inUse
    rw [hinUse r (Bool.eq_true_of_not_eq_false hin)] at hold
    exact nomatch hold
  own t' m _ hm := by
    rw [hram]
    exact ⟨fun r => by rw [hmount r]; exact (h.own t' m hm).1 r, (h.own t' m hm).2⟩

theorem parts_roots (h : Kept s) (hg : Grows s x) (hroots : x.roots = s.roots)
    (hram : x.m_RamDisk = s.m_RamDisk) : Parts t s x := by
  refine parts_same h hg (fun r => ?_) (fun r => ?_) hram
  · rw [hroots]
  · rw [hroots]
    exact id

theorem parts_refl (h : Kept s) : Parts t s s :=
  parts_same h (Grows.refl s) (fun _ => rfl) (fun _ => id) rfl

variable [DecidableEq T]

theorem goto_place (t : T) (place : Place) (x : State T) :
    ((x.goto t place).threads t).place = place := by
  show (Function.update x.threads t _ t).place = place
  rw [Function.update_self]

theorem begin_place (t : T) (place : Place) (x : State T) :
    ((x.begin t place).threads t).place = place := by
  show (Function.update x.threads t _ t).place = place
  rw [Function.update_self]

theorem closes_goto (t : T) (place : Place) (x : State T) : Closes t place x (x.goto t place) :=
  ⟨rfl, rfl, rfl, rfl, rfl, rfl, goto_place t place x,
    fun _ ht' => Function.update_of_ne ht' _ _, fun _ => .inl⟩

theorem closes_leave_goto (t : T) (place : Place) (x : State T) :
    Closes t place x ((x.leave t).goto t place) :=
  ⟨rfl, rfl, rfl, rfl, rfl, rfl, goto_place t place _,
    fun _ ht' => Function.update_of_ne ht' _ _,
    fun _ he => (mem_cons.mp he).elim (fun heq => .inr (heq ▸ trivial)) .inl⟩

omit [DecidableEq T] in
theorem closes_note {e : Event} (hc : Closes t place x s') (he : e.Kind) :
    Closes t place x (s'.note e) :=
  ⟨hc.map, hc.ramDisk, hc.roots, hc.mounts, hc.nextMount, hc.devices, hc.place, hc.others,
    fun _ he' => (mem_cons.mp he').elim (fun heq => .inr (heq ▸ he)) (hc.kind _)⟩

theorem closes_gotRoot (t : T) (place : Place) (r : Option RootId) (x : State T) :
    Closes t place x ((x.goto t place).gotRoot t r) :=
  closes_note (closes_goto t place x) trivial

theorem closes_ret (t : T) (x : State T) : Closes t .idle x (x.ret t) :=
  closes_note (closes_goto t .idle x) trivial

theorem closes_leave_ret (t : T) (x : State T) : Closes t .idle x ((x.leave t).ret t) :=
  closes_note (closes_leave_goto t .idle x) trivial

theorem closes_nullMount (t : T) (x : State T) : Closes t .dead x (x.nullMount t) :=
  closes_note (closes_goto t .dead x) trivial

theorem closes_begin (t : T) (place : Place) (x : State T) :
    Closes t place x (x.begin t place) :=
  ⟨rfl, rfl, rfl, rfl, rfl, rfl, begin_place t place x,
    fun _ ht' => Function.update_of_ne ht' _ _, fun _ => .inl⟩

end Closes

end Sandboxie.MountManager
