import Sandboxie.Svc.MountParts

/-!
# Roots that get their disk

The steps that mount a disk or ask for a root: `MountHandler`, `AcquireBoxRoot` and the other
callers of `GetBoxRootLocked` keep the disks.
-/

namespace Sandboxie.MountManager

open State

variable {T : Type}

/-! ### Steps -/

section Steps

variable {t : T} {place : Place} {s x s' : State T} {env : Env} {a : Answers}

theorem Kept.critSec (h : Kept s) (cs : CriticalSection T) : Kept { s with m_CritSec := cs } :=
  ⟨h.named, h.devices, h.single, h.creates, h.got,
    fun t device r hw => ⟨(h.disk t device r hw).mem, (h.disk t device r hw).mount⟩,
    fun t device r pRoot used hw => ⟨(h.alone t device r pRoot used hw).used,
      (h.alone t device r pRoot used hw).inUse, (h.alone t device r pRoot used hw).there,
      (h.alone t device r pRoot used hw).sole⟩,
    h.ok, h.apart, h.own, h.ownApart, h.mounted, h.ramDisk, h.kind⟩

theorem Kept.plain (h : Kept s) (hb : Bounded s) (hp : Parts t s x) (hc : Closes t place x s')
    (hcreates : place.creates = false) (hgot : place.gotRoot = none) (hdisk : place.disk = none)
    (hmount : place.pMount = none)
    (hgone : (s.threads t).place.Elsewhere) :
    Kept s' := by
  refine h.moves hb (hp.moves h hc hcreates hgone) ?_
  rw [hc.place]
  exact goes_plain hgot hdisk hmount

theorem grows_junction {target file_root : List WChar}
    (hsame : SameJunction env s target file_root a) :
    Grows s (if a.folder then s.createJunction env target file_root a else (0x12, s)).2 ∧
      (if a.folder then s.createJunction env target file_root a else (0x12, s)).2.roots =
        s.roots ∧
      (if a.folder then s.createJunction env target file_root a else (0x12, s)).2.m_RamDisk =
        s.m_RamDisk ∧
      (if a.folder then s.createJunction env target file_root a else (0x12, s)).2.mounts =
        s.mounts ∧
      (if a.folder then s.createJunction env target file_root a else (0x12, s)).2.devices =
        s.devices := by
  have hlink : ∀ junctions : List WChar → Option (List WChar),
      Grows s { s with junctions := junctions } := fun junctions => { Grows.refl s with }
  cases hfolder : a.folder with
  | false => exact ⟨Grows.refl s, rfl, rfl, rfl, rfl⟩
  | true =>
    rw [if_pos rfl]
    unfold createJunction
    dsimp only
    cases hold : s.junctions (env.key file_root) with
    | none =>
      dsimp only
      split_ifs
      · exact ⟨Grows.refl s, rfl, rfl, rfl, rfl⟩
      · exact ⟨hlink _, rfl, rfl, rfl, rfl⟩
      · exact ⟨Grows.refl s, rfl, rfl, rfl, rfl⟩
    | some old =>
      dsimp only
      by_cases hopened : a.opened = true
      · rw [if_neg (by simp [hopened])]
        by_cases hsame' : Text.sameNoCase env.towlower old target = true
        · rw [if_pos hsame']
          exact ⟨Grows.refl s, rfl, rfl, rfl, rfl⟩
        rw [if_neg hsame']
        by_cases hdeleted : a.deleted = true
        · rw [if_neg (by simp [hdeleted])]
          have hfree := hsame (by simp [hfolder, hopened, hdeleted]) old hold
            (Bool.eq_false_iff.mpr hsame')
          rw [hfree]
          have hnote : ∀ junctions : List WChar → Option (List WChar),
              Grows s { s.note (.removedJunction false) with junctions := junctions } :=
            fun junctions => { Grows.refl s with
              kind := fun e he => (List.mem_cons.mp he).elim
                (fun heq => .inr (heq ▸ rfl)) .inl }
          split_ifs
          · exact ⟨hnote _, rfl, rfl, rfl, rfl⟩
          · exact ⟨hnote _, rfl, rfl, rfl, rfl⟩
        · rw [if_pos (by simp [hdeleted])]
          exact ⟨Grows.refl s, rfl, rfl, rfl, rfl⟩
      · rw [if_pos (by simp [hopened])]
        exact ⟨Grows.refl s, rfl, rfl, rfl, rfl⟩

variable [DecidableEq T]

theorem kept_call (h : Kept s) (hb : Bounded s) (hidle : (s.threads t).place = .idle) (c : Call)
    (hnot : ∀ file_root, c ≠ .createHandler file_root) : Kept (s.call t c) := by
  have hgone : (s.threads t).place.Elsewhere := by rw [hidle]; exact nofun
  have hbegin : ∀ place : Place, place.creates = false → place.gotRoot = none →
      place.disk = none → place.pMount = none → Kept (s.begin t place) :=
    fun place h₁ h₂ h₃ h₄ => h.plain hb (parts_refl h) (closes_begin t place s) h₁ h₂ h₃ h₄ hgone
  have hret : Kept ((s.begin t .idle).ret t) := by
    refine h.plain hb (parts_refl h) (?_ : Closes t .idle s _) rfl rfl rfl rfl hgone
    have hc := closes_begin t .idle s
    exact ⟨rfl, rfl, rfl, rfl, rfl, rfl, goto_place t .idle _, fun t' ht' =>
      ((closes_ret t (s.begin t .idle)).others t' ht').trans (hc.others t' ht'),
      (closes_ret t (s.begin t .idle)).kind⟩
  cases c with
  | createHandler file_root => exact absurd rfl (hnot file_root)
  | updateHandler => exact hret
  | queryHandler reg_root =>
    unfold State.call
    dsimp only
    split_ifs
    · exact hbegin _ rfl rfl rfl rfl
    · exact hbegin _ rfl rfl rfl rfl
    · exact hret
  | _ => exact hbegin _ rfl rfl rfl rfl

theorem kept_mounted (hi : Inv s) (h : Kept s) {p : Option MountId × State T} {m : MountId}
    (hg : Grows s p.2) (hroots : p.2.roots = s.roots) (hram : p.2.m_RamDisk = s.m_RamDisk)
    (hm : s.nextMount ≤ m) (reg_root file_root : List WChar) (auto_unmount : Bool)
    (hgone : (s.threads t).place.Elsewhere) :
    Kept (p.2.mounted t reg_root file_root auto_unmount m) := by
  have hp : Parts t s p.2 := parts_roots h hg hroots hram
  have hc := closes_goto t (.getBoxRoot (.mountHandler m file_root auto_unmount) reg_root mayRetry
    none) p.2
  refine h.moves hi.bounded (hp.moves h hc rfl hgone) ?_
  show Goes t _ ((State.goto t _ p.2).threads t).place
  rw [hc.place]
  refine ⟨fun _ hr => (nomatch hr), fun _ _ hw => (nomatch hw), fun _ _ _ _ hw => (nomatch hw),
    fun _ _ _ _ hw => (nomatch hw), fun _ _ _ _ _ hw => (nomatch hw), fun m' hm' => ?_,
    fun t' m' ht' hm' => ?_⟩
  · obtain rfl : m = m' := Option.some.inj hm'
    show (∀ r, (p.2.roots r).mount ≠ some m) ∧ p.2.m_RamDisk ≠ some m
    rw [hroots, hram]
    exact ⟨fun r hr => absurd (hi.bounded.mount r m hr) (Nat.not_lt.mpr hm),
      fun hr => absurd (hi.bounded.ramDisk m hr) (Nat.not_lt.mpr hm)⟩
  · obtain rfl : m = m' := Option.some.inj hm'
    show ((State.goto t _ p.2).threads t').place.pMount ≠ some m
    rw [hc.others t' ht', hg.threads]
    exact fun hown => absurd ((hi.relies t').mount m hown) (Nat.not_lt.mpr hm)

theorem kept_mountFind (env : Env) (a : Answers) (hi : Inv s) (h : Kept s)
    (reg_root file_root : List WChar) (auto_unmount : Bool)
    (hgone : (s.threads t).place.Elsewhere) :
    Kept (match s.findImDisk env (env.getImageFileName file_root) a with
      | (none, s) => s.goto t (.mountNew reg_root file_root auto_unmount)
      | (some m, s) => s.mounted t reg_root file_root auto_unmount m) := by
  obtain ⟨hg, hroots, hram, -, hmade⟩ :=
    grows_findImDisk h.devices env (env.getImageFileName file_root) a
  generalize s.findImDisk env (env.getImageFileName file_root) a = p at hg hroots hram hmade
  obtain ⟨_ | m, x⟩ := p
  · exact h.plain hi.bounded (parts_roots h hg hroots hram)
      (closes_goto t (.mountNew reg_root file_root auto_unmount) x) rfl rfl rfl rfl
      hgone
  · exact kept_mounted hi h hg hroots hram (hmade m rfl).1.new _ _ _ hgone

theorem kept_mountNew (env : Env) (a : Answers) (hi : Inv s) (h : Kept s)
    (reg_root file_root : List WChar) (auto_unmount : Bool)
    (hgone : (s.threads t).place.Elsewhere) :
    Kept (match s.mountImDisk (env.getImageFileName file_root) a with
      | (none, s) => s.ret t
      | (some m, s) => s.mounted t reg_root file_root auto_unmount m) := by
  obtain ⟨hg, hroots, hram, hmade⟩ := grows_mountImDisk (env.getImageFileName file_root) a s
  generalize s.mountImDisk (env.getImageFileName file_root) a = p at hg hroots hram hmade
  obtain ⟨_ | m, x⟩ := p
  · exact h.plain hi.bounded (parts_roots h hg hroots hram) (closes_ret t x) rfl rfl rfl rfl hgone
  · exact kept_mounted hi h hg hroots hram (hmade m rfl).1.new _ _ _ hgone

variable {r : RootId}

theorem kept_mountJunction (hi : Inv s) (h : Kept s) {reg_root file_root target : List WChar}
    (hsame : SameJunction env s target file_root a)
    (hgone : (s.threads t).place.Elsewhere) :
    Kept (if (if a.folder then s.createJunction env target file_root a else (0x12, s)).1 = 0 then
        (if a.folder then s.createJunction env target file_root a else (0x12, s)).2.ret t
      else (if a.folder then s.createJunction env target file_root a else (0x12, s)).2.goto t
        (.release reg_root true (some r))) := by
  obtain ⟨hg, hroots, hram, -⟩ := grows_junction hsame
  generalize (if a.folder then s.createJunction env target file_root a else (0x12, s)) = j at *
  have hp : Parts t s j.2 := parts_roots h hg hroots hram
  split_ifs
  · exact h.plain hi.bounded hp (closes_ret t j.2) rfl rfl rfl rfl hgone
  · exact h.plain hi.bounded hp (closes_goto t _ j.2) rfl rfl rfl rfl hgone

/-! ### Steps in the lock -/

variable {reg_root : List WChar} {pRoot : Option RootId} {caller : Caller}

theorem Kept.asks (h : Kept s) (hb : Bounded s) (hm : Moves t s s')
    (hplace' : (s'.threads t).place = place)
    (hcaller : place.pMount = (s.threads t).place.pMount)
    (hgot : ∀ r, place.gotRoot = some r → r ∈ s'.m_RootMap.values) (hdisk : place.disk = none)
    (hown : ∀ m, (s.threads t).place.pMount = some m →
      (∀ r, (s'.roots r).mount ≠ some m) ∧ s'.m_RamDisk ≠ some m) : Kept s' := by
  refine h.moves hb hm ?_
  rw [hplace']
  refine ⟨hgot, fun device r hw => absurd hw (by rw [hdisk]; simp), fun _ _ _ _ hw => ?_,
    fun _ _ _ _ hw => ?_, fun _ device r _ _ hw => absurd hw (by rw [hdisk]; simp), fun m hm' => ?_,
    fun t' m ht' hm' => ?_⟩
  · rw [hw] at hdisk
    exact nomatch hdisk
  · rw [hw] at hdisk
    exact nomatch hdisk
  · exact hown m (hcaller ▸ hm')
  · rw [hm.threads t' ht']
    exact h.ownApart t t' m (Ne.symm ht') (hcaller ▸ hm')

theorem kept_getBoxRootLocked (hi : Inside t s) (h : Kept s) {mayRetry : Nat}
    (hplace : (s.threads t).place = .getBoxRoot caller reg_root mayRetry pRoot)
    (hretry : ∀ r ∈ s.m_RootMap.value reg_root, s.unmounting r → 0 < mayRetry - 1) :
    Kept (s.getBoxRootLocked t caller reg_root mayRetry) := by
  have hb := hi.data.bounded
  have hgone : (s.threads t).place.Elsewhere := by rw [hplace]; exact nofun
  have hcaller : ∀ r, (Place.gotBoxRoot caller reg_root r).pMount = (s.threads t).place.pMount := by
    intro r
    rw [hplace]
    cases caller <;> rfl
  unfold State.getBoxRootLocked
  cases hfind : s.m_RootMap.value reg_root with
  | none =>
    dsimp only
    split_ifs with hadd
    · have hc := closes_gotRoot t (.gotBoxRoot caller reg_root s.nextRoot) (some s.nextRoot)
        (s.addRoot reg_root)
      have hne : ∀ r m, (s.roots r).mount = some m → r ≠ s.nextRoot := by
        rintro r m hm rfl
        rw [hb.root _ le_rfl] at hm
        exact nomatch hm
      have hroot : ∀ r, r ≠ s.nextRoot → (s.addRoot reg_root).roots r = s.roots r :=
        fun r hr => Function.update_of_ne hr _ _
      have hnew : (s.addRoot reg_root).roots s.nextRoot = {} := Function.update_self _ _ _
      have hmount : ∀ r m, ((s.addRoot reg_root).roots r).mount = some m →
          (s.roots r).mount = some m := by
        intro r m hm
        by_cases heq : r = s.nextRoot
        · rw [heq, hnew] at hm
          exact nomatch hm
        · rw [hroot r heq] at hm
          exact hm
      have hmem : ∀ r, r ∈ s.m_RootMap.values → r ∈ (s.addRoot reg_root).m_RootMap.values :=
        fun r hr => mem_values_insert_of_none hfind hr
      have hstay : ∀ t' device r, (s.threads t').place.disk = some (device, r) →
          r ≠ s.nextRoot := by
        intro t' device r hw
        obtain ⟨m, hm, -⟩ := (h.disk t' device r hw).mount
        exact hne r m hm
      refine h.asks hb ?_ hc.place (hcaller _) ?_ rfl ?_
      · refine ⟨hc.others, le_rfl, fun _ _ => rfl, fun m hle hlt => absurd hlt (Nat.not_lt.mpr hle),
          h.devices, fun _ => id, ?_, ?_, ?_, ?_, .inl rfl, ?_, ?_, ?_, ?_, hc.kind⟩
        · intro k k' r hk hk'
          have hk₁ : (s.m_RootMap.insert reg_root s.nextRoot).value k = some r := hk
          have hk₂ : (s.m_RootMap.insert reg_root s.nextRoot).value k' = some r := hk'
          rw [SortedMap.value_insert] at hk₁ hk₂
          have hold : ∀ k'', s.m_RootMap.value k'' = some r → r < s.nextRoot := fun k'' hk'' =>
            hb.map r (SortedMap.mem_values.mpr ⟨k'', hk''⟩)
          split_ifs at hk₁ hk₂ with h₁ h₂ h₂
          · rw [h₁, h₂]
          · exact absurd (hold k' hk₂) (by rw [← Option.some.inj hk₁]; exact Nat.lt_irrefl _)
          · exact absurd (hold k hk₁) (by rw [← Option.some.inj hk₂]; exact Nat.lt_irrefl _)
          · exact h.single k k' r hk₁ hk₂
        · exact congrArg Place.creates hc.place
        · exact fun t' r _ hr => hmem r (h.got t' r hr)
        · intro r hr
          rcases mem_values_insert hr with rfl | hold
          · refine .inr fun m hm => ?_
            have hm' : ((s.addRoot reg_root).roots s.nextRoot).mount = some m := hm
            rw [hnew] at hm'
            exact nomatch hm'
          · refine .inl ⟨hold, ?_⟩
            show ((s.addRoot reg_root).roots r).mount = _
            rw [hroot r (Nat.ne_of_lt (hb.map r hold))]
        · intro t' device r _ hw
          refine ⟨hmem r (h.disk t' device r hw).mem, ?_⟩
          show ((s.addRoot reg_root).roots r).mount = _
          rw [hroot r (hstay t' device r hw)]
        · intro t' device r pRoot' used _ hw
          show ((s.addRoot reg_root).roots r).inUse = false
          rw [hroot r (hstay t' device r (by rw [hw]; rfl))]
          exact (h.alone t' device r pRoot' used hw).inUse
        · intro t' m _ hm
          exact ⟨fun r hr => (h.own t' m hm).1 r (hmount r m hr), (h.own t' m hm).2⟩
        · exact fun device r pRoot' ok hw => absurd hw (hgone device r pRoot' ok)
      · intro r hr
        obtain rfl : s.nextRoot = r := Option.some.inj hr
        refine SortedMap.mem_values.mpr ⟨reg_root, ?_⟩
        show (s.m_RootMap.insert reg_root s.nextRoot).value reg_root = _
        rw [SortedMap.value_insert, if_pos rfl]
      · intro m hm
        exact ⟨fun r hr => (h.own t m hm).1 r (hmount r m hr), (h.own t m hm).2⟩
    · have hnone : (s.leave t).gotNone t caller = ((s.leave t).gotRoot t none).ret t := by
        cases caller with
        | mountHandler => exact absurd rfl hadd
        | _ => rfl
      rw [hnone]
      refine h.plain hb (parts_refl h) (?_ : Closes t .idle s _) rfl rfl rfl rfl hgone
      refine ⟨rfl, rfl, rfl, rfl, rfl, rfl, goto_place t .idle _,
        fun _ ht' => Function.update_of_ne ht' _ _, fun e he => ?_⟩
      rcases List.mem_cons.mp he with rfl | he₁
      · exact .inr trivial
      · rcases List.mem_cons.mp he₁ with rfl | he₂
        · exact .inr trivial
        · rcases List.mem_cons.mp he₂ with rfl | he₃
          · exact .inr trivial
          · exact .inl he₃
  | some r =>
    have hmem : r ∈ s.m_RootMap.values := SortedMap.mem_values.mpr ⟨reg_root, hfind⟩
    dsimp only
    split_ifs with hun hmore
    · have hc := closes_leave_goto t (.getBoxRoot caller reg_root (mayRetry - 1) (some r)) s
      refine h.asks hb ((parts_refl h).moves h hc rfl hgone) hc.place ?_
        (fun _ hr => nomatch hr) rfl (h.own t)
      rw [hplace]
      cases caller <;> rfl
    · exact absurd (hretry r hfind hun) hmore
    · have hc := closes_gotRoot t (.gotBoxRoot caller reg_root r) (some r) s
      refine h.asks hb ((parts_refl h).moves h hc rfl hgone) hc.place (hcaller r)
        (fun r' hr' => ?_) rfl (h.own t)
      obtain rfl : r = r' := Option.some.inj hr'
      exact hmem

theorem Inside.not_disk (hi : Inside t s) (hnot : s.unmounting r = false)
    (t' : T) (device : List WChar) (r' : RootId)
    (hw : (s.threads t').place.disk = some (device, r')) : r' ≠ r := by
  cases hplace : (s.threads t').place with
  | unmount device' r₁ pRoot used =>
    rw [hplace] at hw
    obtain ⟨-, rfl⟩ := Prod.mk.inj (Option.some.inj hw)
    exact hi.data.free hnot t' r₁ pRoot (by rw [hplace]; rfl)
  | unmounted device' r₁ pRoot ok =>
    rw [hplace] at hw
    obtain ⟨-, rfl⟩ := Prod.mk.inj (Option.some.inj hw)
    exact hi.data.free hnot t' r₁ pRoot (by rw [hplace]; rfl)
  | _ =>
    rw [hplace] at hw
    exact nomatch hw

theorem Inside.there (hi : Inside t s) (h : Kept s) {m : MountId}
    (hr : r ∈ s.m_RootMap.values) (hnot : s.unmounting r = false)
    (hm : (s.roots r).mount = some m) : s.hasDevice (s.mounts m).ntPath = true := by
  rcases h.mounted r hr m hm with hthere | ⟨t', device, pRoot, ok, hw⟩
  · exact hthere
  · exact absurd rfl (hi.not_disk hnot t' device r (by rw [hw]; rfl))

theorem kept_mountHandler (hi : Inside t s) (h : Kept s) {pMount : MountId}
    {reg_root file_root : List WChar} {auto_unmount : Bool}
    (hplace : (s.threads t).place =
      .gotBoxRoot (.mountHandler pMount file_root auto_unmount) reg_root r)
    (hnot : s.unmounting r = false)
    (hthere : s.hasDevice (s.mounts pMount).ntPath = true)
    (hstays : ¬ BeingUnmounted s (s.mounts pMount).ntPath) (place : Place)
    (hplain : place.creates = false ∧ place.gotRoot = none ∧ place.disk = none ∧
      place.pMount = none) (root : BoxRoot) (hroot : root.mount = some pMount) :
    Kept (((s.setRoot r root).leave t).goto t place) := by
  have hown := h.own t pMount (by rw [hplace]; rfl)
  have hself : (s.setRoot r root).roots r = root := setRoot_self s r root
  have hother : ∀ r', r' ≠ r → (s.setRoot r root).roots r' = s.roots r' :=
    fun r' hr' => Function.update_of_ne hr' _ _
  have hgiven : Given t s (s.setRoot r root) pMount :=
    ⟨hthere, fun t' device r' _ _ => hown.1 r',
      fun t' _ => Bool.eq_false_iff.mpr fun hu => hstays ⟨t', hu⟩⟩
  have hfree : ∀ t' device r', (s.threads t').place.disk = some (device, r') → r' ≠ r :=
    fun t' device r' hw => hi.not_disk hnot t' device r' hw
  have hp : Parts t s (s.setRoot r root) := by
    refine { ({ Grows.refl s with } : Grows s (s.setRoot r root)) with
      roots := fun r' => ?_, ramDisk := .inl rfl, stay := fun t' device r' _ hw => ?_,
      inUse := fun t' device r' pRoot used _ hw => ?_, own := fun t' m ht' hm => ⟨fun r' hr' => ?_,
        (h.own t' m hm).2⟩ }
    · by_cases heq : r' = r
      · refine .inr fun m hm => ?_
        rw [heq, hself, hroot] at hm
        exact Option.some.inj hm ▸ hgiven
      · exact .inl (by rw [hother r' heq])
    · rw [hother r' (hfree t' device r' hw)]
    · rw [hother r' (hfree t' device r' (by rw [hw]; rfl))]
      exact (h.alone t' device r' pRoot used hw).inUse
    · by_cases heq : r' = r
      · rw [heq, hself, hroot] at hr'
        exact h.ownApart t' t m ht' hm (by rw [hplace]; exact hr')
      · rw [hother r' heq] at hr'
        exact (h.own t' m hm).1 r' hr'
  refine h.plain hi.data.bounded hp (closes_leave_goto t place _) hplain.1 hplain.2.1 hplain.2.2.1
    hplain.2.2.2 fun device r' pRoot ok hw => ?_
  rw [hplace] at hw
  exact nomatch hw

theorem kept_unmount (hi : Inside t s) (h : Kept s) {m : MountId} (hg : Grows s x)
    (hmount : ∀ r, (x.roots r).mount = (s.roots r).mount)
    (hinUse : ∀ r, (x.roots r).inUse = true → (s.roots r).inUse = true)
    (hram : x.m_RamDisk = s.m_RamDisk) (hr : r ∈ s.m_RootMap.values)
    (hm : (s.roots r).mount = some m) (hnot : s.unmounting r = false)
    (hfree : (x.roots r).inUse = false) (hsole : Sole s r (s.mounts m).ntPath)
    (hgone : (s.threads t).place.Elsewhere) :
    Kept (x.unmountImDiskLocked t r m pRoot false) := by
  have hlt := hi.data.bounded.mount r m hm
  have hpath : (x.mounts m).ntPath = (s.mounts m).ntPath := hg.ntPath m hlt
  have hset : ∀ m', ((x.setMount m { x.mounts m with unmounting := true }).mounts m').ntPath =
      (x.mounts m').ntPath := by
    intro m'
    show (Function.update x.mounts m _ m').ntPath = _
    by_cases heq : m' = m
    · rw [heq, Function.update_self]
    · rw [Function.update_of_ne heq]
  have hg' : Grows s (x.setMount m { x.mounts m with unmounting := true }) :=
    { hg with
      ntPath := fun m' hm' => (hset m').trans (hg.ntPath m' hm')
      named := fun m' hle hlt' => by
        rw [hset m']
        exact hg.named m' hle hlt' }
  have hp : Parts t s (x.setMount m { x.mounts m with unmounting := true }) :=
    parts_same h hg' hmount hinUse hram
  have hc := closes_leave_goto t (.unmount (x.mounts m).ntPath r pRoot false)
    (x.setMount m { x.mounts m with unmounting := true })
  have hmoves := hp.moves h hc rfl hgone
  have hsole' : ∀ r' ∈ s.m_RootMap.values, ∀ m', (s.roots r').mount = some m' →
      (s.mounts m').ntPath = (s.mounts m).ntPath → r' = r := by
    intro r' hr' m' hm' heq
    by_contra hne
    have hoff := hsole.1 r' hr' hne
    rw [hm', Bool.eq_false_iff] at hoff
    exact hoff (onDevice_some.mpr heq)
  have hramOff : ∀ m', s.m_RamDisk = some m' → (s.mounts m').ntPath ≠ (s.mounts m).ntPath := by
    intro m' hm' heq
    have hoff := hsole.2
    rw [hm', Bool.eq_false_iff] at hoff
    exact hoff (onDevice_some.mpr heq)
  refine h.moves hi.data.bounded hmoves ?_
  show Goes t _ ((State.goto t _ _).threads t).place
  rw [hc.place]
  refine ⟨fun _ hr => (nomatch hr), fun device r₁ hw => ?_, fun device r₁ pRoot₁ used hw => ?_,
    fun _ _ _ _ hw => (nomatch hw), fun t' device r₁ r₂ ht' hw hw' => ?_, fun _ hm => (nomatch hm),
    fun _ _ _ hm => (nomatch hm)⟩
  · cases hw
    refine ⟨?_, m, (hmount r).trans hm, hset m, fun r' hr' hm' => ?_, ?_⟩
    · show r ∈ x.m_RootMap.values
      rw [hg.map]
      exact hr
    · have hr'' : r' ∈ x.m_RootMap.values := hr'
      rw [hg.map] at hr''
      exact hsole' r' hr'' m ((hmount r').symm.trans hm') rfl
    · show x.m_RamDisk ≠ some m
      rw [hram]
      exact fun heq => hramOff m heq rfl
  · obtain ⟨rfl, rfl, -, rfl⟩ := Place.unmount.inj hw
    refine ⟨rfl, hfree, ?_, fun r' hr' hne => ?_, ?_⟩
    · show x.hasDevice (x.mounts m).ntPath = true
      rw [hpath]
      exact hg.hasDevice _ (hi.there h hr hnot hm)
    · have hr'' : r' ∈ x.m_RootMap.values := hr'
      rw [hg.map] at hr''
      show State.onDevice _ _ (x.roots r').mount = false
      rw [hmount r']
      cases hm' : (s.roots r').mount with
      | none => rfl
      | some m' =>
        refine Bool.eq_false_iff.mpr fun hon => hne (hsole' r' hr'' m' hm' ?_)
        have hpath' := onDevice_some.mp hon
        rw [← hpath, ← hpath', ← hg.ntPath m' (hi.data.bounded.mount r' m' hm')]
        exact (hset m').symm
    · show State.onDevice _ _ x.m_RamDisk = false
      rw [hram]
      cases hm' : s.m_RamDisk with
      | none => rfl
      | some m' =>
        refine Bool.eq_false_iff.mpr fun hon => hramOff m' hm' ?_
        have hpath' := onDevice_some.mp hon
        rw [← hpath, ← hpath', ← hg.ntPath m' (hi.data.bounded.ramDisk m' hm')]
        exact (hset m').symm
  · cases hw
    have hw'' : (s.threads t').place.disk = some ((x.mounts m).ntPath, r₂) := by
      rw [← hmoves.threads t' ht']
      exact hw'
    obtain ⟨hmem, m', hm', hpath', -⟩ := h.disk t' _ r₂ hw''
    exact hi.not_disk hnot t' _ r₂ hw'' (hsole' r₂ hmem m' hm' (hpath'.trans hpath))

theorem grows_removeJunction (hown : OwnJunction env s r a) (hr : (s.roots r).inUse = false) :
    Grows s (s.removeJunction env (s.roots r).path false a) ∧
      (s.removeJunction env (s.roots r).path false a).roots = s.roots := by
  unfold removeJunction
  dsimp only
  split_ifs with hjunction
  · have hfree : (false || s.someInUse fun root =>
        env.key root.path == env.key (s.roots r).path) = false := by
      rw [Bool.false_or, State.someInUse, Bool.eq_false_iff]
      intro hany
      obtain ⟨r', hr', huse⟩ := List.any_eq_true.mp hany
      obtain ⟨hin, hpath⟩ := Bool.and_eq_true_iff.mp huse
      by_cases heq : r' = r
      · rw [heq, hr] at hin
        exact nomatch hin
      · exact hown hjunction r' hr' heq hin (beq_iff_eq.mp hpath)
    rw [hfree]
    refine ⟨{ Grows.refl s with
      kind := fun e he => (List.mem_cons.mp he).elim (fun heq => .inr (heq ▸ rfl)) .inl }, rfl⟩
  · exact ⟨Grows.refl s, rfl⟩

/-- What `AcquireBoxRoot` leaves, when it finds no device that is being unmounted. -/
theorem parts_provideMount (env : Env) (a : Answers) (hi : Inside t s) (h : Kept s)
    (file_root : List WChar) (useRamDisk : Bool) (hnot : s.unmounting r = false)
    (hfind : a.certified = true → s.noDisk (s.roots r).mount = true →
      (useRamDisk = true → s.noDisk s.m_RamDisk = true) →
      ∀ d ∈ env.findDevice s.devices (if useRamDisk then [] else env.getImageFileName file_root),
        ¬ BeingUnmounted s d.ntPath) :
    Parts t s (s.provideMount env r file_root useRamDisk a).2 ∧
      (∀ r', r' ≠ r → (s.provideMount env r file_root useRamDisk a).2.roots r' = s.roots r') ∧
      ((s.provideMount env r file_root useRamDisk a).2.roots r).inUse = (s.roots r).inUse := by
  have hb := hi.data.bounded
  unfold provideMount
  by_cases hcert : a.certified = true
  · rw [if_neg (by simp [hcert])]
    by_cases hno : s.noDisk (s.roots r).mount = true
    · rw [if_pos hno]
      -- the disk of either kind
      have hdisk : Grows s (s.provideDisk env file_root useRamDisk a).2 ∧
          (s.provideDisk env file_root useRamDisk a).2.roots = s.roots ∧
          ((s.provideDisk env file_root useRamDisk a).2.m_RamDisk = s.m_RamDisk ∨
            ∀ m, (s.provideDisk env file_root useRamDisk a).2.m_RamDisk = some m →
              Fit s (s.provideDisk env file_root useRamDisk a).2 m) ∧
          ∀ m, (s.provideDisk env file_root useRamDisk a).1 = some m →
            Fit s (s.provideDisk env file_root useRamDisk a).2 m := by
        cases useRamDisk with
        | true =>
          obtain ⟨hg, hroots, hfit⟩ := fit_provideRamDisk env a h
            fun hram => hfind hcert hno fun _ => hram
          exact ⟨hg, hroots, .inr hfit, hfit⟩
        | false =>
          obtain ⟨hg, hroots, hram, hfit⟩ := fit_provideImage (a := a) h
            (hfind hcert hno fun hfalse => nomatch hfalse)
          exact ⟨hg, hroots, .inl hram, hfit⟩
      generalize s.provideDisk env file_root useRamDisk a = p at hdisk
      obtain ⟨hg, hroots, hram, hfit⟩ := hdisk
      -- whatever the root keeps of the rest, its mount is the new one
      have hset : ∀ root : BoxRoot, root.mount = p.1 → root.inUse = (s.roots r).inUse →
          Parts t s (p.2.setRoot r root) := by
        intro root hmount hinUse
        have hother : ∀ r', r' ≠ r → (p.2.setRoot r root).roots r' = s.roots r' := fun r' hr' => by
          rw [← hroots]
          exact Function.update_of_ne hr' _ _
        have hself : (p.2.setRoot r root).roots r = root := setRoot_self _ _ _
        have hgiven : ∀ m, Fit s p.2 m → Given t s (p.2.setRoot r root) m := fun m hm =>
          let hgiv := hm.given (t := t) h hb
          ⟨hgiv.there, hgiv.free, hgiv.stays⟩
        have hnew : ∀ t' m, (s.threads t').place.pMount = some m → ¬ Fit s p.2 m := by
          intro t' m hm hfit'
          rcases hfit'.origin with hle | hram'
          · exact absurd ((hi.data.relies t').mount m hm) (Nat.not_lt.mpr hle)
          · exact (h.own t' m hm).2 hram'
        refine { ({ hg with } : Grows s (p.2.setRoot r root)) with
          roots := fun r' => ?_
          ramDisk := hram.imp_right fun hfit' m hm => hgiven m (hfit' m hm)
          stay := fun t' device r' _ hw => by
            rw [hother r' (hi.not_disk hnot t' device r' hw)]
          inUse := fun t' device r' pRoot used _ hw => by
            rw [hother r' (hi.not_disk hnot t' device r' (by rw [hw]; rfl))]
            exact (h.alone t' device r' pRoot used hw).inUse
          own := fun t' m _ hm => ⟨fun r' hr' => ?_, fun hr' => ?_⟩ }
        · by_cases heq : r' = r
          · refine .inr fun m hm => hgiven m (hfit m ?_)
            rw [heq, hself, hmount] at hm
            exact hm
          · exact .inl (by rw [hother r' heq])
        · by_cases heq : r' = r
          · rw [heq, hself, hmount] at hr'
            exact hnew t' m hm (hfit m hr')
          · rw [hother r' heq] at hr'
            exact (h.own t' m hm).1 r' hr'
        · rcases hram with hsame | hfit'
          · exact (h.own t' m hm).2 (hsame.symm.trans hr')
          · exact hnew t' m hm (hfit' m hr')
      have hother : ∀ (root : BoxRoot) r', r' ≠ r → (p.2.setRoot r root).roots r' = s.roots r' :=
        fun root r' hr' => by
          rw [← hroots]
          exact Function.update_of_ne hr' _ _
      have hkept : (p.2.roots r).inUse = (s.roots r).inUse := by rw [hroots]
      dsimp only
      split_ifs
      · exact ⟨hset _ rfl hkept, hother _, by rw [setRoot_self]; exact hkept⟩
      have htwice : (p.2.setRoot r { p.2.roots r with mount := p.1 }).setRoot r
          { (p.2.setRoot r { p.2.roots r with mount := p.1 }).roots r with path := file_root } =
          p.2.setRoot r { p.2.roots r with mount := p.1, path := file_root } := by
        rw [setRoot_self]
        unfold setRoot
        rw [Function.update_idem]
      rw [htwice]
      exact ⟨hset _ rfl hkept, hother _, by rw [setRoot_self]; exact hkept⟩
    · rw [if_neg hno]
      exact ⟨parts_refl h, fun _ _ => rfl, rfl⟩
  · rw [if_pos (by simp [hcert])]
    exact ⟨parts_refl h, fun _ _ => rfl, rfl⟩

theorem findImDisk_junctions (env : Env) (a : Answers) (s : State T) (imageFile : List WChar) :
    (s.findImDisk env imageFile a).2.junctions = s.junctions := by
  unfold findImDisk
  split
  · split <;> rfl
  · rfl

theorem mountImDisk_junctions (imageFile : List WChar) :
    (s.mountImDisk imageFile a).2.junctions = s.junctions := by
  unfold mountImDisk
  split
  · rfl
  · split_ifs <;> rfl

theorem provideDisk_junctions (file_root : List WChar) (useRamDisk : Bool) :
    (s.provideDisk env file_root useRamDisk a).2.junctions = s.junctions := by
  cases useRamDisk with
  | true =>
    show (s.provideRamDisk env a).junctions = s.junctions
    unfold provideRamDisk
    dsimp only
    split_ifs
    · exact (mountImDisk_junctions _).trans (findImDisk_junctions _ _ _ _)
    · exact findImDisk_junctions _ _ _ _
    · exact mountImDisk_junctions _
    · rfl
  | false =>
    show (s.provideImage env _ a).2.junctions = s.junctions
    have hfind := findImDisk_junctions env a s (env.getImageFileName file_root)
    unfold provideImage
    generalize s.findImDisk env (env.getImageFileName file_root) a = p at hfind
    obtain ⟨_ | m, x⟩ := p
    · exact (mountImDisk_junctions _).trans hfind
    · exact hfind

theorem provideMount_junctions (env : Env) (a : Answers) (s : State T) (r : RootId)
    (file_root : List WChar) (useRamDisk : Bool) :
    (s.provideMount env r file_root useRamDisk a).2.junctions = s.junctions := by
  unfold provideMount
  dsimp only
  split_ifs
  · rfl
  · exact provideDisk_junctions _ _
  · exact provideDisk_junctions _ _
  · rfl

theorem someInUse_of_ne {p : BoxRoot → Bool} (hmap : x.m_RootMap = s.m_RootMap)
    (hother : ∀ r', r' ≠ r → x.roots r' = s.roots r') (hr : (s.roots r).inUse = false)
    (hr' : (x.roots r).inUse = false) : x.someInUse p = s.someInUse p := by
  unfold State.someInUse
  rw [hmap]
  congr 1
  funext r'
  by_cases heq : r' = r
  · rw [heq, hr, hr']
    rfl
  · rw [hother r' heq]

theorem Parts.after {y : State T} (hp : Parts t s x) (hg : Grows x y) (hroots : y.roots = x.roots)
    (hram : y.m_RamDisk = x.m_RamDisk) (hmounts : y.mounts = x.mounts)
    (hdevices : y.devices = x.devices) : Parts t s y := by
  have hgiven : ∀ m, Given t s x m → Given t s y m := by
    intro m hgiv
    refine ⟨?_, hgiv.free, ?_⟩
    · have hthere := hgiv.there
      unfold State.hasDevice at hthere ⊢
      rw [hmounts, hdevices]
      exact hthere
    · rw [hmounts]
      exact hgiv.stays
  refine { hp.toGrows.trans hg with
    roots := fun r => ?_, ramDisk := ?_, stay := ?_, inUse := ?_, own := ?_ }
  · rw [hroots]
    exact (hp.roots r).imp_right fun h m hm => hgiven m (h m hm)
  · rw [hram]
    exact hp.ramDisk.imp_right fun h m hm => hgiven m (h m hm)
  · rw [hroots]
    exact hp.stay
  · rw [hroots]
    exact hp.inUse
  · rw [hroots, hram]
    exact hp.own

theorem checkMount_there {m : Option MountId}
    (h : ∀ m', m = some m' → s.hasDevice (s.mounts m').ntPath = true) : s.checkMount m = s := by
  cases m with
  | none => rfl
  | some m' => exact if_neg fun hbad => hbad.2 (h m' rfl)

theorem kept_acquireBoxRoot (hi : Inside t s) (h : Kept s)
    {boxname reg_root file_root : List WChar} {useRamDisk useFileImage : Bool}
    (hr : r ∈ s.m_RootMap.values) (hnot : s.unmounting r = false)
    (hown : AcquiresOwn env s boxname file_root useRamDisk useFileImage r a)
    (hgone : (s.threads t).place.Elsewhere) :
    Kept (s.acquireBoxRoot env t boxname reg_root file_root useRamDisk useFileImage r a) := by
  have hb := hi.data.bounded
  have hgoto : ∀ y : State T, Parts t s y →
      Kept ((y.leave t).goto t (.release reg_root true (some r))) := fun y hy =>
    h.plain hb hy (closes_leave_goto t _ y) rfl rfl rfl rfl hgone
  have hret : ∀ y : State T, Parts t s y → Kept ((y.leave t).ret t) := fun y hy =>
    h.plain hb hy (closes_leave_ret t y) rfl rfl rfl rfl hgone
  unfold State.acquireBoxRoot
  by_cases hneeded : (!useRamDisk && !useFileImage) = true
  · rw [if_pos hneeded]
    exact hgoto s (parts_refl h)
  rw [if_neg hneeded]
  have hneeded' : (useRamDisk || useFileImage) = true := by
    cases useRamDisk <;> cases useFileImage <;> simp_all
  -- the device is there
  have hcheck : (if (s.roots r).inUse then s
      else s.checkMount (if useRamDisk then s.m_RamDisk else (s.roots r).mount)) = s := by
    split_ifs
    · rfl
    · exact checkMount_there fun m hm => h.ramDisk m hm
    · exact checkMount_there fun m hm => hi.there h hr hnot hm
  dsimp only
  rw [hcheck]
  obtain ⟨hp, hother, hinUse⟩ := parts_provideMount env a hi h file_root useRamDisk hnot
    fun hcert => (hown hneeded' hcert).1
  have hlinks := provideMount_junctions env a s r file_root useRamDisk
  have hcert : (s.provideMount env r file_root useRamDisk a).1 = 0 → a.certified = true := by
    intro herr
    by_contra hcert
    unfold provideMount at herr
    rw [if_pos (by simp [hcert])] at herr
    exact absurd herr (by simp)
  have hsame : (s.provideMount env r file_root useRamDisk a).1 = 0 → (s.roots r).inUse = false →
      ∀ m ∈ ((s.provideMount env r file_root useRamDisk a).2.roots r).mount,
        SameJunction env s (junctionTarget
          ((s.provideMount env r file_root useRamDisk a).2.mounts m).ntPath boxname useRamDisk)
          file_root a := fun herr hin => (hown hneeded' (hcert herr)).2 hin
  generalize s.provideMount env r file_root useRamDisk a = p at hp hother hinUse hlinks hsame
  by_cases herr : p.1 = 0 ∧ (p.2.roots r).inUse = false
  · rw [if_pos herr]
    cases hm : (p.2.roots r).mount with
    | none => exact h.plain hb hp (closes_nullMount t p.2) rfl rfl rfl rfl hgone
    | some m =>
      dsimp only
      have hfree : (s.roots r).inUse = false := hinUse ▸ herr.2
      have hsame' : SameJunction env p.2 (junctionTarget (p.2.mounts m).ntPath boxname useRamDisk)
          file_root a := by
        intro hanswers old hold hdiffers
        rw [someInUse_of_ne hp.map hother hfree herr.2]
        rw [hlinks] at hold
        exact hsame herr.1 hfree m hm hanswers old hold hdiffers
      obtain ⟨hg, hroots, hram, hmounts, hdevices⟩ := grows_junction hsame'
      generalize junctionTarget (p.2.mounts m).ntPath boxname useRamDisk = target at *
      have hj := hp.after hg hroots hram hmounts hdevices
      generalize (if a.folder then p.2.createJunction env target file_root a else (0x12, p.2)) = j
        at hj
      split_ifs
      · exact hret j.2 hj
      · exact hgoto j.2 hj
  · rw [if_neg herr]
    split_ifs
    · exact hret p.2 hp
    · exact hgoto p.2 hp

theorem kept_goOn (hi : Inside t s) (h : Kept s)
    (hplace : (s.threads t).place = .gotBoxRoot caller reg_root r)
    (hnot : s.unmounting r = false) (hcareful : Careful env s (t, .go a)) :
    Kept (s.goOn env t caller reg_root r a) := by
  have hb := hi.data.bounded
  have hr : r ∈ s.m_RootMap.values := h.got t r (by rw [hplace]; rfl)
  have hgone : (s.threads t).place.Elsewhere := by rw [hplace]; exact nofun
  unfold Careful at hcareful
  rw [hplace] at hcareful
  cases caller with
  | mountHandler pMount file_root auto_unmount =>
    exact kept_mountHandler hi h hplace hnot hcareful.1 hcareful.2 _ ⟨rfl, rfl, rfl, rfl⟩ _ rfl
  | unmountHandler =>
    unfold State.goOn
    dsimp only
    by_cases hin : (s.roots r).inUse = true
    · rw [if_pos hin]
      exact h.plain hb (parts_refl h) (closes_leave_ret t s) rfl rfl rfl rfl hgone
    rw [if_neg hin]
    have hfree : (s.roots r).inUse = false := Bool.eq_false_iff.mpr hin
    obtain ⟨hjunction, hsole⟩ := hcareful hfree
    obtain ⟨hg, hroots⟩ := grows_removeJunction hjunction hfree
    have hram := removeJunction_ramDisk env (s.roots r).path false a s
    generalize s.removeJunction env (s.roots r).path false a = y at hg hroots hram
    rw [hroots]
    cases hm : (s.roots r).mount with
    | none =>
      have hp : Parts t s y := parts_roots h hg hroots hram
      exact h.plain hb hp (closes_nullMount t y) rfl rfl rfl rfl hgone
    | some m =>
      exact kept_unmount hi h hg (fun r => by rw [hroots]) (fun r => by
        rw [hroots]
        exact id) hram hr hm hnot (by rw [hroots]; exact hfree) (hsole m hm) hgone
  | queryHandler =>
    unfold State.goOn
    cases (s.roots r).mount with
    | none => exact h.plain hb (parts_refl h) (closes_ret t s) rfl rfl rfl rfl hgone
    | some m => exact h.plain hb (parts_refl h) (closes_leave_ret t s) rfl rfl rfl rfl hgone
  | acquireBoxRoot boxname file_root useRamDisk useFileImage =>
    exact kept_acquireBoxRoot hi h hr hnot hcareful hgone

end Steps

end Sandboxie.MountManager
