import Sandboxie.Svc.MountTurn

/-!
# The lock of the mount manager

When `GetBoxRootLocked` returns a root exactly with the lock, every operation returns with the
lock as it was, and no pointer is used that does not point to anything.
-/

namespace Sandboxie.MountManager

open State List

variable {T : Type}

/-- Every event until now is. -/
def State.Disciplined (s : State T) : Prop := ∀ e ∈ s.log, e.Fine

/-- A step that waits for an unmount: the loop of `GetBoxRootLocked` is not at its last turn, and
`ReleaseBoxRoot` does not begin a second one. -/
def Waits (s : State T) (e : T × Action) : Prop :=
  match e.2, (s.threads e.1).place with
  | .go _, .getBoxRoot _ reg_root mayRetry _ =>
    ∀ r ∈ s.m_RootMap.value reg_root, s.unmounting r → 0 < mayRetry - 1
  | .go _, .release reg_root force _ =>
    ∀ r ∈ s.m_RootMap.value reg_root, ∀ m ∈ (s.roots r).mount,
      (force || (s.roots r).autoUnmount) → some m ≠ s.m_RamDisk → (s.mounts m).unmounting = false
  | _, _ => True

/-- A step that finds the mount that it does not test. -/
def HasMount (s : State T) (e : T × Action) : Prop :=
  match e.2, (s.threads e.1).place with
  | .go _, .gotBoxRoot .unmountHandler _ r => (s.roots r).inUse = false → (s.roots r).mount ≠ none
  | .go _, .gotBoxRoot .queryHandler _ r => (s.roots r).mount ≠ none
  | .go _, .queryRamDisk => s.m_RamDisk ≠ none
  | _, _ => True

/-- The branches that keep the discipline. -/
def MeetsLock (s : State T) (e : T × Action) : Prop := Waits s e ∧ HasMount s e

variable [DecidableEq T]

/-! ### Steps -/

section Steps

variable {t : T} {s s' : State T} {x : State T} {place : Place}

theorem Inv.ends (h : Inv s)
    (hc : Calm (fun _ => False) s x) (he : Ends t place x s') (hcs : s'.m_CritSec = x.m_CritSec)
    (hrun : (s.threads t).place.Running) (hin : (s.threads t).place.gotRoot = none)
    (hgot : place.gotRoot = none)
    (hwindow : place.toUnMount = none ∨ place.toUnMount = (s.threads t).place.toUnMount)
    (hmount : ∀ m, place.pMount = some m → m < s'.nextMount) : Good s s' := by
  refine ⟨⟨h.toData.ends hc he (fun _ => False.elim) (fun _ _ _ _ => id) hgot
    (hwindow.imp_right fun hw => ⟨hw, fun _ => id⟩) hmount, fun t' hrun' => ?_⟩, hc.logs he⟩
  rw [hcs, hc.critSec]
  by_cases heq : t' = t
  · rw [heq, he.thread, hc.threads, h.held t hrun]
    simp only [Place.inLock, hin, hgot]
  · rw [he.others heq, hc.threads] at hrun' ⊢
    exact h.held t' hrun'

theorem inv_begin (h : Inv s) (hgot : place.gotRoot = none)
    (hwindow : place.toUnMount = none) (hmount : place.pMount = none) :
    Inv (s.begin t place) := by
  have hself : (s.begin t place).threads t = ⟨place, CriticalSection.held s.m_CritSec t⟩ :=
    Function.update_self _ _ _
  have hother : ∀ t', t' ≠ t → (s.begin t place).threads t' = s.threads t' := fun t' ht' =>
    Function.update_of_ne ht' _ _
  refine ⟨h.toData.turn (t := t) ⟨hother, le_rfl, le_rfl, ⟨h.bounded.map, h.bounded.root,
    h.bounded.mount, h.bounded.ramDisk⟩, fun t' r _ hr => ((h.relies t').got r hr).2,
    fun t' r pRoot _ hw m hm hu => ⟨hm, hu, id⟩, ?_, ?_⟩, fun t' hrun => ?_⟩
  · rw [hself]
    exact ⟨fun r hr => absurd hr (by rw [hgot]; simp),
      fun r pRoot hw => absurd hw (by rw [hwindow]; simp),
      fun m hm => absurd hm (by rw [hmount]; simp)⟩
  · intro t' r r' pRoot pRoot' _ hw
    rw [hself] at hw
    exact absurd hw (by rw [hwindow]; simp)
  · show CriticalSection.held s.m_CritSec t' = _
    by_cases heq : t' = t
    · rw [heq, hself, Place.inLock, hgot]
      rfl
    · rw [hother t' heq] at hrun ⊢
      exact h.held t' hrun

theorem Inv.note (h : Inv s) (e : Event) : Inv (s.note e) :=
  ⟨⟨⟨h.bounded.map, h.bounded.root, h.bounded.mount, h.bounded.ramDisk⟩,
    fun t => ⟨(h.relies t).got, (h.relies t).window, (h.relies t).mount⟩, h.apart⟩, h.held⟩

theorem inv_stop (h : Data s) (hc : Calm (fun _ => False) s x)
    (hothers : ∀ t', t' ≠ t → (s.threads t').place.Running →
      CriticalSection.held s.m_CritSec t' = (s.threads t').base + (s.threads t').place.inLock)
    (hplace : place = .idle ∨ place = .dead) (e : Event) : Inv ((x.goto t place).note e) := by
  have hplain : place.gotRoot = none ∧ place.toUnMount = none ∧ place.pMount = none := by
    rcases hplace with rfl | rfl <;> exact ⟨rfl, rfl, rfl⟩
  have he := ends_goto t place x
  refine Inv.note ⟨h.ends hc he (fun _ => False.elim) (fun _ _ _ _ => id) hplain.1
    (.inl hplain.2.1) (fun m hm => absurd hm (by rw [hplain.2.2]; simp)), fun t' hrun => ?_⟩ e
  by_cases heq : t' = t
  · rw [heq, he.thread] at hrun
    exact absurd hplace (not_or.mpr hrun)
  · rw [he.others heq, hc.threads] at hrun ⊢
    show CriticalSection.held x.m_CritSec t' = _
    rw [hc.critSec]
    exact hothers t' heq hrun

theorem inv_call (h : Inv s) (c : Call) : Good s (s.call t c) := by
  have hbegin : ∀ place : Place, place.gotRoot = none → place.toUnMount = none →
      place.pMount = none → Good s (s.begin t place) := fun place h₁ h₂ h₃ =>
    ⟨inv_begin h h₁ h₂ h₃, fun _ => .inl⟩
  have hidle : Good s ((s.begin t .idle).ret t) := by
    have hb : Inv (s.begin t .idle) := inv_begin h rfl rfl rfl
    refine ⟨inv_stop hb.toData (Calm.refl _) (fun t' _ hrun => hb.held t' hrun) (.inl rfl) _,
      fun e he => ?_⟩
    rcases mem_cons.mp he with rfl | he'
    · refine .inr ?_
      show CriticalSection.held s.m_CritSec t = ((s.begin t .idle).threads t).base
      have hself : (s.begin t .idle).threads t = ⟨.idle, CriticalSection.held s.m_CritSec t⟩ :=
        Function.update_self _ _ _
      rw [hself]
    · exact .inl he'
  cases c with
  | updateHandler => exact hidle
  | queryHandler reg_root =>
    unfold State.call
    dsimp only
    split_ifs
    · exact hbegin _ rfl rfl rfl
    · exact hbegin _ rfl rfl rfl
    · exact hidle
  | _ => exact hbegin _ rfl rfl rfl

theorem Inv.goto (h : Inv s) (hc : Calm (fun _ => False) s x)
    (hrun : (s.threads t).place.Running) (hin : (s.threads t).place.gotRoot = none)
    (hgot : place.gotRoot = none) (hwindow : place.toUnMount = none)
    (hmount : ∀ m, place.pMount = some m → m < x.nextMount) : Good s (x.goto t place) :=
  h.ends hc (ends_goto t place x) rfl hrun hin hgot (.inl hwindow) hmount

theorem Inv.ret (h : Inv s) (hc : Calm (fun _ => False) s x)
    (hrun : (s.threads t).place.Running) (hin : (s.threads t).place.gotRoot = none) :
    Good s (x.ret t) := by
  refine h.ends hc (ends_ret ?_) rfl hrun hin rfl (.inl rfl) (fun _ hm => nomatch hm)
  rw [hc.critSec, hc.threads, h.held t hrun, Place.inLock, hin]
  rfl

theorem Inv.mounted {p : Option MountId × State T} {m : MountId} (h : Inv s)
    (hc : Calm (fun _ => False) s p.2) (hnew : New s p) (hm : p.1 = some m)
    (hrun : (s.threads t).place.Running)
    (hin : (s.threads t).place.gotRoot = none) (reg_root file_root : List WChar)
    (auto_unmount : Bool) : Good s (p.2.mounted t reg_root file_root auto_unmount m) := by
  refine h.goto hc hrun hin rfl rfl fun m' hm' => ?_
  obtain rfl : m = m' := Option.some.inj hm'
  exact (hnew m hm).2

variable {env : Env} {a : Answers}

theorem inv_mountFind (env : Env) (a : Answers) (reg_root file_root : List WChar)
    (auto_unmount : Bool) (h : Inv s) (hrun : (s.threads t).place.Running)
    (hin : (s.threads t).place.gotRoot = none) :
    Good s (match s.findImDisk env (env.getImageFileName file_root) a with
      | (none, s) => s.goto t (.mountNew reg_root file_root auto_unmount)
      | (some m, s) => s.mounted t reg_root file_root auto_unmount m) := by
  obtain ⟨hc, hnew⟩ : Calm (fun _ => False) s _ ∧ New s _ :=
    calm_findImDisk env (env.getImageFileName file_root) a s
  split
  · next s' heq =>
    rw [heq] at hc
    exact h.goto hc hrun hin rfl rfl (fun _ hm => nomatch hm)
  · next m s' heq =>
    rw [heq] at hc hnew
    exact h.mounted hc hnew rfl hrun hin _ _ _

theorem inv_mountNew (env : Env) (a : Answers) (reg_root file_root : List WChar)
    (auto_unmount : Bool) (h : Inv s) (hrun : (s.threads t).place.Running)
    (hin : (s.threads t).place.gotRoot = none) :
    Good s (match s.mountImDisk (env.getImageFileName file_root) a with
      | (none, s) => s.ret t
      | (some m, s) => s.mounted t reg_root file_root auto_unmount m) := by
  obtain ⟨hc, hnew⟩ : Calm (fun _ => False) s _ ∧ New s _ :=
    calm_mountImDisk (env.getImageFileName file_root) a s
  split
  · next s' heq =>
    rw [heq] at hc
    exact h.ret hc hrun hin
  · next m s' heq =>
    rw [heq] at hc hnew
    exact h.mounted hc hnew rfl hrun hin _ _ _

theorem inv_createNew (env : Env) (a : Answers) (file_root : List WChar) (h : Inv s)
    (hrun : (s.threads t).place.Running) (hin : (s.threads t).place.gotRoot = none) :
    Good s (match s.mountImDisk (env.getImageFileName file_root) a with
      | (none, s) => s.ret t
      | (some m, s) => s.goto t (.createUnmount (s.mounts m).ntPath)) := by
  obtain ⟨hc, -⟩ : Calm (fun _ => False) s _ ∧ New s _ :=
    calm_mountImDisk (env.getImageFileName file_root) a s
  split
  · next s' heq =>
    rw [heq] at hc
    exact h.ret hc hrun hin
  · next m s' heq =>
    rw [heq] at hc
    exact h.goto hc hrun hin rfl rfl (fun _ hm => nomatch hm)

omit [DecidableEq T] in
theorem calm_junction {own : RootId → Prop} (env : Env) (target file_root : List WChar)
    (a : Answers) (s : State T) :
    Calm own s (if a.folder then s.createJunction env target file_root a else (0x12, s)).2 := by
  split_ifs
  · exact calm_createJunction env target file_root a s
  · exact Calm.refl s

variable {r : RootId}

theorem inv_mountJunction (h : Inv s) (hrun : (s.threads t).place.Running)
    (hin : (s.threads t).place.gotRoot = none)
    {reg_root : List WChar} {j : Nat × State T}
    (hc : Calm (fun _ => False) s j.2) :
    Good s (if j.1 = 0 then j.2.ret t else j.2.goto t (.release reg_root true (some r))) := by
  split_ifs
  · exact h.ret hc hrun hin
  · exact h.goto hc hrun hin rfl rfl (fun _ hm => nomatch hm)

variable {pRoot : Option RootId}

theorem inv_unmount (h : Inv s) {device : List WChar}
    {used : Bool} (hplace : (s.threads t).place = .unmount device r pRoot used) (ok : Bool) :
    Good s ((s.unmountImDisk device used a).2.goto t (.unmounted device r pRoot ok)) :=
  h.ends (calm_unmountImDisk device used a s) (ends_goto t _ _) rfl
    (by rw [hplace]; exact ⟨by simp, by simp⟩)
    (by rw [hplace]; rfl) rfl (.inr (by rw [hplace]; rfl)) (fun _ hm => nomatch hm)

/-! ### Steps in the lock -/

theorem Inside.ret {own : RootId → Prop} (hi : Inside t s) (hc : Calm own s x)
    (hown : ∀ r, own r → r < s.nextRoot)
    (hothers : ∀ t' r pRoot, t' ≠ t → (s.threads t').place.toUnMount = some (r, pRoot) → ¬ own r) :
    Good s ((x.leave t).ret t) := by
  refine hi.ends hc (ends_leave_ret ?_) rfl hown hothers rfl rfl (fun _ hm => nomatch hm)
  rw [hc.critSec, hc.threads]
  exact hi.held

theorem Inside.goto {own : RootId → Prop} (hi : Inside t s)
    (hc : Calm own s x) (hown : ∀ r, own r → r < s.nextRoot)
    (hothers : ∀ t' r pRoot, t' ≠ t → (s.threads t').place.toUnMount = some (r, pRoot) → ¬ own r)
    (hgot : place.gotRoot = none) (hwindow : place.toUnMount = none)
    (hmount : ∀ m, place.pMount = some m → m < x.nextMount) :
    Good s ((x.leave t).goto t place) := by
  refine hi.ends hc (ends_leave_goto ?_ place) rfl hown hothers hgot hwindow hmount
  rw [hc.critSec]
  exact hi.pos

theorem Inside.quiet (hi : Inside t s) : Good s ((s.leave t).ret t) :=
  hi.ret (Calm.refl s : Calm (fun _ => False) s s) (fun _ => False.elim) (fun _ _ _ _ _ => id)

theorem Data.free {r : RootId} (h : Data s) (hr : s.unmounting r = false) (t' : T) (r' : RootId)
    (pRoot : Option RootId) (hw : (s.threads t').place.toUnMount = some (r', pRoot)) : r' ≠ r := by
  rintro rfl
  obtain ⟨m, hm, hunmounting, -⟩ := (h.relies t').window r' pRoot hw
  rw [State.unmounting, hm] at hr
  exact absurd (hunmounting.symm.trans hr) (by simp)

theorem Inside.got {caller : Caller} {reg_root : List WChar}
    (hi : Inside t s) (hcs : x.m_CritSec = s.m_CritSec) (hthreads : x.threads = s.threads)
    (hlog : x.log = s.log) (hb : Bounded x) (hroot : s.nextRoot ≤ x.nextRoot)
    (hmount : s.nextMount ≤ x.nextMount) (hstays : ∀ r', Stays s x r') (hr : r < x.nextRoot)
    (hnot : x.unmounting r = false)
    (hcaller : ∀ m, (Place.gotBoxRoot caller reg_root r).pMount = some m → m < s.nextMount) :
    Good s ((x.goto t (.gotBoxRoot caller reg_root r)).gotRoot t (some r)) := by
  have hself : (x.goto t (.gotBoxRoot caller reg_root r)).threads t =
      ⟨.gotBoxRoot caller reg_root r, (x.threads t).base⟩ := Function.update_self _ _ _
  have hother : ∀ t', t' ≠ t →
      (x.goto t (.gotBoxRoot caller reg_root r)).threads t' = s.threads t' := fun t' ht' => by
    rw [← hthreads]
    exact Function.update_of_ne ht' _ _
  have hheld : CriticalSection.held x.m_CritSec t = (x.threads t).base + 1 := by
    rw [hcs, hthreads]
    exact hi.held
  have hdata : Data (x.goto t (.gotBoxRoot caller reg_root r)) := by
    refine hi.data.turn (t := t) ⟨hother, hroot, hmount, ⟨hb.map, hb.root, hb.mount, hb.ramDisk⟩,
      ?_, fun _ r' _ _ _ => hstays r', ?_, ?_⟩
    · intro t' r' ht' hgot
      rw [hi.others t' ht'] at hgot
      exact nomatch hgot
    · rw [hself]
      refine ⟨fun r' hr' => ?_, fun _ _ hw => (nomatch hw),
        fun m hm => (hcaller m hm).trans_le hmount⟩
      obtain rfl : r = r' := Option.some.inj hr'
      exact ⟨hr, hnot⟩
    · intro t' r₁ r₂ pRoot₁ pRoot₂ _ hw _
      rw [hself] at hw
      exact nomatch hw
  refine ⟨Inv.note ⟨hdata, fun t' hrun => ?_⟩ _, fun e he => ?_⟩
  · show CriticalSection.held x.m_CritSec t' = _
    by_cases heq : t' = t
    · rw [heq, hself]
      exact hheld
    · rw [hother t' heq] at hrun ⊢
      rw [hcs, CriticalSection.held_other hi.pos heq, hi.bases t' heq hrun, Place.inLock,
        hi.others t' heq]
      rfl
  · rcases mem_cons.mp he with rfl | hold
    · refine .inr (iff_of_true rfl ?_)
      rw [hself]
      exact hheld
    · exact .inl (hlog ▸ hold)

omit [DecidableEq T] in
theorem stays_refl (s : State T) (r : RootId) : Stays s s r := fun _ hm hu => ⟨hm, hu, id⟩

variable {k : List WChar}

theorem mem_values_insert {m : SortedMap (List WChar) RootId} {v r : RootId}
    (h : r ∈ (m.insert k v).values) : r = v ∨ r ∈ m.values := by
  obtain ⟨k', hk'⟩ := SortedMap.mem_values.mp h
  rw [SortedMap.value_insert] at hk'
  by_cases heq : k' = k
  · rw [if_pos heq] at hk'
    exact .inl (Option.some.inj hk').symm
  · rw [if_neg heq] at hk'
    exact .inr (SortedMap.mem_values.mpr ⟨k', hk'⟩)

theorem mem_values_insert_of_none {m : SortedMap (List WChar) RootId}
    {v r : RootId} (hnone : m.value k = none) (h : r ∈ m.values) : r ∈ (m.insert k v).values := by
  obtain ⟨k', hk'⟩ := SortedMap.mem_values.mp h
  refine SortedMap.mem_values.mpr ⟨k', ?_⟩
  rw [SortedMap.value_insert, if_neg fun heq => ?_]
  · exact hk'
  · rw [heq, hnone] at hk'
    exact nomatch hk'

omit [DecidableEq T] in
theorem bounded_addRoot (hb : Bounded s) (reg_root : List WChar) :
    Bounded (s.addRoot reg_root) where
  map r hr := by
    rcases mem_values_insert hr with rfl | hmem
    · exact Nat.lt_succ_self _
    · exact (hb.map r hmem).trans (Nat.lt_succ_self _)
  root r hr := by
    show (Function.update s.roots s.nextRoot {} r).mount = none
    rw [Function.update_of_ne (Nat.ne_of_gt hr)]
    exact hb.root r (Nat.le_of_lt hr)
  mount r m hm := by
    have hm' : (Function.update s.roots s.nextRoot {} r).mount = some m := hm
    by_cases heq : r = s.nextRoot
    · rw [heq, Function.update_self] at hm'
      exact nomatch hm'
    · rw [Function.update_of_ne heq] at hm'
      exact hb.mount r m hm'
  ramDisk := hb.ramDisk

omit [DecidableEq T] in
theorem stays_addRoot (hb : Bounded s) {reg_root : List WChar}
    (hnone : s.m_RootMap.value reg_root = none) (r : RootId) : Stays s (s.addRoot reg_root) r := by
  intro m hm hu
  have hne : r ≠ s.nextRoot := by
    rintro rfl
    rw [hb.root _ le_rfl] at hm
    exact nomatch hm
  refine ⟨?_, hu, fun ⟨hmem, hram⟩ => ⟨mem_values_insert_of_none hnone hmem, hram⟩⟩
  show (Function.update s.roots s.nextRoot {} r).mount = some m
  rw [Function.update_of_ne hne]
  exact hm

/-- One turn of the loop, which is not the last one while the mount is being unmounted. -/
theorem inv_getBoxRootLocked (hi : Inside t s) (caller : Caller) (reg_root : List WChar)
    (mayRetry : Nat)
    (hcaller : ∀ m, (Place.getBoxRoot caller reg_root mayRetry none).pMount = some m →
      m < s.nextMount)
    (hretry : ∀ r, s.m_RootMap.value reg_root = some r → s.unmounting r → 0 < mayRetry - 1) :
    Good s (s.getBoxRootLocked t caller reg_root mayRetry) := by
  have hcaller' : ∀ r m,
    (Place.gotBoxRoot caller reg_root r).pMount = some m → m < s.nextMount := by
    intro r m hm
    refine hcaller m ?_
    cases caller <;> exact hm
  unfold State.getBoxRootLocked
  cases hfind : s.m_RootMap.value reg_root with
  | none =>
    dsimp only
    split_ifs with hadd
    · refine hi.got (x := s.addRoot reg_root) rfl rfl rfl (bounded_addRoot hi.data.bounded reg_root)
        (Nat.le_succ _) le_rfl (stays_addRoot hi.data.bounded hfind) (Nat.lt_succ_self _) ?_
        (hcaller' _)
      have hroot : (s.addRoot reg_root).roots s.nextRoot = {} := Function.update_self ..
      rw [State.unmounting, hroot]
    · have hnone : (s.leave t).gotNone t caller = ((s.leave t).gotRoot t none).ret t := by
        cases caller with
        | mountHandler => exact absurd rfl hadd
        | _ => rfl
      have hleft : CriticalSection.held (CriticalSection.leave t s.m_CritSec) t =
          (s.threads t).base := by
        rw [CriticalSection.held_leave, hi.held]
        rfl
      rw [hnone]
      refine hi.ends (Calm.refl s : Calm (fun _ => False) s s)
        ⟨rfl, rfl, rfl, rfl, rfl, rfl, rfl, fun e he => ?_⟩ rfl (fun _ => False.elim)
        (fun _ _ _ _ _ => id) rfl rfl (fun _ hm => by cases hm)
      have he' : e = .returned (s.threads t).base
            (CriticalSection.held (CriticalSection.leave t s.m_CritSec) t) ∨
          e = .gotRoot none (s.threads t).base
            (CriticalSection.held (CriticalSection.leave t s.m_CritSec) t) ∨
          e = .left (CriticalSection.held s.m_CritSec t) ∨ e ∈ s.log := by
        simpa [State.ret, State.goto, State.note, State.gotRoot, State.leave] using he
      rw [hleft] at he'
      rcases he' with rfl | rfl | rfl | hold
      · exact .inr rfl
      · exact .inr (iff_of_false (by simp) (by omega))
      · exact .inr hi.pos
      · exact .inl hold
  | some r =>
    dsimp only
    split_ifs with hun hmore
    · exact hi.goto (Calm.refl s : Calm (fun _ => False) s s) (fun _ => False.elim)
        (fun _ _ _ _ _ => id) rfl rfl
        (fun m hm => hcaller m (by cases caller <;> exact hm))
    · exact absurd (hretry r hfind hun) hmore
    · refine hi.got rfl rfl rfl hi.data.bounded le_rfl le_rfl (stays_refl s) ?_ (by simpa using hun)
        (hcaller' r)
      exact hi.data.bounded.map r (SortedMap.mem_values.mpr ⟨reg_root, hfind⟩)

theorem Inside.turn (hi : Inside t s) (he : Ends t place x s')
    (hcs : s'.m_CritSec = CriticalSection.leave t s.m_CritSec) (hthreads : x.threads = s.threads)
    (hlog : ∀ e ∈ x.log, e ∈ s.log ∨ e.Fine) (hb : Bounded x) (hroot : s.nextRoot ≤ x.nextRoot)
    (hmount : s.nextMount ≤ x.nextMount)
    (hstays : ∀ t' r pRoot, t' ≠ t → (s.threads t').place.toUnMount = some (r, pRoot) → Stays s x r)
    (hgot : place.gotRoot = none) (hcaller : place.pMount = none)
    (hwindow : ∀ r pRoot, place.toUnMount = some (r, pRoot) → Window x r pRoot ∧
      ∀ t' r' pRoot', t' ≠ t → (s.threads t').place.toUnMount = some (r', pRoot') →
        (x.roots r).mount ≠ (x.roots r').mount) : Good s s' := by
  have hplace : (s'.threads t).place = place := by rw [he.thread]
  have hothers : ∀ t', t' ≠ t → s'.threads t' = s.threads t' := fun t' ht' => by
    rw [he.others ht', hthreads]
  refine ⟨hi.inv (hi.data.turn (t := t) ⟨hothers, ?_, ?_, he.bounded hb, ?_, ?_, ?_, ?_⟩)
    hothers (by rw [he.thread, hthreads]) (by rw [hplace]; exact hgot) hcs,
    fun e hin => (he.log e hin).elim (hlog e) .inr⟩
  · rw [he.nextRoot]
    exact hroot
  · rw [he.nextMount]
    exact hmount
  · intro t' r ht' hr
    rw [hi.others t' ht'] at hr
    exact nomatch hr
  · intro t' r pRoot ht' hw m hm hu
    rw [he.roots, he.mounts, he.map, he.ramDisk]
    exact hstays t' r pRoot ht' hw m hm hu
  · rw [hplace]
    refine ⟨fun r hr => absurd hr (by rw [hgot]; simp), fun r pRoot hw => ?_,
      fun m hm => absurd hm (by rw [hcaller]; simp)⟩
    obtain ⟨⟨m, hm, hu, hkept⟩, -⟩ := hwindow r pRoot hw
    refine ⟨m, ?_, ?_, ?_⟩
    · rw [he.roots]
      exact hm
    · rw [he.mounts]
      exact hu
    · rw [he.map, he.ramDisk]
      exact hkept
  · intro t' r r' pRoot pRoot' ht' hw hw'
    rw [hplace] at hw
    rw [he.roots]
    exact (hwindow r pRoot hw).2 t' r' pRoot' ht' hw'

theorem Data.mount_ne {m : MountId} (h : Data s) (hm : (s.mounts m).unmounting = false) (t' : T)
    (r' : RootId) (pRoot : Option RootId)
    (hw : (s.threads t').place.toUnMount = some (r', pRoot)) : (s.roots r').mount ≠ some m := by
  intro hmount
  obtain ⟨m', hm', hunmounting, -⟩ := (h.relies t').window r' pRoot hw
  obtain rfl : m' = m := Option.some.inj (hm'.symm.trans hmount)
  exact absurd (hunmounting.symm.trans hm) (by simp)

theorem Inside.unmount {m : MountId}
    (hi : Inside t s) (hc : Calm (fun _ => False) s x) (hm : (s.roots r).mount = some m)
    (hnot : (s.mounts m).unmounting = false)
    (hkept : pRoot = some r ∨ r ∈ s.m_RootMap.values ∧ x.m_RamDisk ≠ some m) (used : Bool) :
    Good s (x.unmountImDiskLocked t r m pRoot used) := by
  have hb := hi.data.bounded.calm hc fun _ => False.elim
  have hne := hi.data.mount_ne hnot
  have hm' : (x.roots r).mount = some m := (hc.roots r id).trans hm
  have hself : ((x.setMount m { x.mounts m with unmounting := true }).mounts m).unmounting =
      true := by
    show (Function.update x.mounts m _ m).unmounting = true
    rw [Function.update_self]
  refine hi.turn (x := x.setMount m { x.mounts m with unmounting := true })
    (ends_leave_goto ?_ _) (congrArg (CriticalSection.leave t) hc.critSec) hc.threads hc.log
    ⟨hb.map, hb.root, hb.mount, hb.ramDisk⟩ (le_of_eq hc.nextRoot.symm) hc.nextMount ?_ rfl
    rfl ?_
  · show 0 < CriticalSection.held x.m_CritSec t
    rw [hc.critSec]
    exact hi.pos
  · intro t' r' pRoot' _ hw m₁ hm₁ hu
    have hne' : m₁ ≠ m := fun heq => hne t' r' pRoot' hw (heq ▸ hm₁)
    obtain ⟨h₁, h₂, h₃⟩ := hc.stays (ends_goto t .idle x) hi.data.bounded id m₁ hm₁ hu
    refine ⟨h₁, ?_, h₃⟩
    show (Function.update x.mounts m _ m₁).unmounting = true
    rw [Function.update_of_ne hne']
    exact h₂
  · intro r₁ pRoot₁ hw
    cases hw
    refine ⟨⟨m, hm', hself, hkept.imp_right fun hin => ⟨?_, hin.2⟩⟩, ?_⟩
    · show r ∈ x.m_RootMap.values
      rw [hc.map]
      exact hin.1
    · intro t' r' pRoot' _ hw' heq
      have heq' : (x.roots r).mount = (x.roots r').mount := heq
      rw [hm', hc.roots r' id] at heq'
      exact hne t' r' pRoot' hw' heq'.symm

omit [DecidableEq T] in
theorem stays_erase {r r' : RootId} (hval : s.m_RootMap.value k = some r)
    (h : r' = r → ∀ m, (s.roots r').mount = some m → s.m_RamDisk = some m) :
    Stays s (s.erase k) r' := by
  intro m hm hu
  refine ⟨hm, hu, fun ⟨hmem, hram⟩ => ⟨?_, hram⟩⟩
  obtain ⟨k', hk'⟩ := SortedMap.mem_values.mp hmem
  refine SortedMap.mem_values.mpr ⟨k', ?_⟩
  show (s.m_RootMap.filter fun k'' => k'' != k).value k' = some r'
  rw [SortedMap.value_filter]
  by_cases heq : k' = k
  · have hr : r' = r := Option.some.inj (hk'.symm.trans (heq ▸ hval))
    exact absurd (h hr m hm) hram
  · rw [if_pos (by simpa using heq)]
    exact hk'

omit [DecidableEq T] in
theorem mem_values_erase (h : r ∈ (s.erase k).m_RootMap.values) :
    r ∈ s.m_RootMap.values := by
  obtain ⟨k', hk'⟩ := SortedMap.mem_values.mp h
  have hk'' : (s.m_RootMap.filter fun k'' => k'' != k).value k' = some r := hk'
  rw [SortedMap.value_filter] at hk''
  split_ifs at hk''
  exact SortedMap.mem_values.mpr ⟨k', hk''⟩

omit [DecidableEq T] in
theorem bounded_erase (h : Bounded s) (k : List WChar) : Bounded (s.erase k) :=
  ⟨fun r hr => h.map r (mem_values_erase hr), h.root, h.mount, h.ramDisk⟩

omit [DecidableEq T] in
theorem Stays.trans {s'' : State T} (h : Stays s s' r) (h' : Stays s' s'' r) :
    Stays s s'' r := by
  intro m hm hu
  obtain ⟨h₁, h₂, h₃⟩ := h m hm hu
  obtain ⟨h₁', h₂', h₃'⟩ := h' m h₁ h₂
  exact ⟨h₁', h₂', fun hin => h₃' (h₃ hin)⟩

theorem Inside.erase (hi : Inside t s)
    (hc : Calm (fun _ => False) s x) (hval : s.m_RootMap.value k = some r)
    (hfree : ∀ m, (s.roots r).mount = some m → x.m_RamDisk = some m) :
    Good s (((x.erase k).leave t).ret t) := by
  have hb := hi.data.bounded.calm hc fun _ => False.elim
  refine hi.turn (x := x.erase k) (ends_leave_ret ?_)
    (congrArg (CriticalSection.leave t) hc.critSec) hc.threads hc.log (bounded_erase hb k)
    (le_of_eq hc.nextRoot.symm) hc.nextMount ?_ rfl rfl (fun _ _ hw => nomatch hw)
  · show CriticalSection.held x.m_CritSec t = (x.threads t).base + 1
    rw [hc.critSec, hc.threads]
    exact hi.held
  · intro t' r' pRoot _ _
    refine Stays.trans (hc.stays (ends_goto t .idle x) hi.data.bounded id) ?_
    refine stays_erase (hc.map ▸ hval) fun heq m hm => hfree m ?_
    have hx : (x.roots r').mount = some m := hm
    rw [← hx, hc.roots r' id, heq]

theorem inv_releaseBoxRoot (env : Env) (a : Answers) (hi : Inside t s) (reg_root : List WChar)
    (force : Bool)
    (pRoot : Option RootId)
    (hnot : ∀ r ∈ s.m_RootMap.value reg_root, ∀ m ∈ (s.roots r).mount,
      (force || (s.roots r).autoUnmount) → some m ≠ s.m_RamDisk →
        (s.mounts m).unmounting = false) :
    Good s (s.releaseBoxRoot env t reg_root force pRoot a) := by
  unfold State.releaseBoxRoot
  cases hval : s.m_RootMap.value reg_root with
  | none => exact hi.quiet
  | some r =>
    have hmem : r ∈ s.m_RootMap.values := SortedMap.mem_values.mpr ⟨reg_root, hval⟩
    have hset : Calm (fun _ => False) s (s.setRoot r { s.roots r with inUse := false }) :=
      calm_setRoot_same rfl
    have hroot : (s.setRoot r { s.roots r with inUse := false }).roots r =
        { s.roots r with inUse := false } := Function.update_self _ _ _
    have hsetRam : (s.setRoot r { s.roots r with inUse := false }).m_RamDisk = s.m_RamDisk := rfl
    dsimp only
    generalize s.setRoot r { s.roots r with inUse := false } = x at hset hroot hsetRam
    generalize ((s.roots r).inUse && pRoot.isSome) = used
    have hauto : (x.roots r).autoUnmount = (s.roots r).autoUnmount := by rw [hroot]
    have hmount : (x.roots r).mount = (s.roots r).mount := by rw [hroot]
    cases hm : (x.roots r).mount with
    | none =>
      refine hi.erase hset hval fun m hm' => ?_
      rw [← hmount, hm] at hm'
      exact nomatch hm'
    | some m =>
      dsimp only
      by_cases hforce : (force || (x.roots r).autoUnmount) = true
      · rw [if_pos hforce]
        have hremove := hset.trans (calm_removeJunction env (x.roots r).path used a x)
        have hram : (x.removeJunction env (x.roots r).path used a).m_RamDisk = s.m_RamDisk := by
          rw [removeJunction_ramDisk, hsetRam]
        rw [hram]
        by_cases heq : some m = s.m_RamDisk
        · rw [if_pos heq]
          refine hi.erase hremove hval fun m' hm' => ?_
          rw [← hmount, hm] at hm'
          rw [← hm', heq, hram]
        · rw [if_neg heq]
          refine hi.unmount hremove (hmount.symm.trans hm) ?_ (.inr ⟨hmem, ?_⟩) used
          · exact hnot r hval m (hmount.symm.trans hm) (hauto ▸ hforce) heq
          · rw [hram]
            exact Ne.symm heq
      · rw [if_neg hforce]
        exact hi.ret hset (fun _ => False.elim) fun _ _ _ _ _ => id

theorem inv_lockBoxRoot (hi : Inside t s) (reg_root : List WChar) :
    Good s (s.lockBoxRoot t reg_root) := by
  unfold State.lockBoxRoot
  cases s.m_RootMap.value reg_root with
  | none => exact hi.quiet
  | some r =>
    exact hi.ret (by exact calm_setRoot_same rfl : Calm (fun _ => False) s _) (fun _ => False.elim)
      fun _ _ _ _ _ => id

theorem Inside.held_others (hi : Inside t s) (t' : T) (ht' : t' ≠ t)
    (hrun : (s.threads t').place.Running) :
    CriticalSection.held s.m_CritSec t' = (s.threads t').base + (s.threads t').place.inLock := by
  rw [CriticalSection.held_other hi.pos ht', hi.bases t' ht' hrun, Place.inLock, hi.others t' ht']
  rfl

/-- What is true of a step, and of the log where the step finds its mount. -/
structure Fair (found : Prop) (s s' : State T) : Prop where
  inv : Inv s'
  logs : found → Logs s s'

theorem Good.fair {found : Prop} (h : Good s s') : Fair found s s' := ⟨h.inv, fun _ => h.logs⟩

theorem inv_queryRamDisk (hi : Inside t s) :
    Fair (s.m_RamDisk ≠ none) s (s.queryRamDisk t) := by
  unfold State.queryRamDisk
  cases s.m_RamDisk with
  | none =>
    exact ⟨inv_stop hi.data (Calm.refl s) hi.held_others (.inl rfl) _, fun h => absurd rfl h⟩
  | some m => exact hi.quiet.fair

theorem inv_acquireBoxRoot (hi : Inside t s) (hr : r < s.nextRoot)
    (hnot : s.unmounting r = false) (boxname reg_root file_root : List WChar)
    (useRamDisk useFileImage : Bool) :
    Good s (s.acquireBoxRoot env t boxname reg_root file_root useRamDisk useFileImage r a) := by
  have hown : ∀ r', r' = r → r' < s.nextRoot := fun _ h => h ▸ hr
  have hothers : ∀ t' r' pRoot, t' ≠ t → (s.threads t').place.toUnMount = some (r', pRoot) →
      ¬ r' = r := fun t' r' pRoot _ hw => hi.data.free hnot t' r' pRoot hw
  have hgoto : ∀ x : State T, Calm (· = r) s x →
      Good s ((x.leave t).goto t (.release reg_root true (some r))) := fun x hx =>
    hi.goto hx hown hothers rfl rfl (fun _ hm => nomatch hm)
  unfold State.acquireBoxRoot
  by_cases hneeded : (!useRamDisk && !useFileImage) = true
  · rw [if_pos hneeded]
    exact hgoto s (Calm.refl s)
  rw [if_neg hneeded]
  have hcheck : Calm (· = r) s (if (s.roots r).inUse then s
      else s.checkMount (if useRamDisk then s.m_RamDisk else (s.roots r).mount)) := by
    split_ifs
    · exact Calm.refl s
    · exact calm_checkMount _ s
    · exact calm_checkMount _ s
  dsimp only
  generalize (if (s.roots r).inUse then s
    else s.checkMount (if useRamDisk then s.m_RamDisk else (s.roots r).mount)) = x at hcheck
  have hprovide := hcheck.trans (calm_provideMount env r file_root useRamDisk a x
    (hi.data.bounded.calm hcheck hown) (by rw [hcheck.nextRoot]; exact hr))
  have hmount := provideMount_mount env r file_root useRamDisk a x
  generalize x.provideMount env r file_root useRamDisk a = p at hprovide hmount
  by_cases herr : p.1 = 0 ∧ (p.2.roots r).inUse = false
  · rw [if_pos herr]
    cases hm : (p.2.roots r).mount with
    | none => exact absurd hm (hmount herr.1)
    | some m =>
      dsimp only
      generalize junctionTarget (p.2.mounts m).ntPath boxname useRamDisk = target
      have hj := hprovide.trans (calm_junction env target file_root a p.2)
      generalize (if a.folder then p.2.createJunction env target file_root a else (0x12, p.2)) = j
        at hj
      split_ifs
      · exact hi.ret hj hown hothers
      · exact hgoto j.2 hj
  · rw [if_neg herr]
    split_ifs
    · exact hi.ret hprovide hown hothers
    · exact hgoto p.2 hprovide

theorem inv_goOn (env : Env) (a : Answers) (hi : Inside t s) (caller : Caller)
    (reg_root : List WChar)
    (hr : r < s.nextRoot) (hnot : s.unmounting r = false)
    (hpMount : ∀ m, (Place.gotBoxRoot caller reg_root r).pMount = some m → m < s.nextMount) :
    Fair ((caller = .unmountHandler → (s.roots r).inUse = false → (s.roots r).mount ≠ none) ∧
      (caller = .queryHandler → (s.roots r).mount ≠ none)) s
      (s.goOn env t caller reg_root r a) := by
  cases caller with
  | mountHandler pMount file_root auto_unmount =>
    refine Good.fair ?_
    refine hi.goto (calm_setRoot s fun m hm => ?_ : Calm (· = r) s _) (fun _ h => h ▸ hr)
      (fun t' r' pRoot _ hw => hi.data.free hnot t' r' pRoot hw) rfl rfl (fun _ hm => nomatch hm)
    obtain rfl : pMount = m := Option.some.inj hm
    exact hpMount pMount rfl
  | unmountHandler =>
    unfold State.goOn
    dsimp only
    by_cases hin : (s.roots r).inUse = true
    · rw [if_pos hin]
      exact hi.quiet.fair
    rw [if_neg hin]
    have hremove : Calm (fun _ => False) s _ :=
      calm_removeJunction env (s.roots r).path false a s
    generalize s.removeJunction env (s.roots r).path false a = x at hremove
    cases hm : (x.roots r).mount with
    | none =>
      refine ⟨inv_stop hi.data hremove hi.held_others (.inr rfl) _, fun h => ?_⟩
      exact absurd ((hremove.roots r id).symm.trans hm) (h.1 rfl (by simpa using hin))
    | some m =>
      have hm' : (s.roots r).mount = some m := (hremove.roots r id).symm.trans hm
      refine (hi.unmount hremove hm' ?_ (.inl rfl) false).fair
      rw [State.unmounting, hm'] at hnot
      exact hnot
  | queryHandler =>
    unfold State.goOn
    cases hm : (s.roots r).mount with
    | none =>
      exact ⟨inv_stop hi.data (Calm.refl s) hi.held_others (.inl rfl) _,
        fun h => absurd rfl (h.2 rfl)⟩
    | some m => exact hi.quiet.fair
  | acquireBoxRoot boxname file_root useRamDisk useFileImage =>
    exact (inv_acquireBoxRoot hi hr hnot _ _ _ _ _).fair

omit [DecidableEq T] in
theorem alive_of_window [Fintype T] {device : List WChar}
    {ok : Bool} (hplace : (s.threads t).place = .unmounted device r pRoot ok)
    (hw : Window s r pRoot) : s.alive r = true := by
  obtain ⟨m, -, -, rfl | ⟨hmem, -⟩⟩ := hw
  · refine Bool.or_eq_true_iff.mpr (.inr (decide_eq_true ⟨t, ?_⟩))
    rw [hplace]
    rfl
  · exact Bool.or_eq_true_iff.mpr (.inl (contains_iff_mem.mpr hmem))

omit [DecidableEq T] in
theorem withMount_some {m : Option MountId} (h : s.withMount m = some k) :
    ∃ r, s.m_RootMap.value k = some r ∧ (s.roots r).mount = m := by
  obtain ⟨e, he, rfl⟩ := Option.map_eq_some_iff.mp h
  refine ⟨e.2, SortedMap.value_eq_some.mpr (mem_of_find?_eq_some he), ?_⟩
  simpa using find?_some he

theorem inv_unmountDone [Fintype T] (hi : Inside t s) {device : List WChar} {ok : Bool}
    (hplace : (s.threads t).place = .unmounted device r pRoot ok) :
    Good s (s.unmountDone t device r ok) := by
  have hwindow : (s.threads t).place.toUnMount = some (r, pRoot) := by rw [hplace]; rfl
  have hw := (hi.data.relies t).window r pRoot hwindow
  have hnote : ∀ e : Event, e.Fine → Calm (fun _ => False) s (s.note e) := fun e he =>
    calm_note he s
  unfold State.unmountDone
  cases s.m_RootMap.entries with
  | nil => exact hi.quiet
  | cons e es =>
    dsimp only
    rw [if_pos (alive_of_window hplace hw)]
    obtain ⟨m, hm, -, -⟩ := hw
    -- the mounts of the other windows are not this one
    have hne : ∀ t' r' pRoot', t' ≠ t → (s.threads t').place.toUnMount = some (r', pRoot') →
        (s.roots r').mount ≠ some m := fun t' r' pRoot' ht' hw' heq =>
      hi.data.apart t t' r r' pRoot pRoot' (Ne.symm ht') hwindow hw' (hm.trans heq.symm)
    cases hfind : (s.note (.usedRoot true)).withMount
      ((s.note (.usedRoot true)).roots r).mount with
    | none => exact hi.ret (hnote (.usedRoot true) rfl) (fun _ => False.elim) fun _ _ _ _ _ => id
    | some k =>
      obtain ⟨r₁, hval, hr₁⟩ := withMount_some hfind
      dsimp only
      cases ok with
      | true =>
        rw [if_pos rfl]
        set stale := ((s.note (.usedRoot true)).erase k).stale device
        refine hi.turn (x := ((s.note (.usedRoot true)).erase k).note (.unmountDone stale))
          (ends_leave_ret hi.held) rfl rfl (fun e he => ?_)
          ⟨(bounded_erase hi.data.bounded k).map, hi.data.bounded.root, hi.data.bounded.mount,
            hi.data.bounded.ramDisk⟩ le_rfl le_rfl ?_ rfl rfl (fun _ _ hw => nomatch hw)
        · rcases mem_cons.mp he with rfl | he'
          · exact .inr trivial
          · rcases mem_cons.mp he' with rfl | hold
            · exact .inr rfl
            · exact .inl hold
        · intro t' r' pRoot' ht' hw'
          have hfound : (s.roots r₁).mount = some m := hr₁.trans hm
          refine stays_erase (s := s) hval fun heq => ?_
          exact absurd (by rw [heq]; exact hfound) (hne t' r' pRoot' ht' hw')
      | false =>
        have hm' : ((s.note (.usedRoot true)).roots r).mount = some m := hm
        rw [if_neg Bool.false_ne_true, hm']
        refine hi.turn (x := (s.note (.usedRoot true)).setMount m { s.mounts m with
          unmounting := false }) (ends_leave_ret hi.held) rfl rfl (fun e he => ?_)
          ⟨hi.data.bounded.map, hi.data.bounded.root, hi.data.bounded.mount,
            hi.data.bounded.ramDisk⟩ le_rfl le_rfl ?_ rfl rfl (fun _ _ hw => nomatch hw)
        · rcases mem_cons.mp he with rfl | hold
          · exact .inr rfl
          · exact .inl hold
        · intro t' r' pRoot' ht' hw' m' hm' hu
          have hne' : m' ≠ m := fun heq => hne t' r' pRoot' ht' hw' (heq ▸ hm')
          refine ⟨hm', ?_, id⟩
          show (Function.update s.mounts m _ m').unmounting = true
          rw [Function.update_of_ne hne']
          exact hu

variable [Fintype T]

theorem inv_go (h : Inv s) (hwaits : Waits s (t, .go a)) (hgo : s.go env t a = some s') :
    Fair (HasMount s (t, .go a)) s s' := by
  unfold State.go at hgo
  unfold Waits at hwaits
  cases hplace : (s.threads t).place with
  | idle =>
    rw [hplace] at hgo
    exact nomatch hgo
  | dead =>
    rw [hplace] at hgo
    exact nomatch hgo
  | createNew file_root =>
    rw [hplace] at hgo
    dsimp only at hgo
    have hrun : (s.threads t).place.Running := by rw [hplace]; exact ⟨by simp, by simp⟩
    have hnot : (s.threads t).place.gotRoot = none := by rw [hplace]; rfl
    split_ifs at hgo
    · have hnew := inv_createNew env a file_root h hrun hnot
      split at hgo <;> next heq =>
        rw [heq] at hnew
        have hgood : Good s s' := Option.some.inj hgo ▸ hnew
        exact hgood.fair
    · cases hgo
      exact (h.ret (Calm.refl s) hrun hnot).fair
  | createUnmount device =>
    rw [hplace] at hgo
    cases hgo
    exact (h.ret (calm_unmountImDisk device false a s) (by rw [hplace]; exact ⟨by simp, by simp⟩)
      (by rw [hplace]; rfl)).fair
  | mountFind reg_root file_root auto_unmount =>
    rw [hplace] at hgo
    have hfind := inv_mountFind env a reg_root file_root auto_unmount h
      (by rw [hplace]; exact ⟨by simp, by simp⟩) (by rw [hplace]; rfl)
    dsimp only at hgo
    split at hgo <;> next heq =>
      rw [heq] at hfind
      have hgood : Good s s' := Option.some.inj hgo ▸ hfind
      exact hgood.fair
  | mountNew reg_root file_root auto_unmount =>
    rw [hplace] at hgo
    have hnew := inv_mountNew env a reg_root file_root auto_unmount h
      (by rw [hplace]; exact ⟨by simp, by simp⟩) (by rw [hplace]; rfl)
    dsimp only at hgo
    split at hgo <;> next heq =>
      rw [heq] at hnew
      have hgood : Good s s' := Option.some.inj hgo ▸ hnew
      exact hgood.fair
  | getBoxRoot caller reg_root mayRetry pRoot =>
    rw [hplace] at hgo hwaits
    obtain ⟨cs, hi, rfl⟩ := h.entered hgo (by simp [hplace, Place.Running]) (by rw [hplace]; rfl)
    have hgood := inv_getBoxRootLocked hi caller reg_root mayRetry (fun m hm => ?_) hwaits
    · exact ⟨hgood.inv, fun _ => hgood.logs⟩
    · refine (h.relies t).mount m ?_
      rw [hplace]
      cases caller <;> exact hm
  | gotBoxRoot caller reg_root r =>
    rw [hplace] at hgo
    cases hgo
    have hgot : (s.threads t).place.gotRoot = some r := by rw [hplace]; rfl
    obtain ⟨hr, hnot⟩ := (h.relies t).got r hgot
    have hfair := inv_goOn env a (h.inside_of_got hgot) caller reg_root hr hnot (fun m hm => ?_)
    · refine ⟨hfair.inv, fun hmount => hfair.logs ?_⟩
      unfold HasMount at hmount
      rw [hplace] at hmount
      refine ⟨?_, ?_⟩
      · rintro rfl
        exact hmount
      · rintro rfl
        exact hmount
    · refine (h.relies t).mount m ?_
      rw [hplace]
      cases caller <;> exact hm
  | queryRamDisk =>
    rw [hplace] at hgo
    obtain ⟨cs, hi, rfl⟩ := h.entered hgo (by simp [hplace, Place.Running]) (by rw [hplace]; rfl)
    have hfair := inv_queryRamDisk hi
    refine ⟨hfair.inv, fun hmount => hfair.logs ?_⟩
    unfold HasMount at hmount
    rw [hplace] at hmount
    exact hmount
  | mountJunction reg_root file_root target r =>
    rw [hplace] at hgo
    cases hgo
    exact (inv_mountJunction h (by rw [hplace]; exact ⟨by simp, by simp⟩) (by rw [hplace]; rfl)
      (calm_junction env target file_root a s)).fair
  | enumerate =>
    rw [hplace] at hgo
    obtain ⟨cs, hi, rfl⟩ := h.entered hgo (by simp [hplace, Place.Running]) (by rw [hplace]; rfl)
    exact ⟨hi.quiet.inv, fun _ => hi.quiet.logs⟩
  | lock reg_root =>
    rw [hplace] at hgo
    obtain ⟨cs, hi, rfl⟩ := h.entered hgo (by simp [hplace, Place.Running]) (by rw [hplace]; rfl)
    have hgood := inv_lockBoxRoot hi reg_root
    exact ⟨hgood.inv, fun _ => hgood.logs⟩
  | release reg_root force pRoot =>
    rw [hplace] at hgo hwaits
    obtain ⟨cs, hi, rfl⟩ := h.entered hgo (by simp [hplace, Place.Running]) (by rw [hplace]; rfl)
    have hgood := inv_releaseBoxRoot env a hi reg_root force pRoot hwaits
    exact ⟨hgood.inv, fun _ => hgood.logs⟩
  | unmount device r pRoot used =>
    rw [hplace] at hgo
    cases hgo
    exact (inv_unmount h hplace _).fair
  | unmounted device r pRoot ok =>
    rw [hplace] at hgo
    obtain ⟨cs, hi, rfl⟩ := h.entered hgo (by simp [hplace, Place.Running]) (by rw [hplace]; rfl)
    have hgood := inv_unmountDone hi hplace
    exact ⟨hgood.inv, fun _ => hgood.logs⟩

/-- **A step keeps the invariant**, and where it finds its mount, the discipline. -/
theorem inv_step {e : T × Action} (h : Inv s) (hwaits : Waits s e)
    (hstep : s.step env e = some s') : Fair (HasMount s e) s s' := by
  obtain ⟨t, action⟩ := e
  cases action with
  | call c =>
    by_cases hidle : (s.threads t).place = .idle
    · have hcall : some (s.call t c) = some s' := (if_pos hidle).symm.trans hstep
      cases hcall
      exact (inv_call h c).fair
    · exact nomatch (if_neg hidle).symm.trans hstep
  | go a => exact inv_go h hwaits hstep
  | lose device =>
    cases hstep
    exact ⟨⟨⟨⟨h.bounded.map, h.bounded.root, h.bounded.mount, h.bounded.ramDisk⟩,
      fun t => ⟨(h.relies t).got, (h.relies t).window, (h.relies t).mount⟩, h.apart⟩, h.held⟩,
      fun _ _ => .inl⟩

end Steps

/-! ### Runs -/

theorem inv_initial : Inv ({} : State T) where
  bounded := ⟨fun _ hr => (nomatch hr), fun _ _ => rfl, fun _ _ hm => (nomatch hm),
    fun _ hm => (nomatch hm)⟩
  relies _ := ⟨fun _ hr => (nomatch hr), fun _ _ hw => (nomatch hw), fun _ hm => (nomatch hm)⟩
  apart _ _ _ _ _ _ _ h := (nomatch h)
  held _ _ := rfl

/-- **The lock discipline**, in every run whose steps meet the conditions. -/
theorem lock_disciplined [Fintype T] {env : Env} {es : List (T × Action)} {s : State T}
    (h : Run (fun s e s' => s.step env e = some s') MeetsLock {} es s) : s.Disciplined := by
  have hboth : Inv s ∧ s.Disciplined := by
    refine h.invariant (I := fun s => Inv s ∧ s.Disciplined)
      ⟨inv_initial, fun _ he => nomatch he⟩ ?_
    intro s e s' hi hstep hmeets
    have hfair := inv_step hi.1 hmeets.1 hstep
    exact ⟨hfair.inv, fun e' he' => (hfair.logs hmeets.2 e' he').elim (hi.2 e') id⟩
  exact hboth.2

instance (s : State T) (e : T × Action) : Decidable (MeetsLock s e) := by
  obtain ⟨t, action⟩ := e
  refine @instDecidableAnd _ _ ?_ ?_
  · unfold Waits
    dsimp only
    split <;> infer_instance
  · unfold HasMount
    dsimp only
    split <;> infer_instance

def plainEnv : Env := ⟨Text.asciiLower, id⟩

def boxA : List WChar := wide "A".toList
def boxB : List WChar := wide "B".toList
def disk0 : List WChar := wide "\\Device\\ImDisk0".toList

/-- A box with an image is mounted and locked by one thread, while another asks for it; then it is
released and unmounted. -/
def mountAndRelease : List (Bool × Action) :=
  [(false, .call (.acquireBoxRoot boxA boxA boxA false true)), (false, .go {}),
    (true, .call (.queryHandler boxA)), (false, .go { made := some disk0 }),
    (true, .go {}), (true, .go {}), (false, .call (.lockBoxRoot boxA)), (false, .go {}),
    (true, .call (.releaseBoxRoot boxA true)), (true, .go {}),
    (false, .call (.queryHandler boxA)), (false, .go {}), (true, .go {}), (true, .go {}),
    (false, .go {})]

theorem lock_disciplined_release : ∃ s : State Bool,
    (Run.checked (State.step plainEnv) MeetsLock {} mountAndRelease) = some s ∧ s.Disciplined := by
  obtain ⟨s, hs⟩ := Option.isSome_iff_exists.mp
    (show (Run.checked (State.step plainEnv) MeetsLock ({} : State Bool) mountAndRelease).isSome by
      decide)
  exact ⟨s, hs, lock_disciplined (Run.of_checked hs)⟩

/-- `AcquireBoxRoot` fails for a box without a mount; until it releases the root, `QueryHandler`
finds it without a mount and returns with the lock. -/
def queryWithoutMount : List (Bool × Action) :=
  [(false, .call (.acquireBoxRoot boxA boxA boxA false true)), (false, .go {}),
    (false, .go { certified := false }), (true, .call (.queryHandler boxA)), (true, .go {}),
    (true, .go {})]

/-- Not every run keeps the discipline. -/
theorem query_keeps_lock : ∃ s : State Bool,
    Run (fun s e s' => s.step plainEnv e = some s') (fun _ _ => True) {} queryWithoutMount s ∧
      ¬ s.Disciplined := by
  obtain ⟨s, hs, hlog⟩ := Option.map_eq_some_iff.mp
    (show (Run.checked (State.step plainEnv) (fun _ _ => True) ({} : State Bool)
      queryWithoutMount).map (·.log.head?) = some (some (.returned 0 1)) by decide)
  refine ⟨s, Run.of_checked hs, fun h => ?_⟩
  exact absurd (h _ (mem_of_mem_head? hlog)) (by decide : ¬ (1 = 0))

end Sandboxie.MountManager
