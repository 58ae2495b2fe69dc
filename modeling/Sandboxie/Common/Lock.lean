import Mathlib.Data.Nat.Bitwise
import Mathlib.Tactic.IntervalCases
import Sandboxie.Lib.Run
import Sandboxie.Lib.Threads

/-!
# The pool lock

`common/lock.c`: threads that take and free one lock word with single reads and
`InterlockedCompareExchange`.  A step of a thread is one read or one exchange; what the thread
has read until then is in its state.  A thread that spins goes back to where its loop begins.

The word counts the holders, and the thread that waits in the second loop of `Lock_Exclusive`.
-/

namespace Sandboxie.Lock

abbrev Word := BitVec 32

def LOCK_FREE : Word := 0x00000000
def LOCK_EXCLUSIVE : Word := 0x80000000

/-- The word after `InterlockedCompareExchange`, and what the call returns. -/
def interlockedCompareExchange (lockword newval oldval : Word) : Word × Word :=
  (if lockword = oldval then newval else lockword, lockword)

inductive Mode
  | exclusive
  | share
deriving DecidableEq

/-- Where a thread is.  `unlk` and `unlkSwap` keep what the thread holds for the reader:
`Lock_Unlock` itself is not told. -/
inductive Thread
  | idle
  | exc1
  | exc1Swap (oldval newval : Word)
  | exc2
  | shr
  | shrSwap (oldval newval : Word)
  | holds (m : Mode)
  | unlk (m : Mode)
  | unlkSwap (m : Mode) (oldval newval : Word)
deriving DecidableEq

/-- What the first loop of `Lock_Exclusive`, `Lock_Share` and `Lock_Unlock` compute from the word
that they have read: `oldval` and `newval`. -/
def excValues (lockword : Word) : Word × Word :=
  let oldval := lockword &&& ~~~LOCK_EXCLUSIVE
  (oldval, LOCK_EXCLUSIVE ||| (oldval + 1))

def shrValues (lockword : Word) : Word × Word :=
  let oldval := lockword &&& ~~~LOCK_EXCLUSIVE
  (oldval, oldval + 1)

def unlkValues (lockword : Word) : Word × Word :=
  let oldval := lockword
  if oldval = LOCK_EXCLUSIVE ||| 1 then (oldval, LOCK_FREE)
  else (oldval, ((oldval &&& ~~~LOCK_EXCLUSIVE) - 1) ||| (oldval &&& LOCK_EXCLUSIVE))

/-- The state of the thread and the word after one step of the thread.  `call` is the lock that an
idle thread asks for. -/
def Thread.step (call : Mode) (lockword : Word) : Thread → Thread × Word
  | .idle => (match call with | .exclusive => .exc1 | .share => .shr, lockword)
  | .exc1 => (.exc1Swap (excValues lockword).1 (excValues lockword).2, lockword)
  | .exc1Swap oldval newval =>
    let r := interlockedCompareExchange lockword newval oldval
    (if r.2 = oldval then .exc2 else .exc1, r.1)
  | .exc2 =>
    let oldval := LOCK_EXCLUSIVE ||| 1
    let newval := LOCK_EXCLUSIVE ||| 1
    let r := interlockedCompareExchange lockword newval oldval
    (if r.2 = oldval then .holds .exclusive else .exc2, r.1)
  | .shr => (.shrSwap (shrValues lockword).1 (shrValues lockword).2, lockword)
  | .shrSwap oldval newval =>
    let r := interlockedCompareExchange lockword newval oldval
    (if r.2 = oldval then .holds .share else .shr, r.1)
  | .holds m => (.unlk m, lockword)
  | .unlk m => (.unlkSwap m (unlkValues lockword).1 (unlkValues lockword).2, lockword)
  | .unlkSwap m oldval newval =>
    let r := interlockedCompareExchange lockword newval oldval
    (if r.2 = oldval then .idle else .unlk m, r.1)

/-- The mode in which the thread holds the lock: from the return of `Lock_Exclusive` or
`Lock_Share` until `Lock_Unlock` has changed the word. -/
def Thread.mode : Thread → Option Mode
  | .holds m | .unlk m | .unlkSwap m _ _ => some m
  | _ => none

/-- The thread has set the exclusive bit, and waits for the share holders. -/
def Thread.waits : Thread → Bool
  | .exc2 => true
  | _ => false

variable {T : Type}

structure State (T : Type) where
  lockword : Word
  threads : T → Thread

def State.initial : State T := ⟨LOCK_FREE, fun _ => .idle⟩

def State.step [DecidableEq T] (s : State T) (e : T × Mode) : State T :=
  let r := (s.threads e.1).step e.2 s.lockword
  ⟨r.2, Function.update s.threads e.1 r.1⟩

/-! ### Counting -/

def Thread.counted (l : Thread) : Nat := if l.mode.isSome ∨ l.waits then 1 else 0

def Thread.claims (l : Thread) : Nat := if l.mode = some .exclusive ∨ l.waits then 1 else 0

def Thread.owns (l : Thread) : Nat := if l.mode = some .exclusive then 1 else 0

section Counts

variable [Fintype T]

def State.holders (s : State T) : Nat :=
  Threads.total (fun l => if l.mode.isSome then 1 else 0) s.threads

def State.waiters (s : State T) : Nat :=
  Threads.total (fun l => if l.waits then 1 else 0) s.threads

def State.counted (s : State T) : Nat := Threads.total Thread.counted s.threads

def State.claims (s : State T) : Nat := Threads.total Thread.claims s.threads

end Counts

/-! ### The word -/

section Words

theorem low_toNat (w : Word) : (w &&& ~~~LOCK_EXCLUSIVE).toNat = w.toNat % 2 ^ 31 := by
  rw [BitVec.toNat_and]
  exact Nat.and_two_pow_sub_one_eq_mod w.toNat 31

theorem high_toNat (w : Word) : (w &&& LOCK_EXCLUSIVE).toNat = w.toNat / 2 ^ 31 * 2 ^ 31 := by
  rw [BitVec.toNat_and]
  have hlt : w.toNat / 2 ^ 31 < 2 := by
    have := w.isLt
    omega
  show w.toNat &&& 2 ^ 31 = _
  rw [Nat.and_two_pow, Nat.testBit_eq_decide_div_mod_eq]
  interval_cases w.toNat / 2 ^ 31 <;> rfl

theorem or_high {x y : Nat} (h : x < 2 ^ 31) : x ||| y * 2 ^ 31 = x + y * 2 ^ 31 := by
  rw [Nat.or_comm, Nat.mul_comm y, ← Nat.two_pow_add_eq_or_of_lt h y]
  omega

theorem exclusive_or {w : Word} (h : w.toNat < 2 ^ 31) :
    (LOCK_EXCLUSIVE ||| w).toNat = w.toNat + 2 ^ 31 := by
  rw [BitVec.toNat_or, Nat.or_comm]
  exact or_high (y := 1) h

theorem alone_toNat : (LOCK_EXCLUSIVE ||| 1 : Word).toNat = 1 + 2 ^ 31 := rfl

theorem exc_newval {w : Word} (h : w.toNat < 2 ^ 31 - 1) :
    (LOCK_EXCLUSIVE ||| (w + 1)).toNat = w.toNat + 1 + 2 ^ 31 := by
  have hadd : (w + 1).toNat = w.toNat + 1 := by
    rw [BitVec.toNat_add]
    exact Nat.mod_eq_of_lt (by show w.toNat + 1 < _; omega)
  rw [exclusive_or (by omega), hadd]

theorem unlk_newval {w : Word} {n e : Nat} (hw : w.toNat = n + 1 + e * 2 ^ 31)
    (hn : n + 1 < 2 ^ 31) : (unlkValues w).2.toNat =
      if n = 0 ∧ e = 1 then 0 else n + e * 2 ^ 31 := by
  unfold unlkValues
  have halone : w = LOCK_EXCLUSIVE ||| 1 ↔ n = 0 ∧ e = 1 := by
    rw [← BitVec.toNat_inj, alone_toNat]
    omega
  by_cases h : w = LOCK_EXCLUSIVE ||| 1
  · rw [if_pos h, if_pos (halone.mp h)]
    rfl
  rw [if_neg h, if_neg (mt halone.mpr h)]
  have hlow : (w &&& ~~~LOCK_EXCLUSIVE).toNat = n + 1 := by
    rw [low_toNat, hw]
    omega
  have hsub : ((w &&& ~~~LOCK_EXCLUSIVE) - 1).toNat = n := by
    rw [BitVec.toNat_sub, hlow]
    show (2 ^ 32 - 1 + (n + 1)) % 2 ^ 32 = n
    omega
  have hhigh : w.toNat / 2 ^ 31 = e := by omega
  show (((w &&& ~~~LOCK_EXCLUSIVE) - 1) ||| (w &&& LOCK_EXCLUSIVE)).toNat = _
  rw [BitVec.toNat_or, hsub, high_toNat, hhigh]
  exact or_high (by omega)

end Words

/-! ### What a step does -/

/-- What a thread takes to its exchange is computed from one word. -/
def Thread.Prepared : Thread → Prop
  | .exc1Swap oldval newval => ∃ w, (oldval, newval) = excValues w
  | .shrSwap oldval newval => ∃ w, (oldval, newval) = shrValues w
  | .unlkSwap _ oldval newval => (oldval, newval) = unlkValues oldval
  | _ => True

/-- What a step of a thread does to it and to the word. -/
inductive Does (l : Thread) (w : Word) : Thread → Word → Prop
  | nothing {l' : Thread} : l'.mode = l.mode → l'.waits = l.waits → Does l w l' w
  | takeExclusive : l.mode = none → l.waits = false → w.toNat < 2 ^ 31 →
      Does l w .exc2 (LOCK_EXCLUSIVE ||| (w + 1))
  | drained : l = .exc2 → w = LOCK_EXCLUSIVE ||| 1 → Does l w (.holds .exclusive) w
  | takeShare : l.mode = none → l.waits = false → w.toNat < 2 ^ 31 →
      Does l w (.holds .share) (w + 1)
  | unlock : l.mode ≠ none → Does l w .idle (unlkValues w).2

theorem clear_of_low {w w' : Word} (h : w' = w &&& ~~~LOCK_EXCLUSIVE) : w'.toNat < 2 ^ 31 := by
  rw [h, low_toNat]
  exact Nat.mod_lt _ (by decide)

theorem unlkValues_fst (w : Word) : (unlkValues w).1 = w := by
  by_cases h : w = LOCK_EXCLUSIVE ||| 1
  · exact congrArg Prod.fst (if_pos h)
  · exact congrArg Prod.fst (if_neg h)

theorem Thread.step_prepared (l : Thread) (call : Mode) (w : Word) (h : l.Prepared) :
    (l.step call w).1.Prepared := by
  cases l with
  | idle => cases call <;> trivial
  | exc1 => exact ⟨w, rfl⟩
  | shr => exact ⟨w, rfl⟩
  | unlk m =>
    show (_, _) = unlkValues (unlkValues w).1
    rw [unlkValues_fst]
    exact Prod.ext (unlkValues_fst w).symm rfl
  | holds m => trivial
  | exc1Swap oldval newval =>
    simp only [step]
    split <;> trivial
  | exc2 =>
    simp only [step]
    split <;> trivial
  | shrSwap oldval newval =>
    simp only [step]
    split <;> trivial
  | unlkSwap m oldval newval =>
    simp only [step]
    split <;> trivial

theorem Thread.step_does (l : Thread) (call : Mode) (w : Word) (h : l.Prepared) :
    Does l w (l.step call w).1 (l.step call w).2 := by
  cases l with
  | idle => cases call <;> exact .nothing rfl rfl
  | exc1 => exact .nothing rfl rfl
  | shr => exact .nothing rfl rfl
  | unlk m => exact .nothing rfl rfl
  | holds m => exact .nothing rfl rfl
  | exc1Swap oldval newval =>
    by_cases heq : w = oldval
    · obtain ⟨w', hvalues⟩ := h
      have hnew : newval = LOCK_EXCLUSIVE ||| (w + 1) := by
        rw [heq, (Prod.mk.inj hvalues).1]
        exact (Prod.mk.inj hvalues).2
      simp only [step, interlockedCompareExchange, if_pos heq, hnew]
      exact .takeExclusive rfl rfl (clear_of_low (heq.trans (Prod.mk.inj hvalues).1))
    · simp only [step, interlockedCompareExchange, if_neg heq]
      exact .nothing rfl rfl
  | exc2 =>
    by_cases heq : w = LOCK_EXCLUSIVE ||| 1
    · simp only [step, interlockedCompareExchange, if_pos heq]
      exact heq ▸ .drained rfl heq
    · simp only [step, interlockedCompareExchange, if_neg heq]
      exact .nothing rfl rfl
  | shrSwap oldval newval =>
    by_cases heq : w = oldval
    · obtain ⟨w', hvalues⟩ := h
      have hnew : newval = w + 1 := by
        rw [heq, (Prod.mk.inj hvalues).1]
        exact (Prod.mk.inj hvalues).2
      simp only [step, interlockedCompareExchange, if_pos heq, hnew]
      exact .takeShare rfl rfl (clear_of_low (heq.trans (Prod.mk.inj hvalues).1))
    · simp only [step, interlockedCompareExchange, if_neg heq]
      exact .nothing rfl rfl
  | unlkSwap m oldval newval =>
    by_cases heq : w = oldval
    · have hnew : newval = (unlkValues w).2 := by
        rw [heq]
        exact congrArg Prod.snd h
      simp only [step, interlockedCompareExchange, if_pos heq, hnew]
      exact .unlock (fun hmode => (nomatch (hmode : some m = none)))
    · simp only [step, interlockedCompareExchange, if_neg heq]
      exact .nothing rfl rfl

section Invariant

variable [Fintype T]

structure Inv (s : State T) : Prop where
  prepared : ∀ t, (s.threads t).Prepared
  word : s.lockword.toNat = s.counted + s.claims * 2 ^ 31
  claims : s.claims ≤ 1
  /-- An exclusive holder is all that the word counts. -/
  alone : ∀ t, (s.threads t).mode = some .exclusive → s.counted = 1

theorem Thread.claims_le_counted (l : Thread) : l.claims ≤ l.counted := by
  unfold claims counted
  split_ifs with h h'
  · exact le_rfl
  · exact absurd (h.imp (fun hm => by rw [hm]; rfl) id) h'
  · exact Nat.zero_le _
  · exact le_rfl

theorem inv_initial : Inv (State.initial : State T) := by
  have hnone : ∀ f : Thread → Nat, f .idle = 0 →
      Threads.total f (State.initial : State T).threads = 0 :=
    fun f hf => Threads.total_eq_zero_iff.mpr fun _ => hf
  have hcounted : (State.initial : State T).counted = 0 := hnone _ rfl
  have hclaims : (State.initial : State T).claims = 0 := hnone _ rfl
  refine ⟨fun _ => trivial, ?_, ?_, fun t ht => (nomatch (ht : none = some Mode.exclusive))⟩
  · rw [hcounted, hclaims]
    rfl
  · rw [hclaims]
    exact Nat.zero_le 1

theorem Thread.counted_of_mode {l : Thread} (h : l.mode ≠ none) : l.counted = 1 :=
  if_pos (Or.inl (Option.isSome_iff_ne_none.mpr h))

theorem Thread.claims_of_mode {l : Thread} (h : l.mode = some .exclusive) : l.claims = 1 :=
  if_pos (Or.inl h)

theorem Thread.counted_of_idle {l : Thread} (hm : l.mode = none) (hw : l.waits = false) :
    l.counted = 0 := by
  unfold counted
  rw [hm, hw]
  rfl

theorem Thread.claims_of_idle {l : Thread} (hm : l.mode = none) (hw : l.waits = false) :
    l.claims = 0 := by
  unfold claims
  rw [hm, hw]
  rfl

theorem Thread.mode_of_claims {l : Thread} (hm : l.mode ≠ none) (h : l.claims ≠ 0) :
    l.mode = some .exclusive := by
  cases l with
  | holds m | unlk m | unlkSwap m _ _ =>
    cases m with
    | exclusive => rfl
    | share => exact absurd rfl h
  | _ => exact absurd rfl hm

section Word

variable {s : State T}

theorem Inv.unclaimed (h : Inv s) (hclear : s.lockword.toNat < 2 ^ 31) : s.claims = 0 := by
  have := h.word
  omega

theorem not_exclusive (hclear : s.claims = 0) (t : T) :
    (s.threads t).mode ≠ some .exclusive := by
  intro hmode
  have hle : (s.threads t).claims ≤ s.claims := Threads.le_total Thread.claims s.threads t
  rw [Thread.claims_of_mode hmode, hclear] at hle
  exact absurd hle (by decide)

theorem Inv.drained (h : Inv s) (hfew : s.counted < 2 ^ 30)
    (halone : s.lockword = LOCK_EXCLUSIVE ||| 1) : s.counted = 1 := by
  have hword := h.word
  have hclaims := h.claims
  rw [halone, alone_toNat] at hword
  omega

end Word

variable [DecidableEq T]

theorem forall_update {P : Thread → Prop} {s : State T} {t : T} {l' : Thread}
    (ht : P l') (hothers : ∀ x, x ≠ t → P (s.threads x)) (x : T) :
    P (Function.update s.threads t l' x) := by
  by_cases hx : x = t
  · rw [hx, Function.update_self]
    exact ht
  · rw [Function.update_of_ne hx]
    exact hothers x hx

theorem alone_update {s : State T} {t : T} {l' : Thread} {n : Nat}
    (ht : l'.mode = some .exclusive → n = 1)
    (hothers : ∀ x, x ≠ t → (s.threads x).mode = some .exclusive → n = 1) (x : T) :
    (Function.update s.threads t l' x).mode = some .exclusive → n = 1 :=
  forall_update (P := fun l => l.mode = some .exclusive → n = 1) ht hothers x

theorem inv_step {s : State T} (e : T × Mode) (h : Inv s) (hfew : s.counted < 2 ^ 30) :
    Inv (s.step e) := by
  obtain ⟨t, call⟩ := e
  have hdoes := (s.threads t).step_does call s.lockword (h.prepared t)
  have hprepared := (s.threads t).step_prepared call s.lockword (h.prepared t)
  show Inv ⟨_, Function.update s.threads t _⟩
  generalize ((s.threads t).step call s.lockword).1 = l' at hdoes hprepared ⊢
  generalize ((s.threads t).step call s.lockword).2 = w' at hdoes ⊢
  have hprepared' : ∀ x, (Function.update s.threads t l' x).Prepared :=
    forall_update hprepared fun x _ => h.prepared x
  -- What the word counts changes by the one thread.
  have hcounted : (State.mk w' (Function.update s.threads t l')).counted + (s.threads t).counted =
      s.counted + l'.counted := Threads.total_update Thread.counted s.threads t l'
  have hclaims : (State.mk w' (Function.update s.threads t l')).claims + (s.threads t).claims =
      s.claims + l'.claims := Threads.total_update Thread.claims s.threads t l'
  have hle : (State.mk w' (Function.update s.threads t l')).claims ≤
      (State.mk w' (Function.update s.threads t l')).counted :=
    Threads.total_mono Thread.claims_le_counted _
  have hword := h.word
  have hone := h.claims
  cases hdoes with
  | nothing hmode hwaits =>
    have hc : l'.counted = (s.threads t).counted := by
      unfold Thread.counted
      rw [hmode, hwaits]
    have he : l'.claims = (s.threads t).claims := by
      unfold Thread.claims
      rw [hmode, hwaits]
    have hc' : (State.mk s.lockword (Function.update s.threads t l')).counted = s.counted := by
      omega
    refine ⟨hprepared', ?_, by omega, ?_⟩
    · show s.lockword.toNat = _
      omega
    · rw [hc']
      exact alone_update (fun hl => h.alone t (hmode ▸ hl)) fun x _ => h.alone x
  | takeExclusive hmode hwaits hclear =>
    have hc := Thread.counted_of_idle hmode hwaits
    have he := Thread.claims_of_idle hmode hwaits
    have hfree := h.unclaimed hclear
    have hc' : Thread.exc2.counted = 1 := rfl
    have he' : Thread.exc2.claims = 1 := rfl
    refine ⟨hprepared', ?_, by omega, ?_⟩
    · show (LOCK_EXCLUSIVE ||| (s.lockword + 1)).toNat = _
      rw [exc_newval (by omega)]
      omega
    · exact alone_update (fun hl => (nomatch (hl : none = some Mode.exclusive)))
        fun x _ hx => absurd hx (not_exclusive hfree x)
  | drained hl halone =>
    have hc := h.drained hfew halone
    rw [hl] at hcounted hclaims
    have hc₁ : Thread.exc2.counted = 1 := rfl
    have hc₂ : (Thread.holds .exclusive).counted = 1 := rfl
    have he₁ : Thread.exc2.claims = 1 := rfl
    have he₂ : (Thread.holds .exclusive).claims = 1 := rfl
    refine ⟨hprepared', ?_, by omega, fun x _ => by omega⟩
    show s.lockword.toNat = _
    omega
  | takeShare hmode hwaits hclear =>
    have hc := Thread.counted_of_idle hmode hwaits
    have he := Thread.claims_of_idle hmode hwaits
    have hfree := h.unclaimed hclear
    have hc' : (Thread.holds .share).counted = 1 := rfl
    have he' : (Thread.holds .share).claims = 0 := rfl
    refine ⟨hprepared', ?_, by omega, ?_⟩
    · have hadd : (s.lockword + 1).toNat = s.lockword.toNat + 1 := by
        rw [BitVec.toNat_add]
        exact Nat.mod_eq_of_lt (by show s.lockword.toNat + 1 < _; omega)
      show (s.lockword + 1).toNat = _
      omega
    · refine alone_update (fun hl => ?_) fun x _ hx => absurd hx (not_exclusive hfree x)
      exact absurd (Option.some.inj hl) (by decide)
  | unlock hmode =>
    have hc := Thread.counted_of_mode hmode
    have hc' : Thread.idle.counted = 0 := rfl
    have he' : Thread.idle.claims = 0 := rfl
    -- Which way the word goes tells the exclusive holder from the others.
    have hnew := unlk_newval (w := s.lockword) (n := s.counted - 1) (e := s.claims)
      (by omega) (by omega)
    refine ⟨hprepared', ?_, by omega, ?_⟩
    · show (unlkValues s.lockword).2.toNat = _
      rw [hnew]
      split_ifs with hcase
      · omega
      · have hmine' : (s.threads t).claims = 0 := by
          by_contra hne
          have := h.alone t (Thread.mode_of_claims hmode hne)
          omega
        omega
    · refine alone_update (fun hl => (nomatch (hl : none = some Mode.exclusive)))
        fun x hx hmodex => ?_
      have htwo : (s.threads x).counted + (s.threads t).counted ≤ s.counted :=
        Threads.two_le_total Thread.counted s.threads hx
      have hx₁ : (s.threads x).counted = 1 :=
        Thread.counted_of_mode (hmodex ▸ Option.some_ne_none Mode.exclusive)
      have := h.alone x hmodex
      omega

/-! ### Runs -/

theorem counted_eq (s : State T) : s.counted = s.holders + s.waiters := by
  unfold State.counted State.holders State.waiters Threads.total
  rw [← Finset.sum_add_distrib]
  refine Finset.sum_congr rfl fun t _ => ?_
  cases s.threads t <;> rfl

structure Told (s : State T) : Prop where
  count : (s.lockword &&& ~~~LOCK_EXCLUSIVE).toNat = s.holders + s.waiters
  bit : s.lockword &&& LOCK_EXCLUSIVE = LOCK_EXCLUSIVE ↔
    ∃ t, (s.threads t).mode = some .exclusive ∨ (s.threads t).waits = true
  one : ∀ t t', ((s.threads t).mode = some .exclusive ∨ (s.threads t).waits = true) →
    ((s.threads t').mode = some .exclusive ∨ (s.threads t').waits = true) → t = t'
  free : (∀ t, (s.threads t).mode = none ∧ (s.threads t).waits = false) → s.lockword = LOCK_FREE

theorem claims_pos_iff (l : Thread) :
    0 < l.claims ↔ l.mode = some .exclusive ∨ l.waits = true := by
  unfold Thread.claims
  split_ifs with h
  · exact ⟨fun _ => h, fun _ => Nat.one_pos⟩
  · exact ⟨fun hlt => absurd hlt (Nat.lt_irrefl 0), fun h' => absurd h' h⟩

theorem Inv.told {s : State T} (h : Inv s) (hfew : s.counted < 2 ^ 30) : Told s := by
  have hword := h.word
  have hone := h.claims
  refine ⟨?_, ?_, fun t t' ht ht' => ?_, fun hidle => ?_⟩
  · rw [low_toNat, hword, ← counted_eq]
    omega
  · have hbit : s.lockword &&& LOCK_EXCLUSIVE = LOCK_EXCLUSIVE ↔ 0 < s.claims := by
      rw [← BitVec.toNat_inj, high_toNat, hword]
      show _ = 2 ^ 31 ↔ _
      omega
    rw [hbit]
    refine Threads.total_pos_iff.trans ⟨fun ⟨t, ht⟩ => ⟨t, (claims_pos_iff _).mp ht⟩, ?_⟩
    exact fun ⟨t, ht⟩ => ⟨t, (claims_pos_iff _).mpr ht⟩
  · by_contra hne
    have htwo : (s.threads t).claims + (s.threads t').claims ≤ s.claims :=
      Threads.two_le_total Thread.claims s.threads hne
    have hpos := (claims_pos_iff _).mpr ht
    have hpos' := (claims_pos_iff _).mpr ht'
    omega
  · have hcounted : s.counted = 0 := Threads.total_eq_zero_iff.mpr fun t =>
      Thread.counted_of_idle (hidle t).1 (hidle t).2
    have hclaims : s.claims = 0 := Threads.total_eq_zero_iff.mpr fun t =>
      Thread.claims_of_idle (hidle t).1 (hidle t).2
    rw [hcounted, hclaims] at hword
    exact BitVec.eq_of_toNat_eq hword

/-- **An exclusive holder is the only holder.** -/
theorem Inv.excludes {s : State T} (h : Inv s) {t x : T}
    (ht : (s.threads t).mode = some .exclusive) (hx : x ≠ t) : (s.threads x).mode = none := by
  by_contra hmode
  have htwo : (s.threads x).counted + (s.threads t).counted ≤ s.counted :=
    Threads.two_le_total Thread.counted s.threads hx
  rw [Thread.counted_of_mode hmode, Thread.counted_of_mode (ht ▸ Option.some_ne_none _),
    h.alone t ht] at htwo
  exact absurd htwo (by decide)

/-- **The pool lock**, in every run of any number of threads. -/
theorem lock_excludes (es : List (T × Mode)) (s : State T)
    (h : Run (fun s e s' => s' = s.step e)
      (fun s e => (s.step e).holders + (s.step e).waiters < 2 ^ 30) State.initial es s) :
    (∀ t, (s.threads t).mode = some .exclusive → ∀ x, x ≠ t → (s.threads x).mode = none) ∧
      Told s := by
  have hinv : Inv s ∧ s.counted < 2 ^ 30 := by
    refine h.invariant (I := fun s => Inv s ∧ s.counted < 2 ^ 30) ⟨inv_initial, ?_⟩ ?_
    · have hzero : (State.initial : State T).counted = 0 :=
        Threads.total_eq_zero_iff.mpr fun _ => rfl
      rw [hzero]
      decide
    · rintro a e _ ⟨ha, hfew⟩ rfl hmeets
      exact ⟨inv_step e ha hfew, (counted_eq _).trans_lt hmeets⟩
  exact ⟨fun t ht x hx => hinv.1.excludes ht hx, hinv.1.told hinv.2⟩

end Invariant

/-- The first of two threads takes the lock while the other asks for it. -/
theorem lock_excludes_two :
    ∃ s : State Bool, (s.threads true).mode = some .exclusive ∧
      (s.threads false).mode = none ∧ Told s := by
  have hrun : Run (fun (s : State Bool) e s' => s' = s.step e)
      (fun s e => (s.step e).holders + (s.step e).waiters < 2 ^ 30) State.initial
      [(true, .exclusive), (false, .share), (true, .share), (false, .share), (true, .share),
        (true, .share)] _ :=
    .cons rfl (by decide) (.cons rfl (by decide) (.cons rfl (by decide) (.cons rfl (by decide)
      (.cons rfl (by decide) (.cons rfl (by decide) (.nil _))))))
  have hexcl := lock_excludes _ _ hrun
  exact ⟨_, rfl, hexcl.1 true rfl false (by decide), hexcl.2⟩

end Sandboxie.Lock
