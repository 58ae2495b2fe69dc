import Mathlib.Data.List.Nodup
import Sandboxie.Lib.Run
import Sandboxie.Lib.Threads

/-!
# Proxy handles

`svc/ProxyHandle.cpp`: the handles that service threads look up, use and close for sandboxed
processes.  Every step is what is done in one lock of `m_lock`.  A proxy is known by the number
of its allocation, which is not used again, so that a proxy that is freed can be told from a new
one; to touch a freed proxy is a fault, and a fault stays.

The service counts a reference for `Create` and one for each `Find`.  Neither `Close` nor
`ReleaseProcess` sees whether the reference of `Create` is still there, and `Meets` is when it is.
-/

namespace Sandboxie.ProxyHandle

open List

variable {T δ : Type}

abbrev Address := Nat

/-- `PROXY_HANDLE` -/
structure Proxy (δ : Type) where
  processId : Nat
  uniqueId : Nat
  refcount : Nat
  data : δ
deriving DecidableEq

/-- The members of the class, the heap, and the calls of `m_close_callback` until now: the proxy,
or none for data that got no proxy. -/
structure Handles (δ : Type) where
  heap : Address → Option (Proxy δ)
  next : Address
  list : List Address
  uniqueId : Nat
  callbacks : List (Option Address × δ)
  fault : Bool

namespace Handles

def initial : Handles δ := ⟨fun _ => none, 0, [], 0x73626f78, [], false⟩

def setProxy (h : Handles δ) (a : Address) (p : Proxy δ) : Handles δ :=
  { h with heap := Function.update h.heap a (some p) }

/-- What is done with a proxy, unless it is freed. -/
def access (h : Handles δ) (a : Address) (f : Proxy δ → Handles δ) : Handles δ :=
  match h.heap a with
  | some p => f p
  | none => { h with fault := true }

/-- `InterlockedIncrement` until the result is not zero -/
def nextUniqueId (uniqueId : Nat) : Nat :=
  let next := (uniqueId + 1) % 2 ^ 32
  if next = 0 then 1 else next

/-- `ProxyHandle::Create`: `allocated` is whether `HeapAlloc` gives memory. -/
def create (h : Handles δ) (processId : Nat) (modelData : δ) (allocated : Bool) : Handles δ :=
  if allocated then
    let uniqueId := nextUniqueId h.uniqueId
    { h with
      heap := Function.update h.heap h.next (some ⟨processId, uniqueId, 1, modelData⟩)
      next := h.next + 1
      list := h.list ++ [h.next]
      uniqueId := uniqueId }
  else { h with callbacks := h.callbacks ++ [(none, modelData)] }

def findOne (processId uniqueId : Nat) (r : Handles δ × Option Address) (a : Address) :
    Handles δ × Option Address :=
  match r.1.heap a with
  | some p =>
    if p.processId = processId ∧ p.uniqueId = uniqueId then
      (r.1.setProxy a { p with refcount := (p.refcount + 1) % 2 ^ 32 }, some a)
    else r
  | none => ({ r.1 with fault := true }, r.2)

/-- `ProxyHandle::Find`; the loop goes on behind a proxy that it finds. -/
def find (h : Handles δ) (processId uniqueId : Nat) : Handles δ × Option Address :=
  if processId ≠ 0 ∧ uniqueId ≠ 0 then h.list.foldl (findOne processId uniqueId) (h, none)
  else (h, none)

/-- The same lines in `ProxyHandle::Release` and `ProxyHandle::ReleaseProcess`. -/
def unref (h : Handles δ) (a : Address) (p : Proxy δ) : Handles δ :=
  let refcount := if p.refcount ≠ 0 then p.refcount - 1 else p.refcount
  if refcount = 0 then
    { h with
      heap := Function.update h.heap a none
      list := h.list.erase a
      callbacks := h.callbacks ++ [(some a, p.data)] }
  else h.setProxy a { p with refcount := refcount }

def release (h : Handles δ) (a : Address) : Handles δ := h.access a fun p => h.unref a p

def close (h : Handles δ) (a : Address) : Handles δ :=
  h.access a fun p => ((h.setProxy a { p with uniqueId := 0 }).release a).release a

def releaseProcess (h : Handles δ) (processId : Nat) : Handles δ :=
  h.list.foldl (fun h a => h.access a fun p =>
    if p.processId = processId then h.unref a p else h) h

end Handles

/-- The service: what each thread has found and not released or closed, and, for the reader, the
proxies whose first reference neither `Close` nor `ReleaseProcess` has dropped. -/
structure State (T δ : Type) where
  handles : Handles δ
  found : T → List Address
  owed : Address → Bool

def State.initial : State T δ := ⟨Handles.initial, fun _ => [], fun _ => false⟩

inductive Event (T δ : Type)
  | create (processId : Nat) (modelData : δ) (allocated : Bool)
  | find (t : T) (processId uniqueId : Nat)
  | release (t : T) (a : Address)
  | close (t : T) (a : Address)
  | releaseProcess (processId : Nat)

/-- The proxy is not freed, and belongs to the process. -/
def Handles.ofProcess (h : Handles δ) (processId : Nat) (a : Address) : Bool :=
  (h.heap a).any fun p => p.processId = processId

variable [DecidableEq T]

/-- One step of a thread.  A thread releases or closes only what it has found. -/
def State.step (s : State T δ) : Event T δ → State T δ
  | .create processId modelData allocated =>
    { s with
      handles := s.handles.create processId modelData allocated
      owed := if allocated then Function.update s.owed s.handles.next true else s.owed }
  | .find t processId uniqueId =>
    let r := s.handles.find processId uniqueId
    match r.2 with
    | some a => { s with handles := r.1, found := Function.update s.found t (a :: s.found t) }
    | none => { s with handles := r.1 }
  | .release t a =>
    if a ∈ s.found t then
      { s with
        handles := s.handles.release a
        found := Function.update s.found t ((s.found t).erase a) }
    else s
  | .close t a =>
    if a ∈ s.found t then
      { handles := s.handles.close a
        found := Function.update s.found t ((s.found t).erase a)
        owed := Function.update s.owed a false }
    else s
  | .releaseProcess processId =>
    { s with
      handles := s.handles.releaseProcess processId
      owed := fun a => s.owed a && !s.handles.ofProcess processId a }

namespace Handles

/-! ### References -/

/-- How often the close callback has run for the proxy. -/
def closed (h : Handles δ) (a : Address) : Nat := (h.callbacks.map Prod.fst).count (some a)

/-- The proxy has so many references, and is freed and closed when it has none. -/
def Holds (h : Handles δ) (a : Address) (k : Nat) : Prop :=
  (∃ p, h.heap a = some p ∧ a < h.next ∧ a ∈ h.list ∧ p.refcount = k ∧ 0 < k ∧ h.closed a = 0) ∨
    (h.heap a = none ∧ a ∉ h.list ∧ k = 0 ∧ h.closed a = if a < h.next then 1 else 0)

variable {h h' h'' : Handles δ} {a b : Address} {p : Proxy δ} {k : Nat}

theorem Holds.proxy (hk : Holds h a k) (hpos : 0 < k) : ∃ p, h.heap a = some p ∧ a < h.next ∧
    a ∈ h.list ∧ p.refcount = k ∧ h.closed a = 0 := by
  rcases hk with ⟨p, hp, hnext, hlist, hcount, -, hclosed⟩ | ⟨-, -, hzero, -⟩
  · exact ⟨p, hp, hnext, hlist, hcount, hclosed⟩
  · exact absurd hzero (Nat.pos_iff_ne_zero.mp hpos)

theorem Holds.refcount (hk : Holds h a k) (hp : h.heap a = some p) :
    a < h.next ∧ a ∈ h.list ∧ p.refcount = k ∧ 0 < k ∧ h.closed a = 0 := by
  rcases hk with ⟨q, hq, hrest⟩ | ⟨hnone, -⟩
  · rw [hp] at hq
    exact Option.some.inj hq ▸ hrest
  · exact absurd (hp.symm.trans hnone) (Option.some_ne_none p)

theorem Holds.congr (hk : Holds h a k) (hheap : h'.heap a = h.heap a) (hnext : h'.next = h.next)
    (hlist : a ∈ h'.list ↔ a ∈ h.list) (hclosed : h'.closed a = h.closed a) : Holds h' a k := by
  unfold Holds at hk ⊢
  rw [hheap, hnext, hlist, hclosed]
  exact hk

/-- Proxies keep their process, and get no other number than zero. -/
def Keeps (h h' : Handles δ) : Prop :=
  ∀ a p', h'.heap a = some p' → ∃ p, h.heap a = some p ∧ p.processId = p'.processId ∧
    (p'.uniqueId = p.uniqueId ∨ p'.uniqueId = 0)

theorem Keeps.refl (h : Handles δ) : Keeps h h := fun _ p' hp' => ⟨p', hp', rfl, .inl rfl⟩

theorem Keeps.trans (h₁ : Keeps h h') (h₂ : Keeps h' h'') : Keeps h h'' := by
  intro a p'' hp''
  obtain ⟨p', hp', hpid', hid'⟩ := h₂ a p'' hp''
  obtain ⟨p, hp, hpid, hid⟩ := h₁ a p' hp'
  refine ⟨p, hp, hpid.trans hpid', ?_⟩
  rcases hid' with hid' | hid'
  · rw [hid']
    exact hid
  · exact .inr hid'

/-- No two proxies of a process have one number. -/
def Ids (h : Handles δ) : Prop :=
  ∀ a b p q, h.heap a = some p → h.heap b = some q → p.processId = q.processId →
    p.uniqueId = q.uniqueId → p.uniqueId ≠ 0 → a = b

theorem Ids.keeps (hids : Ids h) (hkeeps : Keeps h h') : Ids h' := by
  intro a b p' q' hp' hq' hpid hid hne
  obtain ⟨p, hp, hpidp, hidp⟩ := hkeeps a p' hp'
  obtain ⟨q, hq, hpidq, hidq⟩ := hkeeps b q' hq'
  have hp₀ := hidp.resolve_right hne
  have hq₀ := hidq.resolve_right (hid ▸ hne)
  exact hids a b p q hp hq (by rw [hpidp, hpidq, hpid]) (by rw [← hp₀, ← hq₀, hid]) (hp₀ ▸ hne)

theorem setProxy_self (h : Handles δ) (a : Address) (p : Proxy δ) :
    (h.setProxy a p).heap a = some p := Function.update_self ..

theorem setProxy_of_ne (h : Handles δ) (p : Proxy δ) (hb : b ≠ a) :
    (h.setProxy a p).heap b = h.heap b := Function.update_of_ne hb ..

theorem keeps_setProxy {q : Proxy δ} (hp : h.heap a = some p) (hpid : p.processId = q.processId)
    (hid : q.uniqueId = p.uniqueId ∨ q.uniqueId = 0) : Keeps h (h.setProxy a q) := by
  intro b q' hq'
  by_cases hb : b = a
  · rw [hb, setProxy_self] at hq'
    cases hq'
    exact ⟨p, hb ▸ hp, hpid, hid⟩
  · rw [setProxy_of_ne h q hb] at hq'
    exact ⟨q', hq', rfl, .inl rfl⟩

/-- One reference of a proxy is dropped, and nothing else is touched. -/
structure Drops (h : Handles δ) (a : Address) (h' : Handles δ) : Prop where
  mine : ∀ k, Holds h a (k + 1) → Holds h' a k
  others : ∀ b, b ≠ a → ∀ k, Holds h b k → Holds h' b k
  same : ∀ b, b ≠ a → h'.heap b = h.heap b
  fault : h'.fault = h.fault
  nodup : h'.list.Nodup
  keeps : Keeps h h'

theorem unref_drops (hp : h.heap a = some p) (hnodup : h.list.Nodup) :
    Drops h a (h.unref a p) := by
  unfold unref
  by_cases hlast : (if p.refcount ≠ 0 then p.refcount - 1 else p.refcount) = 0
  · simp only [if_pos hlast]
    have hclosed : ∀ b, closed { h with
        heap := Function.update h.heap a none
        list := h.list.erase a
        callbacks := h.callbacks ++ [(some a, p.data)] } b =
          h.closed b + if a = b then 1 else 0 := by
      intro b
      unfold closed
      rw [map_append, count_append]
      congr 1
      by_cases hab : a = b
      · rw [if_pos hab, hab]
        exact count_singleton_self
      · rw [if_neg hab]
        exact count_eq_zero.mpr fun hmem =>
          hab (Option.some.inj (mem_singleton.mp hmem)).symm
    refine ⟨fun k hk => ?_, fun b hb k hk => ?_, fun b hb => ?_, rfl, hnodup.erase a, ?_⟩
    · obtain ⟨hnext, hlist, hcount, -, hzero⟩ := hk.refcount hp
      refine .inr ⟨Function.update_self .., hnodup.not_mem_erase, ?_, ?_⟩
      · rw [hcount, if_pos (Nat.succ_ne_zero k)] at hlast
        exact hlast
      · rw [hclosed a, hzero, if_pos rfl, if_pos hnext]
    · refine hk.congr (Function.update_of_ne hb ..) rfl (mem_erase_of_ne hb) ?_
      rw [hclosed b, if_neg (Ne.symm hb)]
      rfl
    · exact Function.update_of_ne hb ..
    · intro b q hq
      have hb : b ≠ a := by
        rintro rfl
        exact (nomatch (Function.update_self ..).symm.trans hq)
      exact ⟨q, (Function.update_of_ne hb ..).symm.trans hq, rfl, .inl rfl⟩
  · simp only [if_neg hlast]
    refine ⟨fun k hk => ?_, fun b hb k hk => ?_, fun b hb => ?_, rfl, hnodup, ?_⟩
    · obtain ⟨hnext, hlist, hcount, -, hzero⟩ := hk.refcount hp
      rw [hcount, if_pos (Nat.succ_ne_zero k)] at hlast ⊢
      exact .inl ⟨_, Function.update_self .., hnext, hlist, rfl, Nat.pos_of_ne_zero hlast, hzero⟩
    · exact hk.congr (Function.update_of_ne hb ..) rfl Iff.rfl rfl
    · exact Function.update_of_ne hb ..
    · exact keeps_setProxy hp rfl (.inl rfl)

theorem release_drops (hk : Holds h a (k + 1)) (hnodup : h.list.Nodup) :
    Drops h a (h.release a) := by
  obtain ⟨p, hp, -⟩ := hk.proxy k.succ_pos
  have hrelease : h.release a = h.unref a p := by
    unfold release access
    rw [hp]
  rw [hrelease]
  exact unref_drops hp hnodup

/-- What is done to the proxies keeps the others, and no proxy is touched that is freed. -/
structure Leaves (h : Handles δ) (a : Address) (h' : Handles δ) : Prop where
  others : ∀ b, b ≠ a → ∀ k, Holds h b k → Holds h' b k
  fault : h'.fault = h.fault
  nodup : h'.list.Nodup
  keeps : Keeps h h'

theorem close_spec (hk : Holds h a (k + 2)) (hnodup : h.list.Nodup) :
    Holds (h.close a) a k ∧ Leaves h a (h.close a) := by
  obtain ⟨p, hp, hnext, hlist, hcount, hclosed⟩ := hk.proxy (Nat.succ_pos _)
  have hclose : h.close a = ((h.setProxy a { p with uniqueId := 0 }).release a).release a := by
    unfold close access
    rw [hp]
  rw [hclose]
  have hzero : Holds (h.setProxy a { p with uniqueId := 0 }) a (k + 2) :=
    .inl ⟨_, setProxy_self h a _, hnext, hlist, hcount, Nat.succ_pos _, hclosed⟩
  have h₁ := release_drops hzero hnodup
  have h₂ := release_drops (h₁.mine _ hzero) h₁.nodup
  refine ⟨h₂.mine _ (h₁.mine _ hzero), fun b hb j hj => ?_, ?_, h₂.nodup, ?_⟩
  · exact h₂.others b hb j (h₁.others b hb j (hj.congr (setProxy_of_ne h _ hb) rfl Iff.rfl rfl))
  · rw [h₂.fault, h₁.fault]
    rfl
  · have hkeeps : Keeps h (h.setProxy a { p with uniqueId := 0 }) :=
      keeps_setProxy hp rfl (.inr rfl)
    exact hkeeps.trans (h₁.keeps.trans h₂.keeps)

theorem ofProcess_congr {processId : Nat} (hheap : h'.heap a = h.heap a) :
    h'.ofProcess processId a = h.ofProcess processId a := by
  unfold ofProcess
  rw [hheap]

theorem releaseProcess_loop (processId : Nat) {l : List Address} (hl : l.Nodup)
    (hlive : ∀ a ∈ l, ∃ k, Holds h a (k + 1)) (hnodup : h.list.Nodup) :
    let h' := l.foldl (fun h a => h.access a fun p =>
      if p.processId = processId then h.unref a p else h) h
    (∀ a k, Holds h a k → Holds h' a (if a ∈ l ∧ h.ofProcess processId a then k - 1 else k)) ∧
      h'.fault = h.fault ∧ h'.list.Nodup ∧ Keeps h h' := by
  induction l generalizing h with
  | nil =>
    refine ⟨fun a k hk => ?_, rfl, hnodup, Keeps.refl h⟩
    rw [if_neg fun hmem => not_mem_nil hmem.1]
    exact hk
  | cons a l ih =>
    obtain ⟨hnot, hl'⟩ := nodup_cons.mp hl
    obtain ⟨k, hk⟩ := hlive a mem_cons_self
    obtain ⟨p, hp, -⟩ := hk.proxy k.succ_pos
    -- The first proxy of the list, and then the others as they were.
    have hfirst : ∃ h₁, (h.access a fun p => if p.processId = processId then h.unref a p else h) =
        h₁ ∧ (∀ j, Holds h a j → Holds h₁ a (if h.ofProcess processId a then j - 1 else j)) ∧
          (∀ b, b ≠ a → h₁.heap b = h.heap b) ∧ Leaves h a h₁ := by
      refine ⟨_, rfl, ?_⟩
      unfold access
      rw [hp]
      by_cases hpid : p.processId = processId
      · have hof : h.ofProcess processId a = true := by
          unfold ofProcess
          rw [hp]
          exact decide_eq_true hpid
        have hdrops := unref_drops hp hnodup
        simp only [if_pos hpid]
        refine ⟨fun j hj => ?_, hdrops.same, hdrops.others, hdrops.fault, hdrops.nodup,
          hdrops.keeps⟩
        rw [if_pos hof]
        obtain ⟨-, -, -, hpos, -⟩ := hj.refcount hp
        refine hdrops.mine (j - 1) ?_
        rw [Nat.sub_add_cancel hpos]
        exact hj
      · have hof : ¬h.ofProcess processId a = true := by
          unfold ofProcess
          rw [hp]
          exact fun heq => hpid (of_decide_eq_true heq)
        simp only [if_neg hpid]
        refine ⟨fun j hj => ?_, fun _ _ => trivial, fun _ _ _ hj => hj, rfl, hnodup, Keeps.refl h⟩
        rw [if_neg hof]
        exact hj
    obtain ⟨h₁, heq, hmine, hsame, hleaves⟩ := hfirst
    have hlive₁ : ∀ b ∈ l, ∃ k, Holds h₁ b (k + 1) := by
      intro b hb
      obtain ⟨j, hj⟩ := hlive b (mem_cons_of_mem a hb)
      exact ⟨j, hleaves.others b (fun hba => hnot (hba ▸ hb)) _ hj⟩
    obtain ⟨hrest, hfault, hnodup', hkeeps⟩ := ih hl' hlive₁ hleaves.nodup
    rw [foldl_cons, heq]
    refine ⟨fun b j hj => ?_, hfault.trans hleaves.fault, hnodup', hleaves.keeps.trans hkeeps⟩
    by_cases hb : b = a
    · subst hb
      have hstay := hrest b _ (hmine j hj)
      rw [if_neg fun hmem => hnot hmem.1] at hstay
      have hcond : (b ∈ b :: l ∧ h.ofProcess processId b = true) ↔
          h.ofProcess processId b = true := and_iff_right mem_cons_self
      rw [if_congr hcond rfl rfl]
      exact hstay
    · have hstay := hrest b j (hleaves.others b hb j hj)
      have hcond : (b ∈ a :: l ∧ h.ofProcess processId b = true) ↔
          (b ∈ l ∧ h₁.ofProcess processId b = true) := by
        rw [ofProcess_congr (hsame b hb), mem_cons, or_iff_right hb]
      rw [if_congr hcond rfl rfl]
      exact hstay

/-- **`ReleaseProcess`** drops one reference of each proxy of the process. -/
theorem releaseProcess_spec (processId : Nat) (hall : ∀ a, ∃ k, Holds h a k)
    (hnodup : h.list.Nodup) :
    (∀ a k, Holds h a k → Holds (h.releaseProcess processId) a
      (if h.ofProcess processId a then k - 1 else k)) ∧
      (h.releaseProcess processId).fault = h.fault ∧ (h.releaseProcess processId).list.Nodup ∧
        Keeps h (h.releaseProcess processId) := by
  have hlive : ∀ a ∈ h.list, ∃ k, Holds h a (k + 1) := by
    intro a ha
    obtain ⟨k, hk⟩ := hall a
    rcases hk with ⟨p, hp, hnext, hlist, hcount, hpos, hclosed⟩ | ⟨-, hnot, -⟩
    · refine ⟨k - 1, ?_⟩
      rw [Nat.sub_add_cancel hpos]
      exact .inl ⟨p, hp, hnext, hlist, hcount, hpos, hclosed⟩
    · exact absurd ha hnot
  obtain ⟨hloop, hrest⟩ := releaseProcess_loop processId hnodup hlive hnodup
  refine ⟨fun a k hk => ?_, hrest⟩
  have hstay := hloop a k hk
  have hcond : (a ∈ h.list ∧ h.ofProcess processId a = true) ↔ h.ofProcess processId a = true := by
    refine and_iff_right_of_imp fun hof => ?_
    rcases hk with ⟨_, _, _, hlist, _⟩ | ⟨hnone, _⟩
    · exact hlist
    · unfold ofProcess at hof
      rw [hnone] at hof
      exact (nomatch hof)
  rw [if_congr hcond rfl rfl] at hstay
  exact hstay

theorem create_spec (processId : Nat) (modelData : δ) (hnodup : h.list.Nodup) (hids : Ids h)
    (hnext : Holds h h.next k)
    (hfresh : ∀ a p, h.heap a = some p → p.processId = processId →
      p.uniqueId ≠ nextUniqueId h.uniqueId) :
    k = 0 ∧ Holds (h.create processId modelData true) h.next 1 ∧
      (∀ b, b ≠ h.next → ∀ j, Holds h b j → Holds (h.create processId modelData true) b j) ∧
      (h.create processId modelData true).list.Nodup ∧
      Ids (h.create processId modelData true) := by
  rcases hnext with ⟨_, _, hlt, _⟩ | ⟨hnone, hnot, hzero, hclosed⟩
  · exact absurd hlt (Nat.lt_irrefl _)
  have hself : (h.create processId modelData true).heap h.next =
      some ⟨processId, nextUniqueId h.uniqueId, 1, modelData⟩ := Function.update_self ..
  have hne : ∀ {b}, b ≠ h.next → (h.create processId modelData true).heap b = h.heap b :=
    fun hb => Function.update_of_ne hb ..
  have hlist : (h.create processId modelData true).list = h.list ++ [h.next] := rfl
  refine ⟨hzero, ?_, fun b hb j hj => ?_, ?_, ?_⟩
  · refine .inl ⟨_, hself, Nat.lt_succ_self _, ?_, rfl, Nat.one_pos, ?_⟩
    · rw [hlist]
      exact mem_append_right _ mem_cons_self
    · rw [if_neg (Nat.lt_irrefl _)] at hclosed
      exact hclosed
  · have hmem : b ∈ (h.create processId modelData true).list ↔ b ∈ h.list := by
      rw [hlist, mem_append, mem_singleton, or_iff_left hb]
    have hlt : b < h.next + 1 ↔ b < h.next := Nat.lt_succ_iff_lt_or_eq.trans (or_iff_left hb)
    rcases hj with ⟨p, hp, hlt', hin, hrest⟩ | ⟨hp, hnot', hj, hclosed'⟩
    · exact .inl ⟨p, (hne hb).trans hp, hlt.mpr hlt', hmem.mpr hin, hrest⟩
    · refine .inr ⟨(hne hb).trans hp, mt hmem.mp hnot', hj, ?_⟩
      show h.closed b = if b < h.next + 1 then 1 else 0
      rw [hclosed', if_congr hlt rfl rfl]
  · rw [hlist]
    refine nodup_append.mpr ⟨hnodup, nodup_singleton _, fun a ha b hb hab => ?_⟩
    exact hnot (mem_singleton.mp hb ▸ hab ▸ ha)
  · intro a b p q hp hq hpid hid hzero'
    by_cases ha : a = h.next <;> by_cases hb : b = h.next
    · rw [ha, hb]
    · rw [ha, hself] at hp
      rw [hne hb] at hq
      cases hp
      exact absurd hid.symm (hfresh b q hq hpid.symm)
    · rw [hb, hself] at hq
      rw [hne ha] at hp
      cases hq
      exact absurd hid (hfresh a p hp hpid)
    · rw [hne ha] at hp
      rw [hne hb] at hq
      exact hids a b p q hp hq hpid hid hzero'

section Find

variable {processId uniqueId : Nat}

theorem findOne_skip (r : Option Address) (hp : h.heap a = some p)
    (hno : ¬(p.processId = processId ∧ p.uniqueId = uniqueId)) :
    findOne processId uniqueId (h, r) a = (h, r) := by
  unfold findOne
  simp only [hp, if_neg hno]

theorem foldl_findOne_skip (r : Option Address) {l : List Address}
    (hno : ∀ b ∈ l, ∃ p, h.heap b = some p ∧
      ¬(p.processId = processId ∧ p.uniqueId = uniqueId)) :
    l.foldl (findOne processId uniqueId) (h, r) = (h, r) := by
  induction l with
  | nil => rfl
  | cons b l ih =>
    obtain ⟨p, hp, hnot⟩ := hno b mem_cons_self
    rw [foldl_cons, findOne_skip r hp hnot]
    exact ih fun c hc => hno c (mem_cons_of_mem b hc)

theorem foldl_findOne (hids : Ids h) (hne : uniqueId ≠ 0) {l : List Address} (hl : l.Nodup)
    (hlive : ∀ b ∈ l, ∃ p, h.heap b = some p) :
    l.foldl (findOne processId uniqueId) (h, none) = (h, none) ∨
      ∃ a p, h.heap a = some p ∧ p.processId = processId ∧ p.uniqueId = uniqueId ∧
        l.foldl (findOne processId uniqueId) (h, none) =
          (h.setProxy a { p with refcount := (p.refcount + 1) % 2 ^ 32 }, some a) := by
  induction l with
  | nil => exact .inl rfl
  | cons a l ih =>
    obtain ⟨hnot, hl'⟩ := nodup_cons.mp hl
    obtain ⟨p, hp⟩ := hlive a mem_cons_self
    rw [foldl_cons]
    by_cases hmatch : p.processId = processId ∧ p.uniqueId = uniqueId
    · have hfound : findOne processId uniqueId (h, none) a =
          (h.setProxy a { p with refcount := (p.refcount + 1) % 2 ^ 32 }, some a) := by
        unfold findOne
        simp only [hp, if_pos hmatch]
      refine .inr ⟨a, p, hp, hmatch.1, hmatch.2, ?_⟩
      rw [hfound]
      refine foldl_findOne_skip _ fun b hb => ?_
      obtain ⟨q, hq⟩ := hlive b (mem_cons_of_mem a hb)
      have hba : b ≠ a := fun heq => hnot (heq ▸ hb)
      refine ⟨q, (setProxy_of_ne h _ hba).trans hq, fun hmatch' => hba ?_⟩
      exact hids b a q p hq hp (hmatch'.1.trans hmatch.1.symm) (hmatch'.2.trans hmatch.2.symm)
        (hmatch'.2 ▸ hne)
    · rw [findOne_skip none hp hmatch]
      exact ih hl' fun b hb => hlive b (mem_cons_of_mem a hb)

theorem find_spec (processId uniqueId : Nat) (hids : Ids h) (hall : ∀ a, ∃ k, Holds h a k)
    (hnodup : h.list.Nodup) :
    h.find processId uniqueId = (h, none) ∨
      ∃ a p, h.heap a = some p ∧ p.processId = processId ∧ p.uniqueId = uniqueId ∧
        h.find processId uniqueId =
          (h.setProxy a { p with refcount := (p.refcount + 1) % 2 ^ 32 }, some a) := by
  unfold find
  split_ifs with hnonzero
  · refine foldl_findOne hids hnonzero.2 hnodup fun b hb => ?_
    obtain ⟨k, ⟨p, hp, -⟩ | ⟨-, hnot, -⟩⟩ := hall b
    · exact ⟨p, hp⟩
    · exact absurd hb hnot
  · exact .inl rfl

end Find

end Handles

/-! ### The invariant -/

section Invariant

variable [Fintype T]

def State.refs (s : State T δ) (a : Address) : Nat := Threads.total (fun l => l.count a) s.found

/-- The reference of `Create` is still there. -/
def State.own (s : State T δ) (a : Address) : Nat := if s.owed a then 1 else 0

structure Inv (s : State T δ) : Prop where
  fault : s.handles.fault = false
  nodup : s.handles.list.Nodup
  ids : s.handles.Ids
  holds : ∀ a, s.handles.Holds a (s.own a + s.refs a)

/-- A step that does not drop a reference which is not there: what is closed, and what belongs to a
process that goes, still has its first reference; and the two counters do not wrap. -/
def Meets (s : State T δ) : Event T δ → Prop
  | .create processId _ allocated =>
    allocated = true → ∀ a p, s.handles.heap a = some p → p.processId = processId →
      p.uniqueId ≠ Handles.nextUniqueId s.handles.uniqueId
  | .find _ processId uniqueId =>
    ∀ a p, s.handles.heap a = some p → p.processId = processId → p.uniqueId = uniqueId →
      p.refcount + 1 < 2 ^ 32
  | .release _ _ => True
  | .close t a => a ∈ s.found t → s.owed a = true
  | .releaseProcess processId =>
    ∀ a, s.handles.ofProcess processId a = true → s.owed a = true

omit [DecidableEq T] in
theorem inv_initial : Inv (State.initial : State T δ) := by
  refine ⟨rfl, nodup_nil, fun a b p q hp => (nomatch hp), fun a => ?_⟩
  refine .inr ⟨rfl, not_mem_nil, ?_, rfl⟩
  have hrefs : (State.initial : State T δ).refs a = 0 := Threads.total_eq_zero_iff.mpr fun _ => rfl
  rw [hrefs]
  rfl

variable {s : State T δ}

theorem refs_found (t : T) (a b : Address) (found : T → List Address) :
    Threads.total (fun l => l.count b) (Function.update found t (a :: found t)) =
      Threads.total (fun l => l.count b) found + if a = b then 1 else 0 := by
  have h := Threads.total_update (fun l : List Address => l.count b) found t (a :: found t)
  simp only [count_cons, beq_iff_eq] at h
  omega

theorem refs_released {t : T} {a : Address} (b : Address) {found : T → List Address}
    (ha : a ∈ found t) :
    Threads.total (fun l => l.count b) (Function.update found t ((found t).erase a)) +
      (if a = b then 1 else 0) = Threads.total (fun l => l.count b) found := by
  have h := Threads.total_update (fun l : List Address => l.count b) found t ((found t).erase a)
  by_cases hab : a = b
  · subst hab
    have hpos := count_pos_iff.mpr ha
    simp only [count_erase_self, if_true] at h ⊢
    omega
  · simp only [count_erase_of_ne (Ne.symm hab), if_neg hab] at h ⊢
    omega

theorem inv_step (e : Event T δ) (h : Inv s) (hmeets : Meets s e) : Inv (s.step e) := by
  have hall : ∀ a, ∃ k, s.handles.Holds a k := fun a => ⟨_, h.holds a⟩
  cases e with
  | create processId modelData allocated =>
    cases allocated with
    | false =>
      refine ⟨h.fault, h.nodup, h.ids, fun a => (h.holds a).congr rfl rfl Iff.rfl ?_⟩
      show ((s.handles.callbacks ++ [(none, modelData)]).map Prod.fst).count (some a) = _
      rw [map_append, count_append]
      rfl
    | true =>
      obtain ⟨hzero, hnew, hothers, hnodup, hids⟩ := Handles.create_spec processId modelData h.nodup
        h.ids (h.holds s.handles.next) (hmeets rfl)
      refine ⟨h.fault, hnodup, hids, fun a => ?_⟩
      show (s.handles.create processId modelData true).Holds a
        ((if Function.update s.owed s.handles.next true a then 1 else 0) + s.refs a)
      by_cases ha : a = s.handles.next
      · rw [ha, Function.update_self, if_pos rfl, Nat.eq_zero_of_add_eq_zero_left hzero]
        exact hnew
      · rw [Function.update_of_ne ha]
        exact hothers a ha _ (h.holds a)
  | find t processId uniqueId =>
    rcases Handles.find_spec processId uniqueId h.ids hall h.nodup with
      hfind | ⟨a, p, hp, hpid, hid, hfind⟩
    · have hstep : s.step (.find t processId uniqueId) = s := by
        simp only [State.step, hfind]
      rw [hstep]
      exact h
    · have hstep : s.step (.find t processId uniqueId) = { s with
          handles := s.handles.setProxy a { p with refcount := (p.refcount + 1) % 2 ^ 32 }
          found := Function.update s.found t (a :: s.found t) } := by
        simp only [State.step, hfind]
      rw [hstep]
      obtain ⟨hnext, hlist, hcount, hpos, hclosed⟩ := (h.holds a).refcount hp
      have hrefs := fun b => refs_found t a b s.found
      refine ⟨h.fault, h.nodup, h.ids.keeps (Handles.keeps_setProxy hp rfl (.inl rfl)),
        fun b => ?_⟩
      show Handles.Holds _ b (s.own b + Threads.total _ _)
      rw [hrefs b]
      by_cases hb : b = a
      · subst hb
        rw [if_pos rfl, ← Nat.add_assoc]
        refine .inl ⟨_, Handles.setProxy_self _ _ _, hnext, hlist, ?_, Nat.succ_pos _, hclosed⟩
        show (p.refcount + 1) % 2 ^ 32 = _
        rw [Nat.mod_eq_of_lt (hmeets b p hp hpid hid), hcount]
        rfl
      · rw [if_neg (Ne.symm hb)]
        exact (h.holds b).congr (Handles.setProxy_of_ne _ _ hb) rfl Iff.rfl rfl
  | release t a =>
    by_cases ha : a ∈ s.found t
    · have hstep : s.step (.release t a) = { s with
          handles := s.handles.release a
          found := Function.update s.found t ((s.found t).erase a) } := by
        simp only [State.step, if_pos ha]
      rw [hstep]
      have hrefs := fun b => refs_released b ha
      have hself := hrefs a
      rw [if_pos rfl] at hself
      have hk : s.handles.Holds a (s.own a + Threads.total (fun l => l.count a)
          (Function.update s.found t ((s.found t).erase a)) + 1) := by
        rw [Nat.add_assoc, hself]
        exact h.holds a
      have hdrops := Handles.release_drops hk h.nodup
      refine ⟨hdrops.fault.trans h.fault, hdrops.nodup, h.ids.keeps hdrops.keeps, fun b => ?_⟩
      by_cases hb : b = a
      · subst hb
        exact hdrops.mine _ hk
      · have hother := hrefs b
        rw [if_neg (Ne.symm hb), Nat.add_zero] at hother
        show Handles.Holds _ b (s.own b + Threads.total _ _)
        rw [hother]
        exact hdrops.others b hb _ (h.holds b)
    · have hstep : s.step (.release t a) = s := by
        simp only [State.step, if_neg ha]
      rw [hstep]
      exact h
  | close t a =>
    by_cases ha : a ∈ s.found t
    · have hstep : s.step (.close t a) =
          { handles := s.handles.close a
            found := Function.update s.found t ((s.found t).erase a)
            owed := Function.update s.owed a false } := by
        simp only [State.step, if_pos ha]
      rw [hstep]
      have hrefs := fun b => refs_released b ha
      have hself := hrefs a
      rw [if_pos rfl] at hself
      have howed : s.own a = 1 := if_pos (hmeets ha)
      have hk : s.handles.Holds a (Threads.total (fun l => l.count a)
          (Function.update s.found t ((s.found t).erase a)) + 2) := by
        have hholds := h.holds a
        unfold State.refs at hholds
        rw [howed, ← hself, Nat.add_comm 1] at hholds
        exact hholds
      obtain ⟨hmine, hleaves⟩ := Handles.close_spec hk h.nodup
      refine ⟨hleaves.fault.trans h.fault, hleaves.nodup, h.ids.keeps hleaves.keeps, fun b => ?_⟩
      show Handles.Holds _ b ((if Function.update s.owed a false b then 1 else 0) +
        Threads.total _ _)
      by_cases hb : b = a
      · subst hb
        rw [Function.update_self, if_neg Bool.false_ne_true, Nat.zero_add]
        exact hmine
      · have hother := hrefs b
        rw [if_neg (Ne.symm hb), Nat.add_zero] at hother
        rw [Function.update_of_ne hb, hother]
        exact hleaves.others b hb _ (h.holds b)
    · have hstep : s.step (.close t a) = s := by
        simp only [State.step, if_neg ha]
      rw [hstep]
      exact h
  | releaseProcess processId =>
    obtain ⟨hstay, hfault, hnodup, hkeeps⟩ :=
      Handles.releaseProcess_spec processId hall h.nodup
    refine ⟨hfault.trans h.fault, hnodup, h.ids.keeps hkeeps, fun a => ?_⟩
    have ha := hstay a _ (h.holds a)
    show (s.handles.releaseProcess processId).Holds a
      ((if s.owed a && !s.handles.ofProcess processId a then 1 else 0) + s.refs a)
    cases hof : s.handles.ofProcess processId a with
    | false =>
      rw [hof, if_neg Bool.false_ne_true] at ha
      rw [Bool.not_false, Bool.and_true]
      exact ha
    | true =>
      have howed : s.own a = 1 := if_pos (hmeets a hof)
      rw [hof, if_pos rfl, howed, Nat.add_sub_cancel_left] at ha
      rw [Bool.not_true, Bool.and_false, if_neg Bool.false_ne_true, Nat.zero_add]
      exact ha

/-! ### Runs -/

/-- What is found stays, and what is closed is closed once. -/
structure Safe (s : State T δ) : Prop where
  /-- no freed proxy was accessed -/
  fault : s.handles.fault = false
  /-- what a thread has found is neither freed nor closed -/
  found : ∀ t a, a ∈ s.found t → s.handles.heap a ≠ none ∧ s.handles.closed a = 0
  /-- no proxy is closed before `Close` or the end of its process, or twice -/
  early : ∀ a, s.owed a = true → s.handles.closed a = 0
  once : ∀ a, s.handles.closed a ≤ 1
  /-- and when nobody has it any more it is closed -/
  done : ∀ a, a < s.handles.next → s.owed a = false → (∀ t, a ∉ s.found t) →
    s.handles.closed a = 1

omit [DecidableEq T] in
theorem Inv.safe (h : Inv s) : Safe s := by
  refine ⟨h.fault, fun t a ha => ?_, fun a ha => ?_, fun a => ?_, fun a hlt howed hnone => ?_⟩
  · have hpos : 0 < s.refs a := Threads.total_pos_iff.mpr ⟨t, count_pos_iff.mpr ha⟩
    obtain ⟨p, hp, -, -, -, hclosed⟩ := (h.holds a).proxy (Nat.add_pos_right _ hpos)
    exact ⟨hp ▸ Option.some_ne_none p, hclosed⟩
  · have hown : 0 < s.own a := by
      unfold State.own
      rw [if_pos ha]
      exact Nat.one_pos
    obtain ⟨-, -, -, -, -, hclosed⟩ := (h.holds a).proxy (Nat.add_pos_left hown _)
    exact hclosed
  · rcases h.holds a with ⟨-, -, -, -, -, -, hclosed⟩ | ⟨-, -, -, hclosed⟩
    · rw [hclosed]
      exact Nat.zero_le 1
    · rw [hclosed]
      split_ifs
      · exact le_rfl
      · exact Nat.zero_le 1
  · have hrefs : s.refs a = 0 := Threads.total_eq_zero_iff.mpr fun t =>
      count_eq_zero.mpr (hnone t)
    have hown : s.own a = 0 := by
      unfold State.own
      rw [howed, if_neg Bool.false_ne_true]
    have hholds := h.holds a
    rw [hown, hrefs] at hholds
    rcases hholds with ⟨-, -, -, -, -, hpos, -⟩ | ⟨-, -, -, hclosed⟩
    · exact absurd hpos (Nat.lt_irrefl 0)
    · rw [hclosed, if_pos hlt]

/-- **Proxy handles**, in every run whose steps meet the condition. -/
theorem handles_safe (es : List (Event T δ)) (s : State T δ)
    (h : Run (fun s e s' => s' = State.step s e) Meets State.initial es s) : Safe s := by
  refine (h.invariant (I := Inv) inv_initial ?_).safe
  rintro a e _ ha rfl hmeets
  exact inv_step e ha hmeets

end Invariant

/-- A thread finds a handle and closes it. -/
theorem handles_safe_closed : ∃ s : State Bool Unit, s.handles.closed 0 = 1 ∧ Safe s := by
  have hfind : ∀ a p, ((State.initial : State Bool Unit).step (.create 4 () true)).handles.heap a =
      some p → p.refcount + 1 < 2 ^ 32 := by
    intro a p hp
    have hupdate : Function.update (fun _ => none) 0 (some ⟨4, 0x73626f79, 1, ()⟩) a = some p := hp
    by_cases ha : a = 0
    · rw [ha, Function.update_self] at hupdate
      rw [← Option.some.inj hupdate]
      decide
    · rw [Function.update_of_ne ha] at hupdate
      exact (nomatch hupdate)
  have hrun : Run (fun (s : State Bool Unit) e s' => s' = State.step s e) Meets State.initial
      [.create 4 () true, .find true 4 0x73626f79, .close true 0] _ :=
    .cons rfl (fun _ a p hp => (nomatch hp)) (.cons rfl (fun a p hp _ _ => hfind a p hp)
      (.cons rfl (fun _ => rfl) (.nil _)))
  exact ⟨_, by decide, handles_safe _ _ hrun⟩

/-- One thread reads a handle, another closes it, and its process goes: the read has lost it. -/
theorem closed_and_gone :
    ¬∀ (es : List (Event Bool Unit)) (s : State Bool Unit),
      Run (fun s e s' => s' = State.step s e) (fun _ _ => True) State.initial es s → Safe s := by
  intro hall
  have hsafe := hall [.create 4 () true, .find true 4 0x73626f79, .find false 4 0x73626f79,
    .close false 0, .releaseProcess 4] _ (.cons rfl trivial (.cons rfl trivial (.cons rfl trivial
      (.cons rfl trivial (.cons rfl trivial (.nil _))))))
  exact absurd (by decide) (hsafe.found true 0 (by decide)).1

end Sandboxie.ProxyHandle
