import Sandboxie.Plus.SettingsStore
import Mathlib.Logic.Function.Basic

/-!
# Threads that write settings and their history

`CSettings::SetValue` and `DelValue` change the store under one mutex and record it
afterwards; `commitCurrentSnapshot` takes a snapshot and commits it under the mutex of the
history.  `CLocalSettingsHistory::restore` reads a revision, commits a checkpoint, applies the
revision and commits what it left, each in a section of its own.

What is done under the mutex of the settings is one step, so it is not part of the state.  A
thread does one call at a time.  `now`, `lastChange`, `seen`, `applied` and `returned` only
keep what happened: how many steps wrote the store, the last of them that changed what can be
seen, everything that could be seen, how much of it there was when a revision was applied,
and the calls of `restore` that returned.
-/

namespace Sandboxie.History

variable {V : Type} [DecidableEq V]

inductive Call (V : Type)
  | setValue (key : QString) (value : V)
  | delValue (key : QString)
deriving DecidableEq

namespace Call

def key : Call V → QString
  | setValue key _ => key
  | delValue key => key

def write (c : Call V) (s : Store V) : Store V :=
  match c with
  | setValue key value =>
    match keyOf key with
    | some k => s.insert k value
    | none => s
  | delValue key =>
    match keyOf key with
    | some k => s.remove k
    | none => SortedMap.empty

def before (c : Call V) (s : Store V) : Option V := (keyOf c.key).bind s.value

/-- The value that the call leaves, as it tells `record`. -/
def after : Call V → Option V
  | setValue _ value => some value
  | delValue _ => none

/-- `CLocalSettingsHistory::record` goes on to a commit. -/
def records (c : Call V) (s : Store V) : Bool :=
  c.key ≠ [] && !(text "History/").isPrefixOf c.key && c.before s ≠ c.after

end Call

/-- A call of `restore`: the revision that it asks for, the store when it began, and how many
steps had written the store then; its own are added. -/
structure Restore (V : Type) where
  id : Nat
  before : Store V
  writes : Nat

/-- Why `commitCurrentSnapshot` is called, with the revision that is restored. -/
inductive Why (V : Type)
  | record
  | checkpoint (r : Restore V) (target : Store V)
  | followUp (r : Restore V) (target : Store V)

inductive Phase (V : Type)
  | idle
  /-- in a call that has not written yet -/
  | storing (c : Call V)
  /-- in `restore`, in front of the revision -/
  | reading (r : Restore V)
  /-- in front of the mutex of the history, to commit -/
  | waiting (why : Why V)
  /-- with the mutex of the history -/
  | holding (why : Why V)
  /-- with the mutex of the history and a snapshot of some time -/
  | snapped (why : Why V) (time : Nat) (values : Store V)
  /-- in `restore`, in front of `ApplySnapshot` -/
  | applying (r : Restore V) (target : Store V)

/-- A committed revision, with the time of its snapshot. -/
structure Commit (V : Type) where
  time : Nat
  values : Store V

/-- A call of `restore` that returned. -/
structure Returned (V : Type) where
  ok : Bool
  call : Restore V
  after : Store V
  writes : Nat

structure State (V : Type) where
  store : Store V
  phase : Nat → Phase V := fun _ => .idle
  /-- the thread that has the mutex of the history -/
  owner : Option Nat := none
  /-- the oldest first -/
  commits : List (Commit V)
  now : Nat := 0
  lastChange : Nat := 0
  seen : List (Store V) := [store.snapshotValues]
  applied : List Nat := []
  returned : List (Returned V) := []

namespace State

def setPhase (s : State V) (t : Nat) (p : Phase V) : State V :=
  { s with phase := Function.update s.phase t p }

abbrev visible (s : State V) : Store V := s.store.snapshotValues

def write (s : State V) (store : Store V) : State V :=
  { s with
    store := store
    now := s.now + 1
    lastChange := if store.snapshotValues = s.visible then s.lastChange else s.now + 1
    seen := s.seen ++ [store.snapshotValues] }

/-- `restore` returns. -/
def return' (s : State V) (t : Nat) (ok : Bool) (call : Restore V) : State V :=
  { s.setPhase t .idle with
    returned := s.returned ++ [{ ok := ok, call := call, after := s.store, writes := s.now }] }

end State

/-- What Git did for a commit: nothing, the commit alone, or all. -/
inductive Git
  | failed
  | unreadable
  | ok
deriving DecidableEq

/-- What a thread does next, with what is up to its surroundings. -/
inductive Action (V : Type)
  | call (c : Call V)
  | restore (id : Nat)
  | store
  | read (available : Bool)
  | lock
  | snapshot
  | commit (git : Git)
  | apply (noError : Bool)

/-- The limits of `SnapshotToBytes` and `SnapshotFromBytes`, with the size of what is
written. -/
def fits (encodedSize : Store V → Nat) (values : Store V) : Bool :=
  values.entries.length ≤ 10000 &&
    values.entries.all (fun e => e.1.size ≤ 4096 && !e.1.isHidden) &&
    encodedSize values ≤ 1024 * 1024

/-- The end of `commitCurrentSnapshot` for a thread that has a snapshot. -/
def commitStep (t : Nat) (why : Why V) (commit : Option (Commit V)) (ok : Bool) (s : State V) :
    State V :=
  let s := { s with owner := none, commits := s.commits ++ commit.toList }
  match why with
  | .record => s.setPhase t .idle
  | .checkpoint r target => if ok then s.setPhase t (.applying r target) else s.return' t false r
  | .followUp r _ => s.return' t true r

def step (encodedSize : Store V → Nat) (s : State V) (t : Nat) (a : Action V) :
    Option (State V) :=
  match s.phase t, a with
  | .idle, .call c => some (s.setPhase t (.storing c))
  | .idle, .restore id =>
    some (s.setPhase t (.reading { id := id, before := s.store, writes := s.now }))
  | .storing c, .store =>
    some ((s.write (c.write s.store)).setPhase t
      (if c.records s.store then .waiting .record else .idle))
  | .reading r, .read available =>
    if s.owner = none then
      match s.commits[r.id]? with
      | some commit =>
        if available && fits encodedSize commit.values then
          some (s.setPhase t (.waiting (.checkpoint r commit.values)))
        else some (s.return' t false r)
      | none => some (s.return' t false r)
    else none
  | .waiting why, .lock =>
    if s.owner = none then some { s.setPhase t (.holding why) with owner := some t } else none
  | .holding why, .snapshot => some (s.setPhase t (.snapped why s.now s.visible))
  | .snapped why time values, .commit git =>
    let written := fits encodedSize values && git ≠ .failed
    some (commitStep t why (if written then some { time := time, values := values } else none)
      (written && git = .ok) s)
  | .applying r target, .apply noError =>
    let s := s.write (Store.applySnapshot target s.store)
    let s := { s with applied := s.applied ++ [s.seen.length - 1] }
    let r := { r with writes := r.writes + 1 }
    if noError then some (s.setPhase t (.waiting (.followUp r target)))
    else some (s.return' t false r)
  | _, _ => none

def run (encodedSize : Store V → Nat) (s : State V) : List (Nat × Action V) → Option (State V)
  | [] => some s
  | (t, a) :: rest =>
    match step encodedSize s t a with
    | none => none
    | some s => run encodedSize s rest

/-! ### What a step does -/

variable {encodedSize : Store V → Nat} {s s' : State V} {t : Nat}

/-- The steps, by the phase in front of them. -/
inductive Step (encodedSize : Store V → Nat) (s : State V) (t : Nat) : Action V → State V → Prop
  | call (c : Call V) (h : s.phase t = .idle) :
      Step encodedSize s t (.call c) (s.setPhase t (.storing c))
  | restore (id : Nat) (h : s.phase t = .idle) :
      Step encodedSize s t (.restore id)
        (s.setPhase t (.reading { id := id, before := s.store, writes := s.now }))
  | store (c : Call V) (h : s.phase t = .storing c) :
      Step encodedSize s t .store ((s.write (c.write s.store)).setPhase t
        (if c.records s.store then .waiting .record else .idle))
  | read (r : Restore V) (commit : Commit V) (h : s.phase t = .reading r)
      (howner : s.owner = none) (hcommit : s.commits[r.id]? = some commit)
      (hfits : fits encodedSize commit.values = true) :
      Step encodedSize s t (.read true)
        (s.setPhase t (.waiting (.checkpoint r commit.values)))
  | unread (r : Restore V) (available : Bool) (h : s.phase t = .reading r)
      (howner : s.owner = none) : Step encodedSize s t (.read available) (s.return' t false r)
  | lock (why : Why V) (h : s.phase t = .waiting why) (howner : s.owner = none) :
      Step encodedSize s t .lock { s.setPhase t (.holding why) with owner := some t }
  | snapshot (why : Why V) (h : s.phase t = .holding why) :
      Step encodedSize s t .snapshot (s.setPhase t (.snapped why s.now s.visible))
  | commit (why : Why V) (time : Nat) (values : Store V) (git : Git)
      (h : s.phase t = .snapped why time values) :
      Step encodedSize s t (.commit git)
        (commitStep t why
          (if fits encodedSize values = true ∧ git ≠ .failed then
            some { time := time, values := values } else none)
          (fits encodedSize values && git = .ok) s)
  | apply (r : Restore V) (target : Store V) (noError : Bool) (h : s.phase t = .applying r target) :
      Step encodedSize s t (.apply noError)
        (let s' := s.write (Store.applySnapshot target s.store)
        let s' := { s' with applied := s.applied ++ [s.seen.length] }
        let r := { r with writes := r.writes + 1 }
        if noError then s'.setPhase t (.waiting (.followUp r target)) else s'.return' t false r)

theorem step_cases {a : Action V} (h : step encodedSize s t a = some s') :
    Step encodedSize s t a s' := by
  unfold step at h
  cases hphase : s.phase t with
  | idle =>
    rw [hphase] at h
    cases a with
    | call c =>
      cases h
      exact .call c hphase
    | restore id =>
      cases h
      exact .restore id hphase
    | _ => exact nomatch h
  | storing c =>
    rw [hphase] at h
    cases a with
    | store =>
      cases h
      exact .store c hphase
    | _ => exact nomatch h
  | reading r =>
    rw [hphase] at h
    cases a with
    | read available =>
      simp only at h
      by_cases howner : s.owner = none
      · rw [if_pos howner] at h
        cases hcommit : s.commits[r.id]? with
        | none =>
          rw [hcommit] at h
          cases h
          exact .unread r available hphase howner
        | some commit =>
          rw [hcommit] at h
          simp only at h
          split_ifs at h with hread
          · obtain ⟨rfl, hfits⟩ := Bool.and_eq_true_iff.mp hread
            cases h
            exact .read r commit hphase howner hcommit hfits
          · cases h
            exact .unread r available hphase howner
      · rw [if_neg howner] at h
        exact nomatch h
    | _ => exact nomatch h
  | waiting why =>
    rw [hphase] at h
    cases a with
    | lock =>
      split_ifs at h with howner
      cases h
      exact .lock why hphase howner
    | _ => exact nomatch h
  | holding why =>
    rw [hphase] at h
    cases a with
    | snapshot =>
      cases h
      exact .snapshot why hphase
    | _ => exact nomatch h
  | snapped why time values =>
    rw [hphase] at h
    cases a with
    | commit git =>
      cases h
      have hcommit : Step encodedSize s t (.commit git) _ := .commit why time values git hphase
      convert hcommit using 2
      · simp only [Bool.and_eq_true, decide_eq_true_eq]
      · cases fits encodedSize values <;> cases git <;> rfl
    | _ => exact nomatch h
  | applying r target =>
    rw [hphase] at h
    cases a with
    | apply noError =>
      have hseen : (s.write (Store.applySnapshot target s.store)).seen.length - 1 =
          s.seen.length := by
        show (s.seen ++ [_]).length - 1 = _
        rw [List.length_append]
        rfl
      simp only [hseen] at h
      have happly : Step encodedSize s t (.apply noError) _ := .apply r target noError hphase
      cases noError with
      | true =>
        cases h
        exact happly
      | false =>
        cases h
        exact happly
    | _ => exact nomatch h

end Sandboxie.History
