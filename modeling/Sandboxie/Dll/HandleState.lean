import Mathlib.Logic.Function.Basic
import Sandboxie.Common.Text

/-!
# What is known of a handle

`core/dll/handle.c`: flags, a path and the handlers for its closing are kept for a handle.  The
map has at most one state for a handle, since one is inserted only where none was found.

The paths are copies in memory of their own, which is allocated and freed; a call that reads what
was freed has no result.  Each call runs under the lock, so a run is a list of calls.
-/

namespace Sandboxie.HandleState

open Function List

abbrev HANDLE : Type := UInt64

/-- `HANDLE_HANDLER`; the function is its address. -/
structure Handler where
  close : Nat
  param : UInt64
  propagate : Bool
deriving DecidableEq

/-- `HANDLE_STATE`; the path is a pointer. -/
structure State where
  deleteOnClose : Bool := false
  closeHandlers : List Handler := []
  relocationPath : Option Nat := none
  keyWow64Flags : UInt32 := 0
deriving DecidableEq

/-- `KEY_WOW64_32KEY | KEY_WOW64_64KEY` -/
def wow64Mask : UInt32 := 0x300

/-- `Handle_StatusData` with the paths in memory. -/
structure Data where
  states : HANDLE → Option State
  heap : Nat → Option (List WChar)
  /-- What is allocated next; nothing is there, or behind it. -/
  next : Nat

namespace Data

/-- `Handle_Init` -/
def init : Data := ⟨fun _ => none, fun _ => none, 0⟩

/-- `map_get`, or `map_insert` of a state of zeros. -/
def stateOf (d : Data) (h : HANDLE) : State := (d.states h).getD {}

def put (d : Data) (h : HANDLE) (s : State) : Data :=
  { d with states := update d.states h (some s) }

/-- `Dll_Free` -/
def free (d : Data) (p : Nat) : Data := { d with heap := update d.heap p none }

/-- `Dll_Alloc` of a copy. -/
def alloc (d : Data) (text : List WChar) : Data :=
  { d with heap := update d.heap d.next (some text), next := d.next + 1 }

def freePath (d : Data) (s : State) : Data :=
  match s.relocationPath with
  | some p => d.free p
  | none => d

end Data

/-- The path that is to be copied: a text of the caller, or one that belongs to a state. -/
inductive Path
  | text (text : List WChar)
  | block (p : Nat)

def Path.read (d : Data) : Path → Option (List WChar)
  | text t => some t
  | block p => d.heap p

/-! ### The calls -/

/-- `Handle_SetDeleteOnClose` -/
def setDeleteOnClose (d : Data) (h : HANDLE) (deleteOnClose : Bool) : Data :=
  d.put h { d.stateOf h with deleteOnClose }

/-- `Handle_SetRelocationPath`: the path that is there is freed before the other one is read. -/
def setRelocationPath (d : Data) (h : HANDLE) (path : Path) : Option Data :=
  let state := d.stateOf h
  let d := d.freePath state
  (path.read d).map fun text => (d.alloc text).put h { state with relocationPath := some d.next }

/-- `Handle_SetKeyWow64Flags` -/
def setKeyWow64Flags (d : Data) (h : HANDLE) (flags : UInt32) : Data :=
  d.put h { d.stateOf h with keyWow64Flags := flags &&& wow64Mask }

def isRegistered (handlers : List Handler) (close : Nat) : Bool :=
  handlers.any fun x => x.close == close

def Real (h : HANDLE) : Prop := h ≠ 0 ∧ h ≠ 0xFFFFFFFFFFFFFFFF

instance (h : HANDLE) : Decidable (Real h) := inferInstanceAs (Decidable (_ ∧ _))

/-- `Handle_RegisterHandler` -/
def registerHandler (d : Data) (h : HANDLE) (x : Handler) : Data × Bool :=
  if ¬ Real h then (d, false)
  else
    let state := d.stateOf h
    if isRegistered state.closeHandlers x.close then (d.put h state, false)
    else (d.put h { state with closeHandlers := state.closeHandlers ++ [x] }, true)

/-- `Handle_UnRegisterHandler`; what is assigned is the parameter `pParams` itself, and nothing is
stored for the caller. -/
def unRegisterHandler (d : Data) (h : HANDLE) (close : Nat) : Data :=
  match d.states h with
  | none => d
  | some state =>
    d.put h { state with closeHandlers := state.closeHandlers.eraseP fun x => x.close == close }

/-- `Handle_SetupDuplicate`; `state` is the state in the map, whatever the calls do to it. -/
def setupDuplicate (d : Data) (old new : HANDLE) : Option Data :=
  match d.states old with
  | none => some d
  | some state =>
    let d1 := match state.relocationPath with
      | some p => setRelocationPath d new (.block p)
      | none => some d
    d1.map fun d =>
      let d := if (d.stateOf old).keyWow64Flags ≠ 0 then
        setKeyWow64Flags d new (d.stateOf old).keyWow64Flags else d
      -- the loop ends behind the first one
      match (d.stateOf old).closeHandlers.find? fun x => x.propagate with
      | some x => (registerHandler d new ⟨x.close, 0, true⟩).1
      | none => d

/-- `Handle_ExecuteCloseHandler`: whether the file is to be deleted, and the handlers that are
called with their parameters. -/
def executeCloseHandler (d : Data) (h : HANDLE) : Data × Bool × List (Nat × UInt64) :=
  match d.states h with
  | none => (d, false, [])
  | some state =>
    ({ d.freePath state with states := update d.states h none }, state.deleteOnClose,
      state.closeHandlers.map fun x => (x.close, x.param))

inductive Call
  | setDeleteOnClose (h : HANDLE) (deleteOnClose : Bool)
  | setRelocationPath (h : HANDLE) (path : List WChar)
  | setKeyWow64Flags (h : HANDLE) (flags : UInt32)
  | registerHandler (h : HANDLE) (x : Handler)
  /-- `wants` says that the caller asks for the parameter. -/
  | unRegisterHandler (h : HANDLE) (close : Nat) (wants : Bool)
  | setupDuplicate (old new : HANDLE)
  | executeCloseHandler (h : HANDLE)

inductive Result
  | void
  | registered (ok : Bool)
  | handedBack (param : Option UInt64)
  | closed (deleteOnClose : Bool) (called : List (Nat × UInt64))
deriving DecidableEq

def step (d : Data) : Call → Option (Data × Result)
  | .setDeleteOnClose h b => some (setDeleteOnClose d h b, .void)
  | .setRelocationPath h path => (setRelocationPath d h (.text path)).map fun d => (d, .void)
  | .setKeyWow64Flags h flags => some (setKeyWow64Flags d h flags, .void)
  | .registerHandler h x => some ((registerHandler d h x).1, .registered (registerHandler d h x).2)
  | .unRegisterHandler h close _ => some (unRegisterHandler d h close, .handedBack none)
  | .setupDuplicate old new => (setupDuplicate d old new).map fun d => (d, .void)
  | .executeCloseHandler h =>
    some ((executeCloseHandler d h).1,
      .closed (executeCloseHandler d h).2.1 (executeCloseHandler d h).2.2)

/-! ### What is asked of them -/

structure View where
  deleteOnClose : Bool := false
  handlers : List Handler := []
  relocation : Option (List WChar) := none
  flags : UInt32 := 0
deriving DecidableEq

def viewOf (heap : Nat → Option (List WChar)) (s : State) : View :=
  ⟨s.deleteOnClose, s.closeHandlers, s.relocationPath.bind heap, s.keyWow64Flags⟩

def view (d : Data) (h : HANDLE) : View := viewOf d.heap (d.stateOf h)

def addHandler (handlers : List Handler) (x : Handler) : List Handler :=
  if isRegistered handlers x.close then handlers else handlers ++ [x]

/-- The handlers with those that are carried over, which lose their parameter. -/
def carry (handlers : List Handler) (xs : List Handler) : List Handler :=
  xs.foldl (fun handlers x => addHandler handlers ⟨x.close, 0, true⟩) handlers

def propagated (v : View) : List Handler := v.handlers.filter fun x => x.propagate

/-- What a call is for: what is known of the handles after it, and what comes back. -/
def spec (v : HANDLE → View) : Call → (HANDLE → View) × Result
  | .setDeleteOnClose h deleteOnClose => (update v h { v h with deleteOnClose }, .void)
  | .setRelocationPath h path => (update v h { v h with relocation := some path }, .void)
  | .setKeyWow64Flags h flags => (update v h { v h with flags := flags &&& wow64Mask }, .void)
  | .registerHandler h x =>
    if Real h ∧ isRegistered (v h).handlers x.close = false then
      (update v h { v h with handlers := (v h).handlers ++ [x] }, .registered true)
    else (v, .registered false)
  | .unRegisterHandler h close wants =>
    (update v h { v h with handlers := (v h).handlers.eraseP fun x => x.close == close },
      .handedBack (if wants then
        ((v h).handlers.find? fun x => x.close == close).map fun x => x.param else none))
  | .setupDuplicate old new =>
    (update v new { v new with
      relocation := (v old).relocation
      flags := (v old).flags
      handlers := carry (v new).handlers (propagated (v old)) }, .void)
  | .executeCloseHandler h =>
    (update v h {}, .closed (v h).deleteOnClose ((v h).handlers.map fun x => (x.close, x.param)))

/-- A call does what it is for; nothing is left of a handle that is closed, and no function is
called twice for it. -/
structure Done (d : Data) (call : Call) (d' : Data) (result : Result) : Prop where
  spec : (view d', result) = spec (view d) call
  closed : ∀ h, call = .executeCloseHandler h → d'.states h = none
  once : ∀ b called, result = .closed b called → (called.map Prod.fst).Nodup

def Follows (d : Data) : List Call → Prop
  | [] => True
  | call :: rest => ∃ d' result, step d call = some (d', result) ∧ Done d call d' result ∧
      Follows d' rest

/-- When a call does it: no parameter is asked for of a handler that is there; a duplicate does
not free the path of its original, has nothing of its own where the original has nothing, and at
most one handler is missing from it. -/
def Safe (v : HANDLE → View) : Call → Prop
  | .unRegisterHandler h close wants => wants = true → isRegistered (v h).handlers close = false
  | .setupDuplicate old new =>
    (old = new → (v old).relocation = none) ∧
      ((v old).relocation = none → (v new).relocation = none) ∧
      ((v old).flags = 0 → (v new).flags = 0) ∧
      match propagated (v old) with
      | [] => True
      | x :: rest => Real new ∧
          ∀ y ∈ rest, isRegistered (addHandler (v new).handlers ⟨x.close, 0, true⟩) y.close = true
  | _ => True

def AllSafe (d : Data) : List Call → Prop
  | [] => True
  | call :: rest => Safe (view d) call ∧ ∀ d' result, step d call = some (d', result) →
      AllSafe d' rest

/-! ### The handlers -/

theorem isRegistered_iff {handlers : List Handler} {close : Nat} :
    isRegistered handlers close = true ↔ close ∈ handlers.map fun x => x.close := by
  unfold isRegistered
  rw [any_eq_true, mem_map]
  exact exists_congr fun x => and_congr_right fun _ => beq_iff_eq

theorem length_addHandler (handlers : List Handler) (x : Handler) :
    handlers.length ≤ (addHandler handlers x).length := by
  unfold addHandler
  split
  · exact Nat.le_refl _
  · rw [length_append]
    omega

theorem length_carry : ∀ (xs handlers : List Handler),
    handlers.length ≤ (carry handlers xs).length := by
  intro xs
  induction xs with
  | nil => exact fun _ => Nat.le_refl _
  | cons x xs ih =>
    intro handlers
    exact Nat.le_trans (length_addHandler handlers _) (ih _)

theorem carry_eq_self_iff : ∀ (xs handlers : List Handler),
    carry handlers xs = handlers ↔ ∀ x ∈ xs, isRegistered handlers x.close = true := by
  intro xs
  induction xs with
  | nil => exact fun handlers => iff_of_true rfl fun x h => nomatch h
  | cons x xs ih =>
    intro handlers
    have hcarry : carry handlers (x :: xs) = carry
      (addHandler handlers ⟨x.close, 0, true⟩) xs := rfl
    rw [hcarry, forall_mem_cons, ← ih handlers]
    by_cases hthere : isRegistered handlers x.close = true
    · have hadd : addHandler handlers ⟨x.close, 0, true⟩ = handlers := if_pos hthere
      rw [hadd, and_iff_right hthere]
    have hadd : addHandler handlers ⟨x.close, 0, true⟩ = handlers ++ [⟨x.close, 0, true⟩] :=
      if_neg hthere
    refine iff_of_false (fun h => ?_) fun h => hthere h.1
    have hlen := congrArg List.length h
    have hle := length_carry xs (addHandler handlers ⟨x.close, 0, true⟩)
    rw [hadd, length_append, length_singleton] at hle
    rw [hadd] at hlen
    omega

theorem propagated_head (v : View) : (v.handlers.find? fun x => x.propagate) =
    (propagated v).head? := by
  unfold propagated
  rw [head?_filter]

/-! ### The memory -/

/-- The paths are there, each belongs to one handle, and the handlers of a handle are different
ones; null and the pseudo-handle have none. -/
structure Owned (d : Data) : Prop where
  live : ∀ h p, (d.stateOf h).relocationPath = some p → (d.heap p).isSome = true
  apart : ∀ h h' p, (d.stateOf h).relocationPath = some p →
    (d.stateOf h').relocationPath = some p → h = h'
  fresh : ∀ p, d.next ≤ p → d.heap p = none
  flags : ∀ h, (d.stateOf h).keyWow64Flags &&& wow64Mask = (d.stateOf h).keyWow64Flags
  real : ∀ h, ¬ Real h → (d.stateOf h).closeHandlers = []
  nodup : ∀ h, ((d.stateOf h).closeHandlers.map fun x => x.close).Nodup

theorem owned_init : Owned .init where
  live _ _ h := nomatch h
  apart _ _ _ h := nomatch h
  fresh _ _ := rfl
  flags _ := UInt32.zero_and
  real _ _ := rfl
  nodup _ := nodup_nil

variable {d : Data} {h : HANDLE}

theorem stateOf_none (hstate : d.states h = none) : d.stateOf h = {} := by
  unfold Data.stateOf
  rw [hstate]
  rfl

theorem stateOf_some {state : State} (hstate : d.states h = some state) :
    d.stateOf h = state := by
  unfold Data.stateOf
  rw [hstate]
  rfl

theorem stateOf_put (d : Data) (h : HANDLE) (s : State) :
    (d.put h s).stateOf = update d.stateOf h s := by
  funext h'
  unfold Data.stateOf Data.put
  dsimp only
  by_cases heq : h' = h
  · subst heq
    rw [update_self, update_self]
    rfl
  · rw [update_of_ne heq, update_of_ne heq]

theorem view_put (d : Data) (h : HANDLE) (s : State) :
    view (d.put h s) = update (view d) h (viewOf d.heap s) := by
  funext h'
  unfold view
  rw [stateOf_put]
  by_cases heq : h' = h
  · subst heq
    rw [update_self, update_self]
    rfl
  · rw [update_of_ne heq, update_of_ne heq]
    rfl

theorem Owned.put {d : Data} (ho : Owned d) {h : HANDLE} {s : State}
    (hpath : s.relocationPath = (d.stateOf h).relocationPath)
    (hflags : s.keyWow64Flags &&& wow64Mask = s.keyWow64Flags)
    (hreal : ¬ Real h → s.closeHandlers = [])
    (hnodup : (s.closeHandlers.map fun x => x.close).Nodup) : Owned (d.put h s) := by
  have hpaths : ∀ h', ((d.put h s).stateOf h').relocationPath =
      (d.stateOf h').relocationPath := by
    intro h'
    rw [stateOf_put]
    by_cases heq : h' = h
    · subst heq
      rw [update_self, hpath]
    · rw [update_of_ne heq]
  refine ⟨fun h' p hp => ?_, fun h1 h2 p hp1 hp2 => ?_, ho.fresh, fun h' => ?_, fun h' hr => ?_,
    fun h' => ?_⟩
  · rw [hpaths] at hp
    exact ho.live h' p hp
  · rw [hpaths] at hp1 hp2
    exact ho.apart h1 h2 p hp1 hp2
  all_goals rw [stateOf_put]
  all_goals by_cases heq : h' = h
  · subst heq
    rw [update_self]
    exact hflags
  · rw [update_of_ne heq]
    exact ho.flags h'
  · subst heq
    rw [update_self]
    exact hreal hr
  · rw [update_of_ne heq]
    exact ho.real h' hr
  · subst heq
    rw [update_self]
    exact hnodup
  · rw [update_of_ne heq]
    exact ho.nodup h'

theorem view_put_self (d : Data) (h : HANDLE) : view (d.put h (d.stateOf h)) = view d := by
  rw [view_put]
  exact update_eq_self h (view d)

/-! ### The calls on one handle -/

theorem setKeyWow64Flags_owned (ho : Owned d) (h : HANDLE) (flags : UInt32) :
    Owned (setKeyWow64Flags d h flags) :=
  ho.put rfl (by dsimp only; rw [UInt32.and_assoc, UInt32.and_self]) (ho.real h) (ho.nodup h)

theorem registerHandler_owned (ho : Owned d) (h : HANDLE) (x : Handler) :
    Owned (registerHandler d h x).1 := by
  unfold registerHandler
  split
  · exact ho
  next hreal =>
    rw [Classical.not_not] at hreal
    dsimp only
    split
    · exact ho.put rfl (ho.flags h) (ho.real h) (ho.nodup h)
    next hnew =>
      refine ho.put rfl (ho.flags h) (fun hr => absurd hreal hr) ?_
      rw [isRegistered_iff] at hnew
      rw [map_append, map_singleton]
      exact nodup_append.mpr ⟨ho.nodup h, by simp, fun a ha b hb hab =>
        hnew (by rw [← mem_singleton.mp hb, ← hab]; exact ha)⟩

theorem registerHandler_view (d : Data) (h : HANDLE) (x : Handler) :
    (view (registerHandler d h x).1, Result.registered (registerHandler d h x).2) =
      spec (view d) (.registerHandler h x) := by
  unfold registerHandler spec
  by_cases hreal : Real h
  · rw [if_neg (not_not_intro hreal)]
    dsimp only
    by_cases hthere : isRegistered (d.stateOf h).closeHandlers x.close = true
    · have hview : isRegistered (view d h).handlers x.close = true := hthere
      rw [if_pos hthere, if_neg fun h' => Bool.false_ne_true (h'.2.symm.trans hview)]
      rw [view_put_self]
    · have hview : isRegistered (view d h).handlers x.close = false :=
        Bool.eq_false_iff.mpr hthere
      rw [if_neg hthere, if_pos ⟨hreal, hview⟩, view_put]
      rfl
  · rw [if_pos hreal]
    exact (if_neg fun h' => hreal h'.1).symm

theorem registerHandler_adds (hreal : Real h) (x : Handler) :
    view (registerHandler d h x).1 =
      update (view d) h { view d h with handlers := addHandler (view d h).handlers x } := by
  have hview := congrArg Prod.fst (registerHandler_view d h x)
  refine hview.trans ?_
  unfold spec addHandler
  dsimp only
  cases hthere : isRegistered (view d h).handlers x.close with
  | true =>
    rw [if_neg (fun h' => nomatch h'.2), if_pos (rfl : true = true)]
    exact (update_eq_self h (view d)).symm
  | false => rw [if_pos ⟨hreal, rfl⟩, if_neg Bool.false_ne_true]

theorem unRegisterHandler_owned (ho : Owned d) (h : HANDLE) (close : Nat) :
    Owned (unRegisterHandler d h close) := by
  unfold unRegisterHandler
  cases hstate : d.states h with
  | none => exact ho
  | some state =>
    obtain rfl := stateOf_some hstate
    refine ho.put rfl (ho.flags h) (fun hr => ?_) ?_
    · show (d.stateOf h).closeHandlers.eraseP _ = []
      rw [ho.real h hr, eraseP_nil]
    · exact (eraseP_sublist.map _).nodup (ho.nodup h)

theorem unRegisterHandler_view (d : Data) (h : HANDLE) (close : Nat) :
    view (unRegisterHandler d h close) = update (view d) h { view d h with
      handlers := (view d h).handlers.eraseP fun x => x.close == close } := by
  unfold unRegisterHandler
  cases hstate : d.states h with
  | none =>
    have hview : view d h = {} := by
      unfold view
      rw [stateOf_none hstate]
      rfl
    rw [hview]
    exact (update_eq_iff.mpr ⟨hview.symm, fun _ _ => rfl⟩).symm
  | some state =>
    obtain rfl := stateOf_some hstate
    exact view_put d h _

/-! ### Paths and duplicates -/

theorem Owned.read_freePath (ho : Owned d) {h old : HANDLE} {p : Nat}
    (hp : (d.stateOf old).relocationPath = some p) :
    Path.read (d.freePath (d.stateOf h)) (.block p) =
      if h = old then none else (view d old).relocation := by
  have hrelocation : (view d old).relocation = d.heap p := by
    show (d.stateOf old).relocationPath.bind d.heap = _
    rw [hp]
    rfl
  rw [hrelocation]
  unfold Path.read Data.freePath
  by_cases heq : h = old
  · rw [if_pos heq, heq, hp]
    exact update_self ..
  · rw [if_neg heq]
    cases hq : (d.stateOf h).relocationPath with
    | none => rfl
    | some q =>
      refine update_of_ne (fun hpq => heq (ho.apart h old p ?_ hp)) ..
      rw [hq, hpq]

theorem alloc_put (ho : Owned d) (h : HANDLE) (text : List WChar) :
    let d' := ((d.freePath (d.stateOf h)).alloc text).put h
      { d.stateOf h with relocationPath := some (d.freePath (d.stateOf h)).next }
    Owned d' ∧ view d' = update (view d) h { view d h with relocation := some text } := by
  intro d'
  have hnext : (d.freePath (d.stateOf h)).next = d.next := by
    unfold Data.freePath
    split <;> rfl
  have hstates : (d.freePath (d.stateOf h)).stateOf = d.stateOf := by
    unfold Data.freePath
    split <;> rfl
  have hstate : d'.stateOf = update d.stateOf h
      { d.stateOf h with relocationPath := some d.next } := by
    show (Data.put _ h _).stateOf = _
    rw [stateOf_put, hnext]
    exact congrArg (update · h _) hstates
  have hnext' : d'.next = d.next + 1 := congrArg (· + 1) hnext
  -- what is in memory: the new path, and what was there but for the one that is freed
  have hself : d'.heap d.next = some text := by
    show update (d.freePath (d.stateOf h)).heap (d.freePath (d.stateOf h)).next (some text)
      d.next = _
    rw [hnext, update_self]
  have hheap : ∀ p, p ≠ d.next → (d.stateOf h).relocationPath ≠ some p → d'.heap p = d.heap p := by
    intro p hp hne
    show update (d.freePath (d.stateOf h)).heap (d.freePath (d.stateOf h)).next (some text) p = _
    rw [hnext, update_of_ne hp]
    unfold Data.freePath
    cases hq : (d.stateOf h).relocationPath with
    | none => rfl
    | some q => exact update_of_ne (fun hpq => hne (by rw [hq, hpq])) ..
  have hother : ∀ h' p, h' ≠ h → (d.stateOf h').relocationPath = some p →
      p ≠ d.next ∧ (d.stateOf h).relocationPath ≠ some p := by
    intro h' p hne hp
    refine ⟨fun heq => ?_, fun hself' => hne (ho.apart h' h p hp hself')⟩
    have hlive := ho.live h' p hp
    rw [heq, ho.fresh d.next (Nat.le_refl _)] at hlive
    cases hlive
  have hof : ∀ h', h' ≠ h → d'.stateOf h' = d.stateOf h' := by
    intro h' hne
    rw [hstate, update_of_ne hne]
  have hofself : d'.stateOf h = { d.stateOf h with relocationPath := some d.next } := by
    rw [hstate, update_self]
  constructor
  · refine ⟨fun h' p hp => ?_, fun h1 h2 p hp1 hp2 => ?_, fun p hp => ?_, fun h' => ?_,
      fun h' hr => ?_, fun h' => ?_⟩
    · by_cases heq : h' = h
      · rw [heq, hofself] at hp
        rw [← Option.some.inj hp, hself]
        rfl
      · rw [hof h' heq] at hp
        obtain ⟨hp1, hp2⟩ := hother h' p heq hp
        rw [hheap p hp1 hp2]
        exact ho.live h' p hp
    · by_cases heq1 : h1 = h
      · by_cases heq2 : h2 = h
        · rw [heq1, heq2]
        · rw [heq1, hofself] at hp1
          rw [hof h2 heq2] at hp2
          exact absurd (Option.some.inj hp1).symm (hother h2 p heq2 hp2).1
      · by_cases heq2 : h2 = h
        · rw [heq2, hofself] at hp2
          rw [hof h1 heq1] at hp1
          exact absurd (Option.some.inj hp2).symm (hother h1 p heq1 hp1).1
        · rw [hof h1 heq1] at hp1
          rw [hof h2 heq2] at hp2
          exact ho.apart h1 h2 p hp1 hp2
    · rw [hnext'] at hp
      rw [hheap p (by omega) fun hpath => ?_]
      · exact ho.fresh p (by omega)
      · have hlive := ho.live h p hpath
        rw [ho.fresh p (by omega)] at hlive
        cases hlive
    all_goals by_cases heq : h' = h
    · rw [heq, hofself]
      exact ho.flags h
    · rw [hof h' heq]
      exact ho.flags h'
    · rw [heq, hofself]
      exact ho.real h (heq ▸ hr)
    · rw [hof h' heq]
      exact ho.real h' hr
    · rw [heq, hofself]
      exact ho.nodup h
    · rw [hof h' heq]
      exact ho.nodup h'
  · funext h'
    by_cases heq : h' = h
    · rw [heq, update_self]
      unfold view viewOf
      rw [hofself]
      rw [Option.bind_some, hself]
    · rw [update_of_ne heq]
      unfold view viewOf
      rw [hof h' heq]
      refine congrArg (fun path => View.mk _ _ path _) ?_
      cases hp : (d.stateOf h').relocationPath with
      | none => rfl
      | some p =>
        obtain ⟨hp1, hp2⟩ := hother h' p heq hp
        exact hheap p hp1 hp2

theorem setRelocationPath_block (ho : Owned d) {h old : HANDLE} {p : Nat}
    (hp : (d.stateOf old).relocationPath = some p) :
    if h = old then setRelocationPath d h (.block p) = none
    else ∃ d', setRelocationPath d h (.block p) = some d' ∧ Owned d' ∧
      view d' = update (view d) h { view d h with relocation := (view d old).relocation } := by
  have hread := ho.read_freePath (h := h) hp
  unfold setRelocationPath
  dsimp only
  split
  next heq => rw [hread, if_pos heq, Option.map_none]
  next hne =>
    rw [if_neg hne] at hread
    obtain ⟨text, htext⟩ := Option.isSome_iff_exists.mp (ho.live old p hp)
    have hrelocation : (view d old).relocation = some text := by
      show (d.stateOf old).relocationPath.bind d.heap = _
      rw [hp, Option.bind_some, htext]
    rw [hread, hrelocation, Option.map_some]
    exact ⟨_, rfl, alloc_put ho h text⟩

/-- What is known of the new handle behind `Handle_SetupDuplicate`. -/
def duplicated (old new : View) (h : HANDLE) : View :=
  { new with
    relocation := old.relocation.or new.relocation
    flags := if old.flags ≠ 0 then old.flags else new.flags
    handlers := match propagated old with
      | [] => new.handlers
      | x :: _ => if Real h then addHandler new.handlers ⟨x.close, 0, true⟩ else new.handlers }

def copyPath (d : Data) (old new : HANDLE) : Option Data :=
  match (d.stateOf old).relocationPath with
  | some p => setRelocationPath d new (.block p)
  | none => some d

def copyFlags (d : Data) (old new : HANDLE) : Data :=
  if (d.stateOf old).keyWow64Flags ≠ 0 then
    setKeyWow64Flags d new (d.stateOf old).keyWow64Flags
  else d

def copyHandler (d : Data) (old new : HANDLE) : Data :=
  match (d.stateOf old).closeHandlers.find? fun x => x.propagate with
  | some x => (registerHandler d new ⟨x.close, 0, true⟩).1
  | none => d

theorem setupDuplicate_eq (d : Data) (old new : HANDLE) : setupDuplicate d old new =
    (copyPath d old new).map fun d => copyHandler (copyFlags d old new) old new := by
  unfold setupDuplicate copyPath
  cases hstate : d.states old with
  | none =>
    have hof := stateOf_none hstate
    rw [hof]
    show some d = some (copyHandler (copyFlags d old new) old new)
    have hflags : copyFlags d old new = d := by
      unfold copyFlags
      rw [hof]
      rfl
    rw [hflags]
    unfold copyHandler
    rw [hof]
    rfl
  | some state =>
    rw [stateOf_some hstate]
    rfl

theorem view_relocation_none (ho : Owned d) (h : HANDLE) :
    (view d h).relocation = none ↔ (d.stateOf h).relocationPath = none := by
  show (d.stateOf h).relocationPath.bind d.heap = none ↔ _
  cases hp : (d.stateOf h).relocationPath with
  | none => exact iff_of_true rfl rfl
  | some p =>
    refine iff_of_false (fun h' => ?_) (Option.some_ne_none p)
    have hlive := ho.live h p hp
    rw [Option.bind_some] at h'
    rw [h'] at hlive
    cases hlive

theorem copyPath_spec (ho : Owned d) {old new : HANDLE}
    (hfree : old = new → (view d old).relocation = none) :
    ∃ d', copyPath d old new = some d' ∧ Owned d' ∧ view d' = update (view d) new
      { view d new with relocation := (view d old).relocation.or (view d new).relocation } := by
  unfold copyPath
  cases hp : (d.stateOf old).relocationPath with
  | none =>
    refine ⟨d, rfl, ho, ?_⟩
    rw [(view_relocation_none ho old).mpr hp, Option.none_or]
    exact (update_eq_self new (view d)).symm
  | some p =>
    have hsome : (view d old).relocation ≠ none := by
      rw [Ne, view_relocation_none ho, hp]
      exact Option.some_ne_none p
    have hne : ¬ new = old := fun heq => hsome (hfree heq.symm)
    have hset := setRelocationPath_block (h := new) ho hp
    rw [if_neg hne] at hset
    obtain ⟨text, htext⟩ := Option.ne_none_iff_exists'.mp hsome
    rw [htext, Option.some_or, ← htext]
    exact hset

theorem copyFlags_spec (ho : Owned d) (old new : HANDLE) :
    Owned (copyFlags d old new) ∧ view (copyFlags d old new) = update (view d) new { view d new with
      flags := if (view d old).flags ≠ 0 then (view d old).flags else (view d new).flags } := by
  unfold copyFlags
  have hflags : (view d old).flags = (d.stateOf old).keyWow64Flags := rfl
  rw [hflags]
  by_cases hzero : (d.stateOf old).keyWow64Flags ≠ 0
  · rw [if_pos hzero, if_pos hzero]
    refine ⟨setKeyWow64Flags_owned ho _ _, ?_⟩
    unfold setKeyWow64Flags
    rw [view_put, ho.flags old]
    rfl
  · rw [if_neg hzero, if_neg hzero]
    exact ⟨ho, (update_eq_self new (view d)).symm⟩

theorem copyHandler_spec (ho : Owned d) (old new : HANDLE) :
    Owned (copyHandler d old new) ∧
      view (copyHandler d old new) = update (view d) new { view d new with
        handlers := match propagated (view d old) with
          | [] => (view d new).handlers
          | x :: _ =>
            if Real new then addHandler (view d new).handlers ⟨x.close, 0, true⟩
            else (view d new).handlers } := by
  unfold copyHandler
  have hhead : ((d.stateOf old).closeHandlers.find? fun x => x.propagate) =
      (propagated (view d old)).head? := propagated_head (view d old)
  rw [hhead]
  cases propagated (view d old) with
  | nil => exact ⟨ho, (update_eq_self new (view d)).symm⟩
  | cons x rest =>
    refine ⟨registerHandler_owned ho _ _, ?_⟩
    dsimp only [head?_cons]
    by_cases hreal : Real new
    · rw [if_pos hreal]
      exact registerHandler_adds hreal _
    · rw [if_neg hreal]
      unfold registerHandler
      rw [if_pos hreal]
      exact (update_eq_self new (view d)).symm

theorem setupDuplicate_spec (ho : Owned d) {old new : HANDLE}
    (hfree : old = new → (view d old).relocation = none) :
    ∃ d', setupDuplicate d old new = some d' ∧ Owned d' ∧
      view d' = update (view d) new (duplicated (view d old) (view d new) new) := by
  obtain ⟨d1, hd1, ho1, hview1⟩ := copyPath_spec ho hfree
  obtain ⟨ho2, hview2⟩ := copyFlags_spec ho1 old new
  obtain ⟨ho3, hview3⟩ := copyHandler_spec ho2 old new
  rw [setupDuplicate_eq, hd1]
  refine ⟨_, rfl, ho3, ?_⟩
  -- the flags and the handlers of the original are what they were, also when it is the new handle
  have hflags : (view d1 old).flags = (view d old).flags := by
    rw [hview1]
    by_cases heq : old = new
    · rw [heq, update_self]
    · rw [update_of_ne heq]
  have hhandlers : (view (copyFlags d1 old new) old).handlers = (view d old).handlers := by
    rw [hview2, hview1]
    by_cases heq : old = new
    · rw [heq, update_self, update_self]
    · rw [update_of_ne heq, update_of_ne heq]
  have hpropagated : propagated (view (copyFlags d1 old new) old) = propagated (view d old) := by
    unfold propagated
    rw [hhandlers]
  have hnew1 : view d1 new = { view d new with
      relocation := (view d old).relocation.or (view d new).relocation } := by
    rw [hview1, update_self]
  have hnew2 : view (copyFlags d1 old new) new = { view d1 new with
      flags := if (view d1 old).flags ≠ 0 then (view d1 old).flags else (view d1 new).flags } := by
    rw [hview2, update_self]
  rw [hview3, hpropagated, hnew2, hflags, hnew1, hview2, hview1, update_idem, update_idem]
  rfl

theorem setupDuplicate_self (ho : Owned d)
    (hsome : (view d h).relocation ≠ none) : setupDuplicate d h h = none := by
  rw [Ne, view_relocation_none ho] at hsome
  obtain ⟨p, hp⟩ := Option.ne_none_iff_exists'.mp hsome
  have hset := setRelocationPath_block (h := h) ho hp
  rw [if_pos rfl] at hset
  rw [setupDuplicate_eq]
  unfold copyPath
  rw [hp]
  dsimp only
  rw [hset]
  rfl

/-! ### Closing -/

theorem executeCloseHandler_spec (ho : Owned d) (h : HANDLE) :
    Owned (executeCloseHandler d h).1 ∧
      view (executeCloseHandler d h).1 = update (view d) h {} ∧
      (executeCloseHandler d h).1.states h = none ∧
      (executeCloseHandler d h).2 =
        ((view d h).deleteOnClose, (view d h).handlers.map fun x => (x.close, x.param)) := by
  unfold executeCloseHandler
  cases hstate : d.states h with
  | none =>
    have hview : view d h = {} := by
      unfold view
      rw [stateOf_none hstate]
      rfl
    refine ⟨ho, ?_, hstate, ?_⟩
    · rw [← hview]
      exact (update_eq_self h (view d)).symm
    · rw [hview]
      rfl
  | some state =>
    obtain rfl := stateOf_some hstate
    have hof : ∀ h', Data.stateOf { d.freePath (d.stateOf h) with states := update d.states h none }
        h' = if h' = h then {} else d.stateOf h' := by
      intro h'
      unfold Data.stateOf
      dsimp only
      by_cases heq : h' = h
      · rw [if_pos heq, heq, update_self]
        rfl
      · rw [if_neg heq, update_of_ne heq]
    have hheap : ∀ p, (d.freePath (d.stateOf h)).heap p =
        if (d.stateOf h).relocationPath = some p then none else d.heap p := by
      intro p
      unfold Data.freePath
      cases hq : (d.stateOf h).relocationPath with
      | none => rfl
      | some q =>
        by_cases hpq : p = q
        · rw [if_pos (by rw [hpq]), hpq]
          exact update_self ..
        · rw [if_neg fun h' => hpq (Option.some.inj h').symm]
          exact update_of_ne hpq ..
    have hnext : (d.freePath (d.stateOf h)).next = d.next := by
      unfold Data.freePath
      split <;> rfl
    have hother : ∀ h' p, h' ≠ h → (d.stateOf h').relocationPath = some p →
        (d.freePath (d.stateOf h)).heap p = d.heap p := by
      intro h' p hne hp
      rw [hheap, if_neg fun hself => hne (ho.apart h' h p hp hself)]
    refine ⟨⟨fun h' p hp => ?_, fun h1 h2 p hp1 hp2 => ?_, fun p hp => ?_, fun h' => ?_,
      fun h' hr => ?_, fun h' => ?_⟩, ?_, update_self .., rfl⟩
    · rw [hof] at hp
      by_cases heq : h' = h
      · rw [if_pos heq] at hp
        cases hp
      · rw [if_neg heq] at hp
        exact (hother h' p heq hp).symm ▸ ho.live h' p hp
    · rw [hof] at hp1 hp2
      split at hp1
      · cases hp1
      split at hp2
      · cases hp2
      exact ho.apart h1 h2 p hp1 hp2
    · have hp' : d.next ≤ p := hnext ▸ hp
      show (d.freePath (d.stateOf h)).heap p = none
      rw [hheap, ho.fresh p hp', ite_self]
    · rw [hof]
      split
      · exact UInt32.zero_and
      · exact ho.flags h'
    · rw [hof]
      split
      · rfl
      · exact ho.real h' hr
    · rw [hof]
      split
      · exact nodup_nil
      · exact ho.nodup h'
    · funext h'
      unfold view viewOf
      rw [hof]
      by_cases heq : h' = h
      · rw [if_pos heq, heq, update_self]
        rfl
      · rw [if_neg heq, update_of_ne heq]
        refine congrArg (fun path => View.mk _ _ path _) ?_
        cases hp : (d.stateOf h').relocationPath with
        | none => rfl
        | some p => exact hother h' p heq hp

/-! ### Runs -/

theorem duplicated_iff (old new : View) (h : HANDLE) (hreal : ¬ Real h → new.handlers = []) :
    duplicated old new h = { new with
        relocation := old.relocation
        flags := old.flags
        handlers := carry new.handlers (propagated old) } ↔
      (old.relocation = none → new.relocation = none) ∧ (old.flags = 0 → new.flags = 0) ∧
        match propagated old with
        | [] => True
        | x :: rest => Real h ∧ ∀ y ∈ rest,
            isRegistered (addHandler new.handlers ⟨x.close, 0, true⟩) y.close = true := by
  have hrelocation : old.relocation.or new.relocation = old.relocation ↔
      (old.relocation = none → new.relocation = none) := by
    cases old.relocation with
    | none => simp
    | some text => simp
  have hflags : (if old.flags ≠ 0 then old.flags else new.flags) = old.flags ↔
      (old.flags = 0 → new.flags = 0) := by
    by_cases hzero : old.flags = 0
    · rw [if_neg (not_not_intro hzero), hzero]
      simp
    · simp [hzero]
  unfold duplicated
  rw [View.mk.injEq, ← hrelocation, ← hflags]
  rw [and_iff_right rfl]
  have hhandlers : ((match propagated old with
        | [] => new.handlers
        | x :: _ => if Real h then addHandler new.handlers ⟨x.close, 0, true⟩ else new.handlers) =
          carry new.handlers (propagated old)) ↔
      match propagated old with
      | [] => True
      | x :: rest => Real h ∧ ∀ y ∈ rest,
          isRegistered (addHandler new.handlers ⟨x.close, 0, true⟩) y.close = true := by
    cases propagated old with
    | nil => exact iff_of_true rfl trivial
    | cons x rest =>
      dsimp only
      by_cases hr : Real h
      · rw [if_pos hr, and_iff_right hr, ← carry_eq_self_iff]
        exact eq_comm
      · rw [if_neg hr, hreal hr]
        refine iff_of_false (fun h' => ?_) fun h' => hr h'.1
        have hlen := length_carry rest (addHandler [] ⟨x.close, 0, true⟩)
        have hcarry : carry [] (x :: rest) = [] := h'.symm
        have hcons : carry [] (x :: rest) = carry (addHandler [] ⟨x.close, 0, true⟩) rest := rfl
        rw [← hcons, hcarry] at hlen
        exact absurd hlen (by simp [addHandler, isRegistered])
  rw [hhandlers]
  exact ⟨fun ⟨a, b, c⟩ => ⟨b, c, a⟩, fun ⟨a, b, c⟩ => ⟨c, a, b⟩⟩

theorem step_owned {d d' : Data} (ho : Owned d) {call : Call} {result : Result}
    (h : step d call = some (d', result)) : Owned d' := by
  cases call with
  | setDeleteOnClose h' b =>
    cases h
    exact ho.put rfl (ho.flags h') (ho.real h') (ho.nodup h')
  | setRelocationPath h' path =>
    cases h
    exact (alloc_put ho h' path).1
  | setKeyWow64Flags h' flags =>
    cases h
    exact setKeyWow64Flags_owned ho h' flags
  | registerHandler h' x =>
    cases h
    exact registerHandler_owned ho h' x
  | unRegisterHandler h' close wants =>
    cases h
    exact unRegisterHandler_owned ho h' close
  | setupDuplicate old new =>
    by_cases hfree : old = new → (view d old).relocation = none
    · obtain ⟨d1, hd1, ho1, -⟩ := setupDuplicate_spec ho hfree
      rw [step, hd1] at h
      cases h
      exact ho1
    · obtain ⟨rfl, hsome⟩ := Classical.not_imp.mp hfree
      rw [step, setupDuplicate_self ho hsome] at h
      cases h
  | executeCloseHandler h' =>
    cases h
    exact (executeCloseHandler_spec ho h').1

theorem done_iff {d d' : Data} {call : Call} {result : Result}
    (hopen : ∀ h, call ≠ .executeCloseHandler h)
    (hresult : ∀ b called, result ≠ .closed b called) :
    Done d call d' result ↔ (view d', result) = spec (view d) call :=
  ⟨Done.spec, fun h =>
    ⟨h, fun h' heq => absurd heq (hopen h'), fun b called heq => absurd heq (hresult b called)⟩⟩

theorem step_done_iff (ho : Owned d) (call : Call) :
    (∃ d' result, step d call = some (d', result) ∧ Done d call d' result) ↔
      Safe (view d) call := by
  cases call with
  | setDeleteOnClose h b =>
    refine iff_of_true ⟨_, _, rfl, (done_iff (by simp) (by simp)).mpr ?_⟩ trivial
    exact congrArg (·, Result.void) (view_put d h _)
  | setRelocationPath h path =>
    refine iff_of_true ⟨_, _, rfl, (done_iff (by simp) (by simp)).mpr ?_⟩ trivial
    exact congrArg (·, Result.void) (alloc_put ho h path).2
  | setKeyWow64Flags h flags =>
    refine iff_of_true ⟨_, _, rfl, (done_iff (by simp) (by simp)).mpr ?_⟩ trivial
    exact congrArg (·, Result.void) (view_put d h _)
  | registerHandler h x =>
    refine iff_of_true ⟨_, _, rfl, (done_iff (by simp) (by simp)).mpr ?_⟩ trivial
    exact registerHandler_view d h x
  | unRegisterHandler h close wants =>
    have hview := unRegisterHandler_view d h close
    have hthere : isRegistered (view d h).handlers close = false ↔
        ((view d h).handlers.find? fun x => x.close == close) = none := by
      unfold isRegistered
      rw [find?_eq_none, any_eq_false]
    have hspec : (view (unRegisterHandler d h close), Result.handedBack none) =
        spec (view d) (.unRegisterHandler h close wants) ↔
          (wants = true → isRegistered (view d h).handlers close = false) := by
      unfold spec
      rw [hview, Prod.mk.injEq, and_iff_right rfl, hthere, Result.handedBack.injEq]
      cases wants with
      | false => exact iff_of_true rfl fun h' => nomatch h'
      | true =>
        rw [if_pos rfl, eq_comm, Option.map_eq_none_iff]
        exact ⟨fun h' _ => h', fun h' => h' rfl⟩
    refine Iff.trans ⟨?_, fun h' => ?_⟩ hspec
    · rintro ⟨d', result, hstep, hdone⟩
      cases hstep
      exact hdone.spec
    · exact ⟨_, _, rfl, (done_iff (by simp) (by simp)).mpr h'⟩
  | setupDuplicate old new =>
    by_cases hfree : old = new → (view d old).relocation = none
    · obtain ⟨d1, hd1, ho1, hview⟩ := setupDuplicate_spec ho hfree
      have hspec : (view d1, Result.void) = spec (view d) (.setupDuplicate old new) ↔
          Safe (view d) (.setupDuplicate old new) := by
        unfold Safe spec
        dsimp only
        rw [hview, Prod.mk.injEq, and_iff_left rfl, and_iff_right hfree,
          ← duplicated_iff (view d old) (view d new) new fun hr => ho.real new hr]
        exact ⟨fun h => update_injective (view d) new h, fun h => by rw [h]⟩
      refine Iff.trans ⟨?_, fun h' => ?_⟩ hspec
      · rintro ⟨d', result, hstep, hdone⟩
        rw [step, hd1] at hstep
        cases hstep
        exact hdone.spec
      · exact ⟨d1, .void, by rw [step, hd1]; rfl, (done_iff (by simp) (by simp)).mpr h'⟩
    · refine iff_of_false ?_ fun h => hfree h.1
      obtain ⟨rfl, hsome⟩ := Classical.not_imp.mp hfree
      rintro ⟨d', result, hstep, -⟩
      rw [step, setupDuplicate_self ho hsome] at hstep
      cases hstep
  | executeCloseHandler h =>
    obtain ⟨-, hview, hnone, hresult⟩ := executeCloseHandler_spec ho h
    refine iff_of_true ⟨_, _, rfl, ?_, fun h' heq => ?_, fun b called heq => ?_⟩ trivial
    · rw [hview, hresult]
      rfl
    · cases heq
      exact hnone
    · cases heq
      rw [hresult]
      show (((view d h).handlers.map fun x => (x.close, x.param)).map Prod.fst).Nodup
      rw [map_map]
      exact ho.nodup h

theorem run_iff : ∀ (calls : List Call) {d : Data}, Owned d →
    (Follows d calls ↔ AllSafe d calls) := by
  intro calls
  induction calls with
  | nil => exact fun _ => Iff.rfl
  | cons call rest ih =>
    intro d ho
    have hstep := step_done_iff ho call
    constructor
    · rintro ⟨d', result, hrun, hdone, hrest⟩
      refine ⟨hstep.mp ⟨d', result, hrun, hdone⟩, fun d'' result' hrun' => ?_⟩
      obtain ⟨rfl, rfl⟩ := Prod.mk.inj (Option.some.inj (hrun.symm.trans hrun'))
      exact (ih (step_owned ho hrun)).mp hrest
    · rintro ⟨hsafe, hrest⟩
      obtain ⟨d', result, hrun, hdone⟩ := hstep.mpr hsafe
      exact ⟨d', result, hrun, hdone, (ih (step_owned ho hrun)).mpr (hrest d' result hrun)⟩

/-- **What is known of a handle follows it** in a run exactly when each call of it is a safe
one. -/
theorem follows_iff (calls : List Call) : Follows .init calls ↔ AllSafe .init calls :=
  run_iff calls owned_init

/-! ### A handler whose parameter is not handed back -/

/-- A handler is registered with the parameter 7, and is unregistered again. -/
def registerAndBack : List Call :=
  [.registerHandler 4 ⟨100, 7, false⟩, .unRegisterHandler 4 100 true]

/-- The parameter does not come back. -/
theorem not_follows_registerAndBack : ¬ Follows .init registerAndBack := by
  rintro ⟨d1, r1, hstep1, -, d2, r2, hstep2, hdone, -⟩
  cases hstep1
  cases hstep2
  have hresult := congrArg Prod.snd hdone.spec
  exact absurd hresult (by decide)

end Sandboxie.HandleState
