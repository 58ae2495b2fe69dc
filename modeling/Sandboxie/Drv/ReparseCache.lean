import Mathlib.Data.List.DropRight
import Mathlib.Logic.Function.Basic
import Sandboxie.Common.Text
import Sandboxie.Lib.Run

/-!
# The cache of reparse points

`File_TranslateReparsePoints` on any number of threads.  What a thread does while it holds
`File_ReparsePointsLock` is one step.  The lock is given up for the file I/O of a path that is not
in the cache, and `File_ReparsePointsBusy` keeps the other threads waiting until the entry is in.

No two entries are for one path, ignoring case.  A call returns what it would return with an empty
cache as long as no allocation fails; a name that could not be allocated is kept as if there were
none.
-/

namespace Sandboxie.ReparseCache

open Text List

def File_Redirector : List WChar := wide "\\Device\\LanmanRedirector".toList
def File_Mup : List WChar := wide "\\Device\\Mup".toList
def File_NamedPipe : List WChar := wide "\\Device\\NamedPipe".toList

/-- The name of the object that `ZwCreateFile` opens, without regard to case; empty where it fails
or the object has no name. -/
structure FileSystem (towlower : WChar → WChar) where
  objectName : List WChar → List WChar
  caseless : ∀ path path', sameNoCase towlower path path' = true →
    objectName path = objectName path'

/-- `CACHE_PATH`; where `dst` is NULL it is empty. -/
structure CachePath where
  time : UInt64
  src : List WChar
  dst : List WChar

/-- The calls of `Mem_Alloc` that succeed: for `path2`, in `Obj_GetName`, for the entry and for
`retpath`. -/
structure Allocs where
  path2 : Bool
  name : Bool
  entry : Bool
  retpath : Bool

def Allocs.all : Allocs := ⟨true, true, true, true⟩

def discard (path : List WChar) : List WChar := path.rdropWhile (· = 92)

/-- The path that `File_TranslateReparsePoints_2` looks for. -/
def source (path : List WChar) (len : Nat) : List WChar := discard (path.take len)

def startsWith (towlower : WChar → WChar) (path start : List WChar) : Prop :=
  start.length < path.length ∧ path[start.length]? = some 92 ∧
    sameNoCase towlower (path.take start.length) start = true

instance (towlower : WChar → WChar) (path start : List WChar) :
    Decidable (startsWith towlower path start) :=
  inferInstanceAs (Decidable (_ ∧ _ ∧ _))

/-- `File_TranslateReparsePoints`: the calls of `File_TranslateReparsePoints_2`, each with `len`
and `PassNum`, of which the first that returns a path counts. -/
def attempts (towlower : WChar → WChar) (path : List WChar) : List (Nat × Nat) :=
  if path.length < 8 ∨ sameNoCase towlower (path.take 8) (File_Mup.take 8) = false then []
  else if startsWith towlower path File_Redirector ∨ startsWith towlower path File_Mup ∨
      startsWith towlower path File_NamedPipe then []
  else
    match path.findIdx? fun c => c = 42 ∨ c = 63 with
    | none => [(path.length, 2)]
    | some index =>
      if index < 8 then []
      else if path[index - 1]? = some 92 then [(index - 1, 2)]
      else [(index, 1), (((path.take index).rdropWhile (· ≠ 92)).length - 1, 2)]

section Cache

variable {towlower : WChar → WChar} (fs : FileSystem towlower)

def target (src : List WChar) : List WChar := discard (cut (fs.objectName src))

/-- `File_TranslateReparsePoints_3`: the `dst` of the entry. -/
def translate3 (src : List WChar) (passNum : Nat) (a : Allocs) : Option (List WChar) :=
  if a.path2 = false then none
  else
    let dst := if a.name then target fs src else []
    if (dst ≠ [] ∨ passNum = 2) ∧ a.entry = true then some dst else none

/-- What `File_TranslateReparsePoints_2` makes of an entry. -/
def finish (path src : List WChar) (entry : Option (List WChar)) (a : Allocs) :
    Option (List WChar) :=
  match entry with
  | none => none
  | some dst => if dst ≠ [] ∧ a.retpath = true then some (dst ++ path.drop src.length) else none

/-- A call of `File_TranslateReparsePoints_2` with an empty cache. -/
def alone (path : List WChar) (attempt : Nat × Nat) : Option (List WChar) :=
  let src := source path attempt.1
  if src = [] then none else finish path src (translate3 fs src attempt.2 .all) .all

/-- What `File_TranslateReparsePoints` returns with an empty cache. -/
def translation (path : List WChar) : Option (List WChar) :=
  (attempts towlower path).findSome? (alone fs path)

/-- Where a thread is: the path, the attempts that are left, and the time that it has sampled. -/
inductive Place
  | idle
  | trying (path : List WChar) (left : List (Nat × Nat))
  | waiting (path : List WChar) (attempt : Nat × Nat) (left : List (Nat × Nat)) (now : UInt64)
  | reading (path : List WChar) (attempt : Nat × Nat) (left : List (Nat × Nat)) (now : UInt64)

/-- The static variables and the threads, with the paths and results of the calls so far. -/
structure State (T : Type) where
  list : List CachePath
  cleanupTime : UInt64
  busy : Nat
  place : T → Place
  returned : List (List WChar × Option (List WChar))

inductive Action
  | call (path : List WChar)
  | go (now : UInt64) (a : Allocs)

/-- All of its allocations succeed. -/
def Action.Succeeds : Action → Prop
  | .call _ => True
  | .go _ a => a = .all

/-- `SECONDS` -/
def seconds (n : UInt64) : UInt64 := n * 10000000

variable {T : Type} [DecidableEq T]

namespace State

def initial : State T := ⟨[], 0, 0, fun _ => .idle, []⟩

def goto (t : T) (place : Place) (s : State T) : State T :=
  { s with place := Function.update s.place t place }

def ret (t : T) (path : List WChar) (result : Option (List WChar)) (s : State T) : State T :=
  { s.goto t .idle with returned := (path, result) :: s.returned }

/-- The end of `File_TranslateReparsePoints_2`. -/
def answer (t : T) (path src : List WChar) (left : List (Nat × Nat)) (entry : Option (List WChar))
    (a : Allocs) (s : State T) : State T :=
  match finish path src entry a with
  | some result => s.ret t path (some result)
  | none => s.goto t (.trying path left)

/-- Entries of more than ten seconds are removed, once in a second. -/
def cleanUp (now : UInt64) (s : State T) : State T :=
  if now - s.cleanupTime > seconds 1 then
    { s with
      cleanupTime := now
      list := s.list.filter fun e => ¬now - e.time > seconds 10 }
  else s

/-- Under the lock: the entry is found, or the thread goes on to the file I/O. -/
def lookUp (towlower : WChar → WChar) (t : T) (path : List WChar) (attempt : Nat × Nat)
    (left : List (Nat × Nat)) (now : UInt64) (a : Allocs) (s : State T) : State T :=
  let src := source path attempt.1
  match s.list.find? fun e => sameNoCase towlower e.src src with
  | some e => s.answer t path src left (some e.dst) a
  | none => { s with busy := s.busy + 1 }.goto t (.reading path attempt left now)

/-- The lock again: the new entry goes to the head of the list. -/
def insert (t : T) (path : List WChar) (attempt : Nat × Nat) (left : List (Nat × Nat))
    (now : UInt64) (a : Allocs) (s : State T) : State T :=
  let src := source path attempt.1
  let entry := translate3 fs src attempt.2 a
  answer t path src left entry a
    { s with busy := s.busy - 1, list := (entry.map fun dst => ⟨now, src, dst⟩).toList ++ s.list }

def step (s : State T) (e : T × Action) : Option (State T) :=
  match s.place e.1, e.2 with
  | .idle, .call path => some (s.goto e.1 (.trying path (attempts towlower path)))
  | .trying path [], .go _ _ => some (s.ret e.1 path none)
  | .trying path (attempt :: left), .go now _ =>
    some (s.goto e.1 (if source path attempt.1 = [] then .trying path left
      else .waiting path attempt left now))
  | .waiting path attempt left now, .go _ a =>
    some (if s.busy ≠ 0 then s.goto e.1 (.trying path (attempt :: left))
      else (s.cleanUp now).lookUp towlower e.1 path attempt left now a)
  | .reading path attempt left now, .go _ a => some (s.insert fs e.1 path attempt left now a)
  | _, _ => none

end State

/-! ### One entry for each path -/

/-- The path that a thread reads. -/
def Place.reads : Place → Option (List WChar)
  | .reading path attempt _ _ => some (source path attempt.1)
  | _ => none

/-- No two entries are for one path, and one thread at most is about to put one in, for a path that
has none. -/
structure Inv (towlower : WChar → WChar) (s : State T) : Prop where
  apart : s.list.Pairwise fun e e' => sameNoCase towlower e.src e'.src = false
  busy : (s.busy = 0 ∧ ∀ t, (s.place t).reads = none) ∨
    s.busy = 1 ∧ ∃ t, ∀ t', t' ≠ t → (s.place t').reads = none
  fresh : ∀ t src, (s.place t).reads = some src →
    ∀ e ∈ s.list, sameNoCase towlower e.src src = false

variable {fs} {s s' : State T} {t : T}

theorem reads_update {place : Place} {t' : T} (h : (s.place t').reads = none)
    (hplace : place.reads = none) : (Function.update s.place t place t').reads = none := by
  by_cases ht : t' = t
  · rw [ht, Function.update_self]
    exact hplace
  · rw [Function.update_of_ne ht]
    exact h

theorem Inv.quiet (h : Inv towlower s) (place : Place) (hplace : place.reads = none)
    (hlist : s'.list.Sublist s.list) (hbusy : s'.busy = s.busy)
    (hs : s'.place = Function.update s.place t place) : Inv towlower s' where
  apart := h.apart.sublist hlist
  busy := by
    rw [hbusy, hs]
    rcases h.busy with ⟨hzero, hnone⟩ | ⟨hone, t₀, hnone⟩
    · exact .inl ⟨hzero, fun t' => reads_update (hnone t') hplace⟩
    · exact .inr ⟨hone, t₀, fun t' ht' => reads_update (hnone t' ht') hplace⟩
  fresh := by
    intro t' src hsrc e he
    rw [hs] at hsrc
    by_cases ht : t' = t
    · rw [ht, Function.update_self, hplace] at hsrc
      cases hsrc
    · rw [Function.update_of_ne ht] at hsrc
      exact h.fresh t' src hsrc e (hlist.subset he)

theorem Inv.goto (h : Inv towlower s) {place : Place} (hplace : place.reads = none) :
    Inv towlower (s.goto t place) :=
  h.quiet place hplace (.refl _) rfl rfl

theorem Inv.answer (h : Inv towlower s) (path src : List WChar) (left : List (Nat × Nat))
    (entry : Option (List WChar)) (a : Allocs) :
    Inv towlower (s.answer t path src left entry a) := by
  unfold State.answer
  split
  · exact h.quiet .idle rfl (.refl _) rfl rfl
  · exact h.goto rfl

omit [DecidableEq T] in
theorem cleanUp_list (now : UInt64) (s : State T) : (s.cleanUp now).list.Sublist s.list := by
  unfold State.cleanUp
  split
  · exact filter_sublist
  · exact .refl _

omit [DecidableEq T] in
theorem cleanUp_busy (now : UInt64) (s : State T) :
    (s.cleanUp now).busy = s.busy ∧ (s.cleanUp now).place = s.place ∧
      (s.cleanUp now).returned = s.returned := by
  unfold State.cleanUp
  split <;> exact ⟨rfl, rfl, rfl⟩

omit [DecidableEq T] in
theorem Inv.cleanUp (h : Inv towlower s) (now : UInt64) : Inv towlower (s.cleanUp now) := by
  obtain ⟨hbusy, hplace, -⟩ := cleanUp_busy now s
  have hsub := cleanUp_list now s
  refine ⟨h.apart.sublist hsub, ?_, fun t src hsrc e he => ?_⟩
  · rw [hbusy, hplace]
    exact h.busy
  · rw [hplace] at hsrc
    exact h.fresh t src hsrc e (hsub.subset he)

theorem Inv.lookUp (h : Inv towlower s) (hbusy : s.busy = 0) (path : List WChar)
    (attempt : Nat × Nat) (left : List (Nat × Nat)) (now : UInt64) (a : Allocs) :
    Inv towlower (s.lookUp towlower t path attempt left now a) := by
  unfold State.lookUp
  dsimp only
  split
  · exact h.answer _ _ _ _ _
  · rename_i hnone
    have hquiet := (h.busy.resolve_right fun hone => by omega).2
    refine ⟨h.apart, .inr ⟨congrArg (· + 1) hbusy, t, fun t' ht' => ?_⟩, fun t' src hsrc e he =>
      ?_⟩
    · show (Function.update s.place t _ t').reads = none
      rw [Function.update_of_ne ht']
      exact hquiet t'
    · change (Function.update s.place t _ t').reads = some src at hsrc
      by_cases ht : t' = t
      · rw [ht, Function.update_self] at hsrc
        cases hsrc
        exact Bool.eq_false_iff.mpr (find?_eq_none.mp hnone e he)
      · rw [Function.update_of_ne ht, hquiet t'] at hsrc
        cases hsrc

theorem Inv.insert (h : Inv towlower s) {path : List WChar} {attempt : Nat × Nat}
    {left : List (Nat × Nat)} {now : UInt64} (hplace : s.place t = .reading path attempt left now)
    (a : Allocs) : Inv towlower (s.insert fs t path attempt left now a) := by
  have hreads : (s.place t).reads = some (source path attempt.1) := by rw [hplace]; rfl
  have hfresh := h.fresh t _ hreads
  obtain ⟨hone, t₀, hothers⟩ := h.busy.resolve_left fun hzero => by
    rw [hzero.2 t] at hreads
    cases hreads
  have ht₀ : t = t₀ := by
    by_contra hne
    rw [hothers t hne] at hreads
    cases hreads
  -- before the entry is in, the thread has stopped reading
  have hbefore : Inv towlower { s.goto t .idle with
      busy := s.busy - 1
      list := ((translate3 fs (source path attempt.1) attempt.2 a).map fun dst =>
        ⟨now, source path attempt.1, dst⟩).toList ++ s.list } := by
    have hnone : ∀ t', (Function.update s.place t Place.idle t').reads = none := by
      intro t'
      by_cases ht : t' = t
      · rw [ht, Function.update_self]
        rfl
      · rw [Function.update_of_ne ht]
        exact hothers t' (ht₀ ▸ ht)
    refine ⟨?_, .inl ⟨by rw [hone], hnone⟩, fun t' src hsrc => ?_⟩
    · cases translate3 fs (source path attempt.1) attempt.2 a with
      | none => exact h.apart
      | some dst =>
        refine pairwise_cons.mpr ⟨fun e he => ?_, h.apart⟩
        rw [← hfresh e he, sameNoCase, sameNoCase]
        exact Bool.beq_comm
    · change (Function.update s.place t Place.idle t').reads = some src at hsrc
      rw [hnone t'] at hsrc
      cases hsrc
  unfold State.insert State.answer
  dsimp only
  split
  · exact hbefore.quiet .idle rfl (.refl _) rfl (Function.update_idem ..).symm
  · exact hbefore.quiet (.trying path left) rfl (.refl _) rfl (Function.update_idem ..).symm

theorem inv_step {e : T × Action} (h : Inv towlower s) (hstep : s.step fs e = some s') :
    Inv towlower s' := by
  unfold State.step at hstep
  split at hstep
  · exact Option.some.inj hstep ▸ h.goto rfl
  · exact Option.some.inj hstep ▸ h.quiet .idle rfl (.refl _) rfl rfl
  · refine Option.some.inj hstep ▸ h.goto ?_
    split <;> rfl
  · cases hstep
    split
    · exact h.goto rfl
    · rename_i hbusy
      refine (h.cleanUp _).lookUp ?_ _ _ _ _ _
      rw [(cleanUp_busy _ s).1]
      exact not_not.mp hbusy
  · rename_i hplace _
    exact Option.some.inj hstep ▸ h.insert hplace _
  · cases hstep

/-! ### The results -/

theorem target_congr {src src' : List WChar} (h : sameNoCase towlower src src' = true) :
    target fs src = target fs src' := by
  rw [target, target, fs.caseless src src' h]

theorem translate3_all (src : List WChar) (passNum : Nat) : translate3 fs src passNum .all =
    if target fs src ≠ [] ∨ passNum = 2 then some (target fs src) else none := by
  simp [translate3, Allocs.all]

theorem finish_target (path src : List WChar) (passNum : Nat) :
    finish path src (some (target fs src)) .all =
      finish path src (translate3 fs src passNum .all) .all := by
  rw [translate3_all]
  split
  · rfl
  · rename_i hnone
    exact if_neg fun hsome => hnone (.inl hsome.1)

variable (fs) in
/-- What is left to do at a place leads to the result with an empty cache. -/
def Place.Leads : Place → Prop
  | .idle => True
  | .trying path left => translation fs path = left.findSome? (alone fs path)
  | .waiting path attempt left _ | .reading path attempt left _ =>
    source path attempt.1 ≠ [] ∧ translation fs path = (attempt :: left).findSome? (alone fs path)

variable (fs) in
structure Right (s : State T) : Prop where
  list : ∀ e ∈ s.list, e.dst = target fs e.src
  places : ∀ t, (s.place t).Leads fs
  returned : ∀ c ∈ s.returned, c.2 = translation fs c.1

theorem Right.goto (h : Right fs s) {place : Place} (hplace : place.Leads fs) :
    Right fs (s.goto t place) where
  list := h.list
  places := by
    intro t'
    show (Function.update s.place t place t').Leads fs
    by_cases ht : t' = t
    · rw [ht, Function.update_self]
      exact hplace
    · rw [Function.update_of_ne ht]
      exact h.places t'
  returned := h.returned

theorem Right.ret (h : Right fs s) {path : List WChar} {result : Option (List WChar)}
    (hresult : result = translation fs path) : Right fs (s.ret t path result) where
  list := h.list
  places := by
    have hidle : Right fs (s.goto t .idle) := h.goto trivial
    exact hidle.places
  returned := fun c hc => by
    rcases mem_cons.mp hc with rfl | hold
    · exact hresult
    · exact h.returned c hold

theorem Right.answer (h : Right fs s) {path : List WChar} {attempt : Nat × Nat}
    {left : List (Nat × Nat)} {entry : Option (List WChar)}
    (hleads : (Place.reading path attempt left 0).Leads fs)
    (hentry : finish path (source path attempt.1) entry .all =
      finish path (source path attempt.1) (translate3 fs (source path attempt.1) attempt.2 .all)
        .all) :
    Right fs (s.answer t path (source path attempt.1) left entry .all) := by
  obtain ⟨hne, htranslation⟩ := hleads
  have halone : alone fs path attempt = finish path (source path attempt.1) entry .all := by
    rw [alone, if_neg hne, hentry]
  rw [findSome?_cons, halone] at htranslation
  unfold State.answer
  cases hfinish : finish path (source path attempt.1) entry .all with
  | some result =>
    rw [hfinish] at htranslation
    exact h.ret htranslation.symm
  | none =>
    rw [hfinish] at htranslation
    exact h.goto htranslation

theorem right_step {e : T × Action} (h : Right fs s) (hsucceeds : e.2.Succeeds)
    (hstep : s.step fs e = some s') : Right fs s' := by
  obtain ⟨t, action⟩ := e
  have hplace := h.places t
  unfold State.step at hstep
  split at hstep
  · cases hstep
    exact h.goto rfl
  · rename_i heq _
    rw [heq] at hplace
    cases hstep
    exact h.ret hplace.symm
  · rename_i path attempt left now _ heq _
    rw [heq] at hplace
    cases hstep
    refine h.goto ?_
    split
    · rename_i hnil
      have hnone : alone fs path attempt = none := if_pos hnil
      have hrest : translation fs path = (attempt :: left).findSome? (alone fs path) := hplace
      rw [findSome?_cons, hnone] at hrest
      exact hrest
    · exact ⟨‹_›, hplace⟩
  · rename_i path attempt left now _ a heq haction
    rw [heq] at hplace
    cases hstep
    obtain rfl : a = .all := by
      subst haction
      exact hsucceeds
    split
    · exact h.goto hplace.2
    · obtain ⟨-, hplaces, hreturned⟩ := cleanUp_busy now s
      have hclean : Right fs (s.cleanUp now) :=
        ⟨fun e he => h.list e ((cleanUp_list now s).subset he), fun t => hplaces ▸ h.places t,
          fun c hc => h.returned c (hreturned ▸ hc)⟩
      unfold State.lookUp
      dsimp only
      split
      · rename_i e hfind
        have hsame := find?_some hfind
        refine hclean.answer hplace ?_
        rw [hclean.list e (mem_of_find?_eq_some hfind), target_congr hsame]
        exact finish_target _ _ _
      · have hbegun : Right fs { s.cleanUp now with busy := (s.cleanUp now).busy + 1 } :=
          ⟨hclean.list, hclean.places, hclean.returned⟩
        exact hbegun.goto hplace
  · rename_i path attempt left now _ a heq haction
    rw [heq] at hplace
    cases hstep
    obtain rfl : a = .all := by
      subst haction
      exact hsucceeds
    have hinserted : Right fs { s with
        busy := s.busy - 1
        list := ((translate3 fs (source path attempt.1) attempt.2 .all).map fun dst =>
          ⟨now, source path attempt.1, dst⟩).toList ++ s.list } := by
      refine ⟨fun e he => ?_, h.places, h.returned⟩
      rcases mem_append.mp he with hnew | hold
      · obtain ⟨dst, hdst, rfl⟩ := by simpa using hnew
        rw [translate3_all] at hdst
        split at hdst
        · exact (Option.some.inj hdst).symm
        · cases hdst
      · exact h.list e hold
    exact hinserted.answer hplace rfl
  · cases hstep

/-- **The cache is transparent**: in every interleaving no two entries are for one path, and where
no allocation fails each call has returned what it returns with an empty cache. -/
theorem cache_transparent (fs : FileSystem towlower) {es : List (T × Action)} {s : State T}
    (h : Run (fun s e s' => s.step fs e = some s') (fun _ _ => True) State.initial es s) :
    (s.list.Pairwise fun e e' => sameNoCase towlower e.src e'.src = false) ∧
      ((∀ e ∈ es, e.2.Succeeds) → ∀ c ∈ s.returned, c.2 = translation fs c.1) := by
  have hinitial : Inv towlower (State.initial : State T) :=
    ⟨.nil, .inl ⟨rfl, fun _ => rfl⟩, nofun⟩
  refine ⟨(h.invariant hinitial fun hi hstep _ => inv_step hi hstep).apart, fun hsucceeds => ?_⟩
  have hright : Right fs s := h.keeps (I := fun _ => True) trivial (fun _ _ _ => trivial)
    hsucceeds (fun _ hstep _ he hq => right_step hq he hstep) ⟨nofun, fun _ => trivial, nofun⟩
  exact hright.returned

end Cache

/-! ### Two calls for one folder -/

def folder : List WChar := wide "\\Device\\a".toList

def oneFolder : FileSystem asciiLower where
  objectName path :=
    if sameNoCase asciiLower path folder = true then wide "\\Device\\b".toList else []
  caseless := fun path path' h => by
    rw [sameNoCase, beq_iff_eq] at h
    rw [sameNoCase, sameNoCase, h]

def twoCalls (first : Allocs) : List (Bool × Action) :=
  [(false, .call folder), (false, .go 0 .all), (false, .go 0 .all), (false, .go 0 first),
    (true, .call folder), (true, .go 0 .all), (true, .go 0 .all)]

def runs (es : List (Bool × Action)) : Option (State Bool) :=
  Run.checked (State.step oneFolder) (fun _ _ => True) State.initial es

theorem cache_transparent_twoCalls : ∃ s : State Bool, s.returned.length = 2 ∧
    (s.list.Pairwise fun e e' => sameNoCase asciiLower e.src e'.src = false) ∧
      ∀ c ∈ s.returned, c.2 = translation oneFolder c.1 := by
  have hreturned : (runs (twoCalls .all)).map (fun s => s.returned.length) = some 2 := by
    decide +kernel
  obtain ⟨s, hs, htwo⟩ := Option.map_eq_some_iff.mp hreturned
  obtain ⟨hapart, hresults⟩ := cache_transparent oneFolder (Run.of_checked hs)
  refine ⟨s, htwo, hapart, hresults fun e he => ?_⟩
  simp only [twoCalls, mem_cons, not_mem_nil, or_false] at he
  rcases he with rfl | rfl | rfl | rfl | rfl | rfl | rfl
  all_goals first | exact trivial | rfl

/-- The name of the first call cannot be allocated, and the second one finds none. -/
theorem not_transparent_failedName : ∃ (es : List (Bool × Action)) (s : State Bool),
    Run (fun s e s' => s.step oneFolder e = some s') (fun _ _ => True) State.initial es s ∧
      ∃ c ∈ s.returned, c.2 ≠ translation oneFolder c.1 := by
  have hreturned : (runs (twoCalls ⟨true, false, true, true⟩ ++ [(true, .go 0 .all)])).map
      (·.returned) = some [(folder, none)] := by decide +kernel
  obtain ⟨s, hs, hnone⟩ := Option.map_eq_some_iff.mp hreturned
  refine ⟨_, s, Run.of_checked hs, (folder, none), ?_, by decide +kernel⟩
  rw [hnone]
  exact mem_singleton_self _

end Sandboxie.ReparseCache
